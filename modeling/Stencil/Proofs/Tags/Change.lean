import Stencil.Proofs.Text.Words

/-!
# Which pairs can be made and written

The body of a change names a pair by two words between equals signs. The pairs that it can name are
the valid ones, those that can be made of two texts.
-/

namespace Stencil
namespace Tags

variable {body names : Text} {tags : Tags}

/-- An equals sign at either end, which are two: one alone is not both. -/
theorem changeNames?_eq_some_iff :
    changeNames? body = some names ↔ body.trim = '=' :: (names ++ ['=']) := by
  unfold changeNames?
  split
  · rename_i t ht
    rw [ht, List.cons_inj_right]
    split
    · rename_i hlast
      obtain ⟨s, rfl⟩ := List.getLast?_eq_some_iff.1 hlast
      rw [List.dropLast_concat, Option.some_inj, List.append_cancel_right_eq]
    · rename_i hlast
      refine iff_of_false nofun ?_
      rintro rfl
      exact hlast (by simp)
  · rename_i hplain
    exact iff_of_false nofun fun h => hplain _ h

/-- A change reads two words between equals signs. -/
theorem ofChange_eq_ok_iff_words : ofChange body = .ok tags ↔
    ∃ names : Text, body.trim = '=' :: (names ++ ['=']) ∧ names.words = [tags.opening, tags.closing] := by
  simp only [← changeNames?_eq_some_iff]
  unfold ofChange
  cases changeNames? body with
  | none => simp
  | some names =>
    simp only [Option.some.injEq, exists_eq_left']
    split
    · rename_i opening closing hwords
      obtain ⟨left, right⟩ := tags
      simp [hwords]
    · rename_i hwords
      exact iff_of_false nofun (hwords _ _)

theorem ofChange_eq_ok_iff : ofChange body = .ok tags ↔
    ∃ names : Text, body.trim = '=' :: (names ++ ['=']) ∧
      names.TwoWords tags.opening tags.closing := by
  simp only [ofChange_eq_ok_iff_words, Text.words_eq_pair_iff]

/-- A lone equals sign is not at both ends. A delimiter may hold one. -/
example : ofChange ['='] = .error .invalidChange ∧
    ofChange "= = == =".toList = .ok ⟨['='], ['=', '=']⟩ := by
  decide

/-- The bodies that change to the pair as its text is written, with any blanks around the text and around
the equals signs. -/
def Writes (tags : Tags) (body : Text) : Prop :=
  ∃ front before after back : Text,
    (∀ blanks ∈ [front, before, after, back], blanks.all Text.isBlank = true) ∧
      body = front ++ '=' :: (before ++ (tags.text ++ after) ++ '=' :: back)

theorem writes_text (tags : Tags) : tags.Writes ('=' :: (tags.text ++ ['='])) :=
  ⟨[], [], [], [], by simp, by simp⟩

theorem ofChange_of_writes (valid : tags.Valid) (h : tags.Writes body) : ofChange body = .ok tags := by
  obtain ⟨front, before, after, back, hblank, rfl⟩ := h
  obtain ⟨hfront, hbefore, hafter, hback, -⟩ := by simpa only [List.forall_mem_cons] using hblank
  have hequals : Text.isBlank '=' = false := by decide
  have hnames : (before ++ (tags.text ++ after)).TwoWords tags.opening tags.closing :=
    ⟨valid.1, valid.2, before, [' '], after, hbefore, by decide, hafter, nofun, by simp [text]⟩
  exact ofChange_eq_ok_iff.2 ⟨_, Text.trim_between hfront hback hequals hequals _, hnames⟩

theorem exists_ofChange_iff : (∃ body, ofChange body = .ok tags) ↔ tags.Valid :=
  ⟨fun ⟨_, h⟩ => valid_of_ofChange h, fun valid => ⟨_, ofChange_of_writes valid tags.writes_text⟩⟩

theorem forall_ofChange_iff : (∀ body, tags.Writes body → ofChange body = .ok tags) ↔ tags.Valid :=
  ⟨fun h => valid_of_ofChange (h _ tags.writes_text), fun valid _ => ofChange_of_writes valid⟩

theorem make_eq_ok_iff {opening closing : Text} :
    make opening closing = .ok tags ↔ tags = ⟨opening, closing⟩ ∧ tags.Valid := by
  unfold make
  dsimp only
  split
  · rename_i valid
    rw [Except.ok.injEq]
    constructor
    · rintro rfl
      exact ⟨rfl, valid⟩
    · exact fun h => h.1.symm
  · rename_i invalid
    refine iff_of_false nofun ?_
    rintro ⟨rfl, valid⟩
    exact invalid valid

end Tags
end Stencil
