import Stencil.Proofs.Text.Trim
import Stencil.Tags.Change

/-!
# The words of a text

A text is blank and has no word, or it is some blanks, a word that goes on as far as it can, and the
rest. So two words are two texts with blanks around them and at least one between them.
-/

namespace Stencil
namespace Text

open Tags (IsSide)

variable {t word rest blanks : Text} {ws : List Text}

theorem splitWhere_eq_splitOnP (p : Char → Bool) (t : Text) : splitWhere p t = t.splitOnP p := by
  induction t with
  | nil => rw [splitWhere, List.splitOnP_nil]
  | cons c t ih =>
    obtain ⟨run, runs, hruns⟩ := List.exists_cons_of_ne_nil (List.splitOnP_ne_nil p t)
    rw [splitWhere, List.splitOnP_cons_eq_if_modifyHead, ih, hruns]
    rfl

/-- Blanks in front are in no word. -/
theorem words_blanks_append (h : blanks.all isBlank = true) (t : Text) :
    words (blanks ++ t) = words t := by
  induction blanks with
  | nil => rfl
  | cons c blanks ih =>
    rw [List.all_cons, Bool.and_eq_true] at h
    exact (words_append_blank [] _ h.1).trans (ih h.2)

theorem words_of_blank (h : t.all isBlank = true) : words t = [] := by
  simpa [words, splitWhere] using words_blanks_append h []

theorem words_of_isSide (side : IsSide word) : words word = [word] := by
  have hsplit : splitWhere isBlank word = [word] := by
    rw [splitWhere_eq_splitOnP]
    exact List.splitOnP_eq_singleton (by simpa using side.2)
  simp [words, hsplit, side.1]

/-- What can follow a word: nothing, or a blank first. -/
def StartsBlank (rest : Text) : Prop :=
  ∀ c ∈ rest.head?, isBlank c = true

theorem words_isSide_append (side : IsSide word) (starts : StartsBlank rest) :
    words (word ++ rest) = word :: words rest := by
  cases rest with
  | nil =>
    rw [List.append_nil, words_of_isSide side]
    rfl
  | cons c rest =>
    have hc : isBlank c = true := starts c rfl
    rw [words_append_blank word rest hc, words_of_isSide side, List.singleton_append]
    exact congrArg _ (words_append_blank [] rest hc).symm

/-- The first word of a text that is not blank goes on up to the next blank. -/
theorem exists_first_word (h : t.all isBlank = false) : ∃ blanks word rest,
    blanks.all isBlank = true ∧ IsSide word ∧ StartsBlank rest ∧ t = blanks ++ (word ++ rest) := by
  have hsolid : t.trimStart ≠ [] := by
    rw [ne_eq, trimStart_eq_nil_iff, h]
    exact Bool.false_ne_true
  obtain ⟨c, u, hstart⟩ := List.exists_cons_of_ne_nil hsolid
  have hc := isBlank_of_trimStart hstart
  refine ⟨t.leading, t.trimStart.takeWhile fun d => !isBlank d,
    t.trimStart.dropWhile fun d => !isBlank d, List.all_takeWhile, ⟨?_, ?_⟩, ?_, ?_⟩
  · simp [hstart, hc]
  · exact fun d hd => by simpa using List.mem_takeWhile_imp hd
  · intro d hd
    have := List.head?_dropWhile_not (fun d => !isBlank d) t.trimStart
    rw [Option.mem_def.1 hd] at this
    simpa using this
  · rw [List.takeWhile_append_dropWhile, leading_append_trimStart]

theorem words_eq_nil_iff : words t = [] ↔ t.all isBlank = true := by
  refine ⟨fun h => ?_, words_of_blank⟩
  by_contra hsolid
  obtain ⟨blanks, word, rest, hblanks, side, starts, rfl⟩ :=
    exists_first_word (Bool.eq_false_iff.2 hsolid)
  rw [words_blanks_append hblanks, words_isSide_append side starts] at h
  cases h

theorem words_eq_cons_iff : words t = word :: ws ↔ ∃ blanks rest, blanks.all isBlank = true ∧
    IsSide word ∧ StartsBlank rest ∧ t = blanks ++ (word ++ rest) ∧ words rest = ws := by
  constructor
  · intro h
    have hsolid : t.all isBlank = false := by
      rw [Bool.eq_false_iff, ne_eq, ← words_eq_nil_iff, h]
      exact List.cons_ne_nil word ws
    obtain ⟨blanks, first, rest, hblanks, side, starts, rfl⟩ := exists_first_word hsolid
    rw [words_blanks_append hblanks, words_isSide_append side starts] at h
    obtain ⟨rfl, rfl⟩ := List.cons.inj h
    exact ⟨blanks, rest, hblanks, side, starts, rfl, rfl⟩
  · rintro ⟨blanks, rest, hblanks, side, starts, rfl, rfl⟩
    rw [words_blanks_append hblanks, words_isSide_append side starts]

/-- Two words with blanks around them and between them. -/
structure TwoWords (t first second : Text) : Prop where
  left : IsSide first
  right : IsSide second
  spaced : ∃ before between after, before.all isBlank = true ∧ between.all isBlank = true ∧
    after.all isBlank = true ∧ between ≠ [] ∧
      t = before ++ (first ++ (between ++ (second ++ after)))

theorem startsBlank_of_ne_nil (h : blanks.all isBlank = true) (hne : blanks ≠ []) (t : Text) :
    StartsBlank (blanks ++ t) := by
  obtain ⟨c, blanks, rfl⟩ := List.exists_cons_of_ne_nil hne
  rw [List.all_cons, Bool.and_eq_true] at h
  rintro d ⟨⟩
  exact h.1

theorem startsBlank_of_blank (h : t.all isBlank = true) : StartsBlank t :=
  fun c hc => List.all_eq_true.1 h c (List.mem_of_head? hc)

theorem not_startsBlank_isSide (side : IsSide word) (rest : Text) : ¬ StartsBlank (word ++ rest) := by
  obtain ⟨c, word, rfl⟩ := List.exists_cons_of_ne_nil side.1
  intro starts
  have hc : isBlank c = true := starts c rfl
  rw [side.2 c (List.mem_cons_self ..)] at hc
  cases hc

theorem words_eq_pair_iff {first second : Text} :
    words t = [first, second] ↔ TwoWords t first second := by
  constructor
  · intro h
    obtain ⟨before, rest, hbefore, left, starts, rfl, hrest⟩ := words_eq_cons_iff.1 h
    obtain ⟨between, after, hbetween, right, -, rfl, hafter⟩ := words_eq_cons_iff.1 hrest
    refine ⟨left, right, before, between, after, hbefore, hbetween, words_eq_nil_iff.1 hafter, ?_, rfl⟩
    -- The first word goes on as far as it can, so it takes a blank to end it.
    rintro rfl
    exact not_startsBlank_isSide right after starts
  · rintro ⟨left, right, before, between, after, hbefore, hbetween, hafter, hne, rfl⟩
    rw [words_blanks_append hbefore,
      words_isSide_append left (startsBlank_of_ne_nil hbetween hne _), words_blanks_append hbetween,
      words_isSide_append right (startsBlank_of_blank hafter), words_of_blank hafter]

end Text
end Stencil
