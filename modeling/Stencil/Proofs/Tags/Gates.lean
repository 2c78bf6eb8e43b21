import Mathlib.Data.List.TFAE
import Mathlib.Tactic.ByContra
import Stencil.Proofs.Tags.Change
import Stencil.Proofs.Template.Faults

/-!
# One rule for every pair

A pair is checked when it is made and when a scan starts under it; one that a change names is not
checked. It makes no difference: the rule is the same. A scanner that starts under a valid pair never
has another kind of pair in effect, and its check can fail at the start only.
-/

namespace Stencil

/-- The error of a check that the pair has failed. -/
def Error.Rejects (error : Error) (tags : Tags) : Prop :=
  ∃ location, error = .malformed (.invalidTags tags) location

/-- What is wrong with a change is never the pair that it names. -/
theorem Tags.ofChange_ne_invalidTags (body : Text) (tags : Tags) :
    ofChange body ≠ .error (.invalidTags tags) := by
  unfold ofChange
  split
  · nofun
  · split <;> nofun

namespace Scanner

variable {source : Text} {tags other : Tags} {s after : Scanner} {error : Error} {n : Nat}
  {answer : Option (Except Error Token)}

/-- The pair in effect is valid, and so is the one that the next closing delimiter puts into effect. -/
def Sound (s : Scanner) : Prop :=
  s.tags.Valid ∧ ∀ size next, s.phase = .closing size next → next.Valid

theorem sound_start (valid : tags.Valid) : (start tags).Sound :=
  ⟨valid, nofun⟩

theorem Moves.sound {token : Token} (h : Moves s token after) (sound : s.Sound) : after.Sound := by
  obtain ⟨valid, pending⟩ := sound
  cases h with
  | text kind goesOn =>
    refine ⟨valid, fun size next closes => ?_⟩
    rcases goesOn with rfl | rfl <;> cases closes
  | opening kind => exact ⟨valid, nofun⟩
  | body kind changes =>
    refine ⟨valid, fun size next closes => ?_⟩
    cases closes
    exact Token.valid_of_nextTags valid changes
  | closing kind => exact ⟨pending _ _ rfl, nofun⟩

theorem Reacts.sound (h : Reacts source s answer after) (sound : s.Sound) : after.Sound := by
  cases h with
  | token moves => exact moves.sound sound
  | finished | rejected | malformed => exact ⟨sound.1, nofun⟩

theorem Yields.sound {tokens : List Token} (h : Yields source s tokens after) (sound : s.Sound) :
    after.Sound := by
  induction h with
  | none => exact sound
  | token answers _ ih => exact ih ((moves_of_next answers).sound sound)

/-- Under a valid pair every pair that tokens put into effect is valid. -/
theorem valid_inEffect (valid : tags.Valid) {front back : List Token}
    (list : (Tokens.scan source tags).list = front ++ back) : (Token.inEffect tags front).Valid := by
  obtain ⟨reached, items, last, hfront, htags, -⟩ := reaches list
  rw [← htags]
  exact (hfront.sound (sound_start valid)).1

/-- Only the pair in effect is rejected. -/
theorem Reacts.of_rejects (h : Reacts source s (some (.error error)) after)
    (rejects : error.Rejects other) : ¬ s.tags.Valid ∧ other = s.tags := by
  obtain ⟨location, rejects⟩ := rejects
  cases h with
  | rejected phase invalid =>
    cases rejects
    exact ⟨invalid, rfl⟩
  | malformed broken =>
    cases rejects
    rcases broken with unclosed | ⟨body, faulty⟩
    · cases unclosed
    · exact absurd faulty (Tags.ofChange_ne_invalidTags body other)

/-- The scanner after it has been asked so many times. -/
def asked (source : Text) : Nat → Scanner → Option Scanner
  | 0, s => some s
  | n + 1, s => (s.next source).bind fun (_, after) => asked source n after

theorem sound_of_asked (h : asked source n s = some after) (sound : s.Sound) : after.Sound := by
  induction n generalizing s with
  | zero =>
    cases h
    exact sound
  | succ n ih =>
    obtain ⟨⟨answer, reached⟩, hnext, hmore⟩ := Option.bind_eq_some_iff.1 h
    exact ih hmore ((reacts_of_next hnext).sound sound)

theorem asked_of_still (still : s.next source = some (none, s)) (n : Nat) :
    asked source n s = some s := by
  induction n with
  | zero => rfl
  | succ n ih =>
    rw [asked, still]
    exact ih

/-- A scanner that answers at all can be asked any number of times. -/
theorem Answers.exists_asked {items : List (Except Error Token)} (h : Answers source s items tags)
    (n : Nat) : ∃ after, asked source n s = some after := by
  induction h generalizing n with
  | @«over» s last ends still =>
    cases n with
    | zero => exact ⟨s, rfl⟩
    | succ n =>
      refine ⟨last, ?_⟩
      rw [asked, ends]
      exact asked_of_still still n
  | @item s after item items tags answers more ih =>
    cases n with
    | zero => exact ⟨s, rfl⟩
    | succ n =>
      obtain ⟨reached, hreached⟩ := ih n
      refine ⟨reached, ?_⟩
      rw [asked, answers]
      exact hreached

/-- Started under an invalid pair, a scanner is done after one answer. -/
theorem done_of_asked (invalid : ¬ tags.Valid) (h : asked source (n + 1) (start tags) = some s) :
    s.next source = some (none, s) := by
  have hnext : (start tags).next source =
      (start tags).fail (.malformedAt source 0 (.invalidTags tags)) := by
    simp [start, next, invalid]
  rw [asked, hnext] at h
  have hstill : asked source n ⟨tags, 0, .done⟩ = some ⟨tags, 0, .done⟩ := asked_of_still rfl n
  cases hstill.symm.trans h
  rfl

/-- Asked any number of times, a scanner that has started under a valid pair has a valid pair in effect,
and one that has not is rejected at the first time only. -/
theorem asked_start (source : Text) (tags : Tags) (n : Nat) :
    ∃ s, asked source n (start tags) = some s ∧ (tags.Valid → s.tags.Valid) ∧
      ∀ error after other, s.next source = some (some (.error error), after) → error.Rejects other →
        n = 0 ∧ other = tags ∧ ¬ tags.Valid := by
  obtain ⟨s, hs⟩ := (@answers_scanFrom source tags [] source rfl).exists_asked n
  have hvalid : tags.Valid → s.tags.Valid := fun valid => (sound_of_asked hs (sound_start valid)).1
  refine ⟨s, hs, hvalid, fun error after other hnext rejects => ?_⟩
  -- What is rejected is invalid, so the start was, and then nothing comes after the first answer.
  obtain ⟨invalid, hother⟩ := (reacts_of_next hnext).of_rejects rejects
  have hstart : ¬ tags.Valid := fun valid => invalid (hvalid valid)
  cases n with
  | zero =>
    cases hs
    exact ⟨rfl, hother, hstart⟩
  | succ n =>
    rw [done_of_asked hstart hs] at hnext
    cases hnext

end Scanner

namespace Template

variable {source : Text} {tags : Tags} {error : Error}

theorem compile_of_invalid (invalid : ¬ tags.Valid) (source : Text) :
    compile source tags = .error (.malformedAt source 0 (.invalidTags tags)) := by
  rw [compile, Tokens.scan, Tokens.scanFrom_of_invalid invalid]
  rfl

/-- Compilation under a valid pair rejects no pair, whatever is wrong with the source. -/
theorem not_rejects_of_compile (valid : tags.Valid) (h : compile source tags = .error error)
    (other : Tags) : ¬ error.Rejects other := by
  rintro ⟨location, rejects⟩
  rcases of_compile_error h with hfailure | ⟨tag, imbalance, rfl, -⟩
  · obtain ⟨front, opening, fault, -, -, rfl, broken⟩ :=
      (Tokens.Partition.of_scan source tags).fails valid error hfailure
    cases rejects
    cases broken with
    | change ends faulty => exact Tags.ofChange_ne_invalidTags _ other faulty
  · cases rejects

theorem valid_of_not_rejects
    (h : ∀ error, compile source tags = .error error → ¬ error.Rejects tags) : tags.Valid := by
  by_contra invalid
  exact h _ (compile_of_invalid invalid source) ⟨_, rfl⟩

end Template

namespace Tags

/-- What can be made, what can be written in a change and what a source can start under is the same: the
valid pairs. A change is read just when it names two words, and a scanner under a valid pair never has
to check another. -/
theorem gates_agree :
    (∀ opening closing : Text,
      let tags : Tags := ⟨opening, closing⟩
      List.TFAE [tags.Valid,
        ∃ made, make opening closing = .ok made,
        make opening closing = .ok tags,
        ∃ body, ofChange body = .ok tags,
        ∀ body, tags.Writes body → ofChange body = .ok tags,
        ∀ source error other, Template.compile source tags = .error error → ¬ error.Rejects other,
        ∃ source, ∀ error, Template.compile source tags = .error error → ¬ error.Rejects tags]) ∧
      (∀ body made, ofChange body = .ok made ↔ ∃ names : Text,
        body.trim = '=' :: (names ++ ['=']) ∧ names.TwoWords made.opening made.closing) ∧
      ∀ source tags,
        (tags.Valid → ∀ front back, (Tokens.scan source tags).list = front ++ back →
          (Token.inEffect tags front).Valid) ∧
        ∀ n, ∃ s, Scanner.asked source n (.start tags) = some s ∧ (tags.Valid → s.tags.Valid) ∧
          ∀ error after other, s.next source = some (some (.error error), after) →
            error.Rejects other → n = 0 ∧ other = tags ∧ ¬ tags.Valid := by
  refine ⟨fun opening closing => ?_, fun body made => ofChange_eq_ok_iff, fun source tags =>
    ⟨fun valid front back list => Scanner.valid_inEffect valid list, Scanner.asked_start source tags⟩⟩
  intro tags
  refine List.tfae_of_forall tags.Valid _ ?_
  simp only [List.forall_mem_cons]
  refine ⟨trivial, ?_, ?_, exists_ofChange_iff, forall_ofChange_iff, ?_, ?_, nofun⟩
  · constructor
    · rintro ⟨made, hmade⟩
      obtain ⟨rfl, valid⟩ := make_eq_ok_iff.1 hmade
      exact valid
    · exact fun valid => ⟨tags, make_eq_ok_iff.2 ⟨rfl, valid⟩⟩
  · exact make_eq_ok_iff.trans (and_iff_right rfl)
  · exact ⟨fun h => Template.valid_of_not_rejects fun error he => h [] error tags he,
      fun valid source error other he => Template.not_rejects_of_compile valid he other⟩
  · exact ⟨fun ⟨source, h⟩ => Template.valid_of_not_rejects h,
      fun valid => ⟨[], fun error he => Template.not_rejects_of_compile valid he tags⟩⟩

end Tags
end Stencil
