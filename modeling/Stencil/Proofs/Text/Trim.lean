import Mathlib.Data.List.TakeWhile
import Stencil.Proofs.Text.Occurrence

/-!
# The blanks around a text

A text that is not blank is its leading blanks, what is left when it is trimmed, and its trailing
blanks. A blank text is both its leading and its trailing blanks, and nothing is left of it.
-/

namespace Stencil
namespace Text

variable {t : Text}

theorem isBlank_of_trimStart {c : Char} {u : Text} (h : t.trimStart = c :: u) :
    isBlank c = false := by
  have := List.head?_dropWhile_not isBlank t
  rw [show t.dropWhile isBlank = c :: u from h] at this
  exact this

theorem trimStart_eq_nil_iff : t.trimStart = [] ↔ t.all isBlank = true :=
  List.dropWhile_eq_nil_iff.trans List.all_eq_true.symm

theorem trimStart_of_blank (h : t.all isBlank = true) : t.trimStart = [] :=
  trimStart_eq_nil_iff.2 h

theorem leading_of_blank (h : t.all isBlank = true) : t.leading = t := by
  have := leading_append_trimStart t
  rwa [trimStart_of_blank h, List.append_nil] at this

theorem trimEnd_of_blank (h : t.all isBlank = true) : t.trimEnd = [] := by
  rw [trimEnd, List.reverse_eq_nil_iff]
  exact List.dropWhile_eq_nil_iff.2 fun c hc => List.all_eq_true.1 h c (List.mem_reverse.1 hc)

theorem trailing_of_blank (h : t.all isBlank = true) : t.trailing = t := by
  have := trimEnd_append_trailing t
  rwa [trimEnd_of_blank h, List.nil_append] at this

theorem all_isBlank_trailing : t.trailing.all isBlank = true := by
  rw [trailing, List.all_reverse]
  exact List.all_takeWhile

theorem trimEnd_cases (t : Text) :
    t.trimEnd = [] ∨ ∃ s d, t.trimEnd = s ++ [d] ∧ isBlank d = false := by
  cases h : t.reverse.dropWhile isBlank with
  | nil => exact .inl (by rw [trimEnd, h]; rfl)
  | cons d s =>
    refine .inr ⟨s.reverse, d, by rw [trimEnd, h, List.reverse_cons], ?_⟩
    have := List.head?_dropWhile_not isBlank t.reverse
    rwa [h] at this

/-- Blanks after a character that is none are the trailing ones. -/
theorem trailing_append_blanks (s : Text) {d : Char} (h : isBlank d = false) {blanks : Text}
    (hb : blanks.all isBlank = true) : trailing (s ++ d :: blanks) = blanks := by
  have hparts := trimEnd_append_trailing (s ++ d :: blanks)
  rw [trimEnd_append_blanks s h hb] at hparts
  exact List.append_cancel_left (hparts.trans (List.append_cons ..))

/-- No blank at either end. -/
def IsTrimmed (t : Text) : Prop :=
  (∀ c ∈ t.head?, isBlank c = false) ∧ ∀ c ∈ t.getLast?, isBlank c = false

theorem trim_of_blank (h : t.all isBlank = true) : t.trim = [] := by
  rw [trim, trimStart_of_blank h]
  rfl

/-- Trimming stops at characters that are no blanks. -/
theorem trim_between {front back : Text} (hf : front.all isBlank = true) (hb : back.all isBlank = true)
    {c d : Char} (hc : isBlank c = false) (hd : isBlank d = false) (s : Text) :
    trim (front ++ c :: (s ++ d :: back)) = c :: (s ++ [d]) := by
  rw [trim, (leading_blanks hf hc _).2]
  exact trimEnd_append_blanks (c :: s) hd hb

/-- The trailing blanks are those after the last character that is none, so leading blanks are not
among them. -/
theorem trim_append_trailing (h : t.trimStart ≠ []) :
    t.trim ≠ [] ∧ t.trim ++ t.trailing = t.trimStart := by
  have hparts := trimEnd_append_trailing t.trimStart
  rcases trimEnd_cases t.trimStart with hend | ⟨s, d, hend, hd⟩
  · rw [hend, List.nil_append] at hparts
    have hblank := (hparts ▸ all_isBlank_trailing : t.trimStart.all isBlank = true)
    obtain ⟨c, u, hstart⟩ := List.exists_cons_of_ne_nil h
    rw [hstart, List.all_cons, isBlank_of_trimStart hstart] at hblank
    cases hblank
  · have hwhole : t = (t.leading ++ s) ++ d :: t.trimStart.trailing := by
      rw [hend, List.append_assoc, List.singleton_append] at hparts
      rw [List.append_assoc, hparts, leading_append_trimStart]
    have htrailing : t.trailing = t.trimStart.trailing :=
      (congrArg trailing hwhole).trans (trailing_append_blanks _ hd all_isBlank_trailing)
    refine ⟨?_, htrailing ▸ hparts⟩
    rw [trim, hend]
    exact List.append_ne_nil_of_right_ne_nil s (List.cons_ne_nil d [])

theorem trim_eq_nil_iff : t.trim = [] ↔ t.all isBlank = true := by
  refine ⟨fun h => ?_, trim_of_blank⟩
  by_contra hsolid
  exact (trim_append_trailing (mt trimStart_eq_nil_iff.1 hsolid)).1 h

/-- A text that is not blank is made up by the parts that trimming cuts it into. -/
theorem leading_append_trim (h : t.trim ≠ []) : t.leading ++ (t.trim ++ t.trailing) = t := by
  have hstart : t.trimStart ≠ [] := mt trimStart_eq_nil_iff.1 (mt trim_eq_nil_iff.2 h)
  rw [(trim_append_trailing hstart).2, leading_append_trimStart]

/-- The parts that trimming cuts a text into make it up, if its blanks are counted once where there is
nothing between them. -/
theorem append_parts (t : Text) :
    t.leading ++ (t.trim ++ if t.trim = [] then [] else t.trailing) = t ∧
      (t.trim = [] → t.trailing = t.leading) := by
  by_cases h : t.trim = []
  · have hblank := trim_eq_nil_iff.1 h
    simp [h, leading_of_blank hblank, trailing_of_blank hblank]
  · exact ⟨by rw [if_neg h, leading_append_trim h], fun hn => absurd hn h⟩

/-- Counted on both sides, blanks with nothing between them are too many. -/
theorem append_parts_iff (t : Text) :
    t.leading ++ (t.trim ++ t.trailing) = t ↔ (t.trim = [] → t.leading = []) := by
  by_cases h : t.trim = []
  · have hblank := trim_eq_nil_iff.1 h
    simp [h, leading_of_blank hblank, trailing_of_blank hblank]
  · exact iff_of_true (leading_append_trim h) fun hn => absurd hn h

theorem isTrimmed_trim (t : Text) : t.trim.IsTrimmed := by
  by_cases hstart : t.trimStart = []
  · rw [trim_of_blank (trimStart_eq_nil_iff.1 hstart)]
    exact ⟨nofun, nofun⟩
  · obtain ⟨hne, hparts⟩ := trim_append_trailing hstart
    constructor
    · intro c hc
      obtain ⟨u, hu⟩ := List.head?_eq_some_iff.1 (Option.mem_def.1 hc)
      rw [hu, List.cons_append] at hparts
      exact isBlank_of_trimStart hparts.symm
    · rcases trimEnd_cases t.trimStart with hend | ⟨s, d, hend, hd⟩
      · exact absurd hend hne
      · simpa [trim, hend] using hd

end Text
end Stencil
