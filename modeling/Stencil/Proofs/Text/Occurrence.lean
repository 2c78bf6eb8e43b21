import Stencil.Text.Blank

/-!
# First occurrences

Where a text first occurs in another, told without a search: it stands there, and nowhere earlier.
What follows the first occurrence has no say in where it is.
-/

namespace Stencil
namespace Text

variable {mark t before after : Text}

/-- Where the first occurrence ends does not depend on what follows it. -/
theorem breakAt?_append_other (h : breakAt? mark t = some (before, after)) (other : Text) :
    breakAt? mark (before ++ (mark ++ other)) = some (before, other) := by
  cases hb : breakAt? mark (before ++ (mark ++ other)) with
  | none => exact absurd hb (breakAt?_ne_none mark before other)
  | some cut =>
    obtain ⟨first, rest⟩ := cut
    have heq := eq_append_of_breakAt? hb
    have hle := length_le_of_breakAt?_append _ _ hb
    obtain ⟨tail, htail⟩ : first ++ mark <+: before ++ mark := by
      refine List.prefix_of_prefix_length_le ⟨rest, ?_⟩ ⟨other, List.append_assoc ..⟩ ?_
      · rw [heq, List.append_assoc]
      · simpa using hle
    have hge : before.length ≤ first.length := by
      have ht : t = first ++ (mark ++ (tail ++ after)) := by
        rw [eq_append_of_breakAt? h, ← List.append_assoc, ← htail]
        simp
      exact length_le_of_breakAt?_append first _ (ht ▸ h)
    obtain ⟨rfl, hrest⟩ := List.append_inj heq (Nat.le_antisymm hge hle)
    rw [List.append_cancel_left hrest]

/-- Nothing opens before the first occurrence. -/
theorem breakAt?_before (hm : mark ≠ []) (h : breakAt? mark t = some (before, after)) :
    breakAt? mark before = none := by
  rw [breakAt?_eq_none_iff]
  rintro a b rfl
  have ht : t = a ++ (mark ++ (b ++ (mark ++ after))) := by
    simpa using eq_append_of_breakAt? h
  have := length_le_of_breakAt?_append a _ (ht ▸ h)
  have := List.length_pos_iff.2 hm
  simp only [List.length_append] at *
  omega

theorem trimStart_append_cons (s : Text) {d : Char} (h : isBlank d = false) (rest : Text) :
    trimStart (s ++ d :: rest) = trimStart (s ++ [d]) ++ rest := by
  induction s with
  | nil => simp [trimStart, h]
  | cons c s ih =>
    simp only [trimStart, List.cons_append, List.dropWhile_cons] at ih ⊢
    split
    · exact ih
    · simp

theorem trimStart_append_ne_nil (s : Text) {d : Char} (h : isBlank d = false) :
    trimStart (s ++ [d]) ≠ [] := by
  induction s with
  | nil => simp [trimStart, h]
  | cons c s ih =>
    rw [List.cons_append, trimStart, List.dropWhile_cons]
    split
    · exact ih
    · simp

/-- The first character that is not blank does not depend on what follows one. -/
theorem trimStart_eq_cons_of_append {s : Text} {d : Char} (h : isBlank d = false)
    {rest other t : Text} {c : Char} (ht : trimStart (s ++ d :: other) = c :: t) :
    ∃ u, trimStart (s ++ d :: rest) = c :: u := by
  obtain ⟨first, u, hfirst⟩ := List.exists_cons_of_ne_nil (trimStart_append_ne_nil s h)
  rw [trimStart_append_cons s h, hfirst, List.cons_append] at ht ⊢
  obtain ⟨rfl, -⟩ := List.cons.inj ht
  exact ⟨_, rfl⟩

/-- Blanks before a character that is none are leading blanks. -/
theorem leading_blanks {blanks : Text} (h : blanks.all isBlank = true) {c : Char}
    (hc : isBlank c = false) (t : Text) :
    leading (blanks ++ c :: t) = blanks ∧ trimStart (blanks ++ c :: t) = c :: t := by
  have hall : ∀ d ∈ blanks, isBlank d = true := List.all_eq_true.1 h
  constructor
  · rw [leading, List.takeWhile_append_of_pos hall, List.takeWhile_cons_of_neg (by simp [hc]),
      List.append_nil]
  · rw [trimStart, List.dropWhile_append_of_pos hall, List.dropWhile_cons_of_neg (by simp [hc])]

theorem leading_append_cons (t : Text) {d : Char} (h : isBlank d = false) (rest : Text) :
    leading (leading t ++ d :: rest) = leading t ∧ trimStart (leading t ++ d :: rest) = d :: rest :=
  leading_blanks List.all_takeWhile h rest

/-- Blanks after a character that is none are cut off. -/
theorem trimEnd_append_blanks (s : Text) {c : Char} (h : isBlank c = false) {blanks : Text}
    (hb : blanks.all isBlank = true) : trimEnd (s ++ c :: blanks) = s ++ [c] := by
  have hall : ∀ d ∈ blanks.reverse, isBlank d = true := by
    intro d hd
    exact List.all_eq_true.1 hb d (List.mem_reverse.1 hd)
  rw [trimEnd, List.reverse_append, List.reverse_cons, List.append_assoc,
    List.dropWhile_append_of_pos hall]
  simp [h]

end Text

namespace Text

/-- The mark stands between these two parts of a text, and nowhere earlier. -/
structure FirstAt (mark t before after : Text) : Prop where
  eq : t = before ++ (mark ++ after)
  first : ∀ a b, t = a ++ (mark ++ b) → before.length ≤ a.length

/-- The search finds the first occurrence. -/
theorem breakAt?_eq_some_iff {mark t before after : Text} :
    breakAt? mark t = some (before, after) ↔ FirstAt mark t before after := by
  constructor
  · intro h
    refine ⟨eq_append_of_breakAt? h, ?_⟩
    intro a b hab
    exact length_le_of_breakAt?_append a b (hab ▸ h)
  · intro h
    cases hb : breakAt? mark t with
    | none => exact absurd h.eq (breakAt?_eq_none_iff.1 hb before after)
    | some cut =>
      have heq := eq_append_of_breakAt? hb
      have hle := length_le_of_breakAt?_append before after (h.eq ▸ hb)
      have hge := h.first _ _ heq
      obtain ⟨hfront, hrest⟩ := List.append_inj (h.eq.symm.trans heq) (Nat.le_antisymm hge hle)
      rw [hfront, List.append_cancel_left hrest]

/-- The mark stands across the place where one text ends and the next one starts. -/
def Straddles (mark front back : Text) : Prop :=
  ∃ u v, u ≠ [] ∧ v ≠ [] ∧ mark = u ++ v ∧ u <:+ front ∧ v <+: back

theorem straddles_iff {front back : Text} : Straddles mark front back ↔
    ∃ k < mark.length, 0 < k ∧ mark.take k <:+ front ∧ mark.drop k <+: back := by
  constructor
  · rintro ⟨u, v, hu, hv, rfl, hfront, hback⟩
    have hpos := List.length_pos_iff.2 hu
    have hpos' := List.length_pos_iff.2 hv
    exact ⟨u.length, by simpa using hpos', hpos, by simpa using hfront, by simpa using hback⟩
  · rintro ⟨k, hlt, hpos, hfront, hback⟩
    refine ⟨mark.take k, mark.drop k, ?_, ?_, (List.take_append_drop k mark).symm, hfront, hback⟩
    · rw [ne_eq, List.take_eq_nil_iff, not_or]
      exact ⟨by omega, List.ne_nil_of_length_pos (by omega)⟩
    · rw [ne_eq, List.drop_eq_nil_iff]
      omega

instance (mark front back : Text) : Decidable (Straddles mark front back) :=
  decidable_of_iff _ straddles_iff.symm

theorem Straddles.of_suffix {mark s front back : Text} (h : Straddles mark s back)
    (hs : s <:+ front) : Straddles mark front back := by
  obtain ⟨u, v, hu, hv, hmark, hfront, hback⟩ := h
  exact ⟨u, v, hu, hv, hmark, hfront.trans hs, hback⟩

/-- Where two texts meet, a mark that does not stand across occurs in one of them. -/
theorem occurs_append {s a b : Text} (apart : ¬ Straddles mark t s)
    (h : t ++ s = a ++ (mark ++ b)) :
    (∃ c, t = a ++ (mark ++ c)) ∨ ∃ c, a = t ++ c ∧ s = c ++ (mark ++ b) := by
  rcases List.append_eq_append_iff.1 h with ⟨c, ha, hs⟩ | ⟨c, ht, hb⟩
  · exact .inr ⟨c, ha, hs⟩
  rcases List.append_eq_append_iff.1 hb with ⟨d, hc, -⟩ | ⟨d, hmark, hs⟩
  · exact .inl ⟨d, by rw [ht, hc]⟩
  by_cases hc : c = []
  · subst hc
    exact .inr ⟨[], by simpa using ht.symm, by simpa using hb.symm⟩
  by_cases hd : d = []
  · subst hd
    exact .inl ⟨[], by simpa [hmark] using ht⟩
  · exact absurd ⟨c, d, hc, hd, hmark, ⟨a, ht.symm⟩, ⟨b, hs.symm⟩⟩ apart

/-- The search goes on in the second text if it finds nothing in the first. -/
theorem breakAt?_append_of_not_straddles {s : Text} (apart : ¬ Straddles mark t s)
    (none : breakAt? mark t = none) :
    breakAt? mark (t ++ s) = (breakAt? mark s).map fun (before, after) => (t ++ before, after) := by
  rw [breakAt?_eq_none_iff] at none
  cases hs : breakAt? mark s with
  | none =>
    rw [breakAt?_eq_none_iff] at hs
    rw [Option.map_none, breakAt?_eq_none_iff]
    intro a b hab
    rcases occurs_append apart hab with ⟨c, ht⟩ | ⟨c, -, hc⟩
    · exact none a c ht
    · exact hs c b hc
  | some cut =>
    have hfirst := breakAt?_eq_some_iff.1 hs
    rw [Option.map_some, breakAt?_eq_some_iff]
    refine ⟨by rw [hfirst.eq, List.append_assoc], fun a b hab => ?_⟩
    rcases occurs_append apart hab with ⟨c, ht⟩ | ⟨c, rfl, hc⟩
    · exact absurd ht (none a c)
    · have := hfirst.first c b hc
      simp only [List.length_append]
      omega

/-- No mark stands across a character that it does not hold. -/
theorem not_straddles_of_notMem {s : Text} (apart : ∀ c, t.getLast? = some c → c ∉ mark) :
    ¬ Straddles mark t s := by
  rintro ⟨u, v, hu, -, rfl, ⟨w, rfl⟩, -⟩
  obtain ⟨u, last, rfl⟩ := (List.eq_nil_or_concat u).resolve_left hu
  exact apart last (by simp) (by simp)

theorem breakAt?_append {s : Text} (apart : ∀ c, t.getLast? = some c → c ∉ mark)
    (none : breakAt? mark t = none) :
    breakAt? mark (t ++ s) = (breakAt? mark s).map fun (before, after) => (t ++ before, after) :=
  breakAt?_append_of_not_straddles (not_straddles_of_notMem apart) none

/-- A text that a mark ends when it follows: no mark starts earlier. -/
def EndsAt (mark t : Text) : Prop :=
  FirstAt mark (t ++ mark) t []

theorem endsAt_iff {mark t : Text} : EndsAt mark t ↔ breakAt? mark (t ++ mark) = some (t, []) :=
  breakAt?_eq_some_iff.symm

instance (mark t : Text) : Decidable (EndsAt mark t) :=
  decidable_of_iff _ endsAt_iff.symm

/-- Whatever comes after it. -/
theorem EndsAt.breakAt? {mark t : Text} (h : EndsAt mark t) (rest : Text) :
    breakAt? mark (t ++ (mark ++ rest)) = some (t, rest) :=
  breakAt?_append_other (endsAt_iff.1 h) rest

end Text
end Stencil
