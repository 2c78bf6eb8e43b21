/-!
# Text and byte offsets

Text is a list of characters. Positions reported about it count the bytes of its UTF-8 form, so each
operation here that takes or gives a position counts bytes; all others work character by character.
-/

namespace Stencil

abbrev Text := List Char

namespace Text

/-- The number of bytes of the UTF-8 form. -/
def size : Text → Nat
  | [] => 0
  | c :: t => c.utf8Size + size t

@[simp] theorem size_nil : size [] = 0 := rfl

@[simp] theorem size_cons (c : Char) (t : Text) : size (c :: t) = c.utf8Size + size t := rfl

@[simp] theorem size_append (s t : Text) : size (s ++ t) = size s + size t := by
  induction s with
  | nil => simp
  | cons c s ih => simp [ih, Nat.add_assoc]

theorem length_le_size (t : Text) : t.length ≤ size t := by
  induction t with
  | nil => simp
  | cons c t ih => have := c.utf8Size_pos; simp; omega

@[simp] theorem size_eq_zero_iff {t : Text} : size t = 0 ↔ t = [] := by
  cases t with
  | nil => simp
  | cons c t => have := c.utf8Size_pos; simp; omega

/-- The characters that end within the first `n` bytes. -/
def takeBytes : Nat → Text → Text
  | _, [] => []
  | n, c :: t => if c.utf8Size ≤ n then c :: takeBytes (n - c.utf8Size) t else []

/-- What follows the characters that end within the first `n` bytes. -/
def dropBytes : Nat → Text → Text
  | _, [] => []
  | n, c :: t => if c.utf8Size ≤ n then dropBytes (n - c.utf8Size) t else c :: t

theorem takeBytes_append_dropBytes (n : Nat) (t : Text) : takeBytes n t ++ dropBytes n t = t := by
  induction t generalizing n with
  | nil => rfl
  | cons c t ih => simp only [takeBytes, dropBytes]; split <;> simp [ih]

@[simp] theorem takeBytes_zero (t : Text) : takeBytes 0 t = [] := by
  cases t with
  | nil => rfl
  | cons c t => have := c.utf8Size_pos; simp [takeBytes]; omega

@[simp] theorem dropBytes_zero (t : Text) : dropBytes 0 t = t := by
  simpa using takeBytes_append_dropBytes 0 t

theorem takeBytes_size_add (s t : Text) (n : Nat) :
    takeBytes (size s + n) (s ++ t) = s ++ takeBytes n t := by
  induction s with
  | nil => simp
  | cons c s ih =>
    simp [takeBytes, ih, Nat.add_assoc]

theorem dropBytes_size_add (s t : Text) (n : Nat) :
    dropBytes (size s + n) (s ++ t) = dropBytes n t := by
  induction s with
  | nil => simp
  | cons c s ih =>
    simp [dropBytes, ih, Nat.add_assoc]

@[simp] theorem takeBytes_size_append (s t : Text) : takeBytes (size s) (s ++ t) = s := by
  simpa using takeBytes_size_add s t 0

@[simp] theorem dropBytes_size_append (s t : Text) : dropBytes (size s) (s ++ t) = t := by
  simpa using dropBytes_size_add s t 0

/-- The bytes from `start` up to `stop`. -/
def slice (t : Text) (start stop : Nat) : Text :=
  takeBytes (stop - start) (dropBytes start t)

theorem slice_append (a b c : Text) : slice (a ++ (b ++ c)) (size a) (size a + size b) = b := by
  simp [slice]

/-- What follows `mark` at the front of a text. -/
def after? : (mark t : Text) → Option Text
  | [], t => some t
  | _ :: _, [] => none
  | m :: mark, c :: t => if m = c then after? mark t else none

theorem after?_append (mark t : Text) : after? mark (mark ++ t) = some t := by
  induction mark with
  | nil => rfl
  | cons m mark ih => simp [after?, ih]

theorem eq_append_of_after? {mark t rest : Text} (h : after? mark t = some rest) :
    t = mark ++ rest := by
  fun_induction after? mark t with
  | case1 => simpa using h
  | case2 => cases h
  | case3 mark c t ih => rw [ih h, List.cons_append]
  | case4 => cases h

/-- Cuts at the first occurrence of `mark`: what stands before it and what follows it. -/
def breakAt? (mark : Text) : Text → Option (Text × Text)
  | [] => if mark.isEmpty then some ([], []) else none
  | c :: t =>
    match after? mark (c :: t) with
    | some rest => some ([], rest)
    | none => (breakAt? mark t).map fun (before, after) => (c :: before, after)

theorem eq_append_of_breakAt? {mark t before after : Text}
    (h : breakAt? mark t = some (before, after)) : t = before ++ (mark ++ after) := by
  induction t generalizing before after with
  | nil =>
    simp only [breakAt?] at h
    split at h <;> simp_all
  | cons c t ih =>
    simp only [breakAt?] at h
    split at h
    · rename_i r e
      simp only [Option.some.injEq, Prod.mk.injEq] at h
      obtain ⟨rfl, rfl⟩ := h
      simpa using eq_append_of_after? e
    · obtain ⟨⟨b, a⟩, hb, hab⟩ := Option.map_eq_some_iff.1 h
      simp only [Prod.mk.injEq] at hab
      obtain ⟨rfl, rfl⟩ := hab
      simpa using ih hb

theorem length_lt_of_breakAt? {mark t before after : Text} (hm : mark ≠ [])
    (h : breakAt? mark t = some (before, after)) : after.length < t.length := by
  have := eq_append_of_breakAt? h
  have := List.length_pos_iff.2 hm
  simp_all; omega

theorem breakAt?_append_self (mark t : Text) : breakAt? mark (mark ++ t) = some ([], t) := by
  cases h : mark ++ t with
  | nil => simp_all [breakAt?]
  | cons c u =>
    rw [breakAt?, ← h, after?_append]

/-- The cut is at the first occurrence. -/
theorem length_le_of_breakAt?_append {mark before after : Text} (a b : Text)
    (h : breakAt? mark (a ++ (mark ++ b)) = some (before, after)) : before.length ≤ a.length := by
  induction a generalizing before with
  | nil => simp_all [breakAt?_append_self]
  | cons c a ih =>
    rw [List.cons_append, breakAt?] at h
    split at h
    · simp_all
    · obtain ⟨⟨x, y⟩, hx, hxy⟩ := Option.map_eq_some_iff.1 h
      simp only [Prod.mk.injEq] at hxy
      obtain ⟨rfl, rfl⟩ := hxy
      simpa using ih hx

theorem breakAt?_ne_none (mark a b : Text) : breakAt? mark (a ++ (mark ++ b)) ≠ none := by
  induction a with
  | nil => simp [breakAt?_append_self]
  | cons c a ih =>
    rw [List.cons_append, breakAt?]
    split
    · simp
    · simpa using ih

theorem breakAt?_eq_none_iff {mark t : Text} :
    breakAt? mark t = none ↔ ∀ a b, t ≠ a ++ (mark ++ b) := by
  constructor
  · rintro h a b rfl
    exact breakAt?_ne_none mark a b h
  · intro h
    cases hb : breakAt? mark t with
    | none => rfl
    | some cut => exact absurd (eq_append_of_breakAt? hb) (h cut.1 cut.2)

/-- The byte offset of the last occurrence of a character. -/
def lastOffset? (c : Char) : Text → Option Nat
  | [] => none
  | d :: t =>
    match lastOffset? c t with
    | some offset => some (d.utf8Size + offset)
    | none => if d = c then some 0 else none

theorem lastOffset?_of_notMem {c : Char} {t : Text} (h : c ∉ t) : lastOffset? c t = none := by
  induction t with
  | nil => rfl
  | cons d t ih =>
    rw [List.mem_cons, not_or] at h
    simp [lastOffset?, ih h.2, Ne.symm h.1]

theorem lastOffset?_append_cons {c : Char} (s : Text) {t : Text} (h : c ∉ t) :
    lastOffset? c (s ++ c :: t) = some (size s) := by
  induction s with
  | nil => simp [lastOffset?, lastOffset?_of_notMem h]
  | cons d s ih => simp [lastOffset?, ih]

/-- The runs between the characters that satisfy `p`; always at least one run. -/
def splitWhere (p : Char → Bool) : Text → List Text
  | [] => [[]]
  | c :: t =>
    if p c then [] :: splitWhere p t
    else match splitWhere p t with
      | [] => [[c]]
      | run :: runs => (c :: run) :: runs

theorem splitWhere_ne_nil (p : Char → Bool) (t : Text) : splitWhere p t ≠ [] := by
  cases t with
  | nil => simp [splitWhere]
  | cons c t =>
    simp only [splitWhere]
    split
    · simp
    · split <;> simp

theorem splitWhere_append_cons {p : Char → Bool} (s : Text) {c : Char} (t : Text) (h : p c = true) :
    splitWhere p (s ++ c :: t) = splitWhere p s ++ splitWhere p t := by
  induction s with
  | nil => simp [splitWhere, h]
  | cons d s ih =>
    simp only [List.cons_append, splitWhere]
    split
    · simp [ih]
    · rw [ih]
      rcases hs : splitWhere p s with _ | ⟨run, runs⟩
      · exact absurd hs (splitWhere_ne_nil p s)
      · simp

/-- No run holds a character that was split at. -/
theorem eq_false_of_mem_splitWhere {p : Char → Bool} {t run : Text} (h : run ∈ splitWhere p t) :
    ∀ c ∈ run, p c = false := by
  induction t generalizing run with
  | nil => simp_all [splitWhere]
  | cons d t ih =>
    simp only [splitWhere] at h
    split at h
    · rcases List.mem_cons.1 h with rfl | h
      · simp
      · exact ih h
    · rename_i hd
      rcases hs : splitWhere p t with _ | ⟨first, runs⟩
      · exact absurd hs (splitWhere_ne_nil p t)
      · rw [hs] at h
        rcases List.mem_cons.1 h with rfl | h
        · intro c hc
          rcases List.mem_cons.1 hc with rfl | hc
          · simpa using hd
          · exact ih (hs ▸ List.mem_cons_self ..) c hc
        · exact ih (hs ▸ List.mem_cons_of_mem _ h)

/-- The pieces between occurrences of one character. -/
def splitAtChar (sep : Char) (t : Text) : List Text :=
  splitWhere (· == sep) t

theorem intercalate_splitAtChar (sep : Char) (t : Text) :
    [sep].intercalate (splitAtChar sep t) = t := by
  induction t with
  | nil => rfl
  | cons c t ih =>
    have hne := splitWhere_ne_nil (· == sep) t
    simp only [splitAtChar] at ih
    simp only [splitAtChar, splitWhere]
    split
    · rename_i h
      rcases hs : splitWhere (· == sep) t with _ | ⟨run, runs⟩
      · exact absurd hs hne
      · rw [hs] at ih
        simp [List.intercalate, List.intersperse, eq_of_beq h] at ih ⊢
        exact ih
    · rcases hs : splitWhere (· == sep) t with _ | ⟨run, runs⟩
      · exact absurd hs hne
      · rw [hs] at ih
        cases runs <;> simp_all [List.intercalate, List.intersperse]

end Text
end Stencil
