import Stencil.Proofs.Plan.Sheds
import Stencil.Value.Settle

/-!
# Wrapped values

A value in which some parts stand behind pending values that are there: the value itself, elements of
lists, entries of maps, each in as many layers as one likes. Settling unwraps: the plan that settles a
wrapped value sheds to the plan that settles the value, if it may go as much deeper.
-/

namespace Stencil
namespace Value

/-- What can be come to from a value, pending values on the way included. -/
inductive Reaches (host : Host) : Value → Value → Prop
  | refl (v : Value) : Reaches host v v
  | item {items : List Value} {v w : Value} (h : v ∈ items) (hw : Reaches host v w) :
    Reaches host (.list items) w
  | entry {entries : List (Text × Value)} {entry : Text × Value} {w : Value} (h : entry ∈ entries)
    (hw : Reaches host entry.2 w) : Reaches host (.map entries) w
  | yielded {id : PendingId} {v w : Value} (hr : (host.pending id).result = .ok v)
    (hw : Reaches host v w) : Reaches host (.pending id) w

/-- No lambda can be come to from a value. -/
def LambdaFree (host : Host) (v : Value) : Prop :=
  ∀ called, ¬ Reaches host v (.lambda called)

/-- A value in one more layer: in a pending value that is there, or with its parts as `R` has them. -/
inductive Layer (host : Host) (R : Value → Value → Prop) : Value → Value → Prop
  | same (v : Value) : Layer host R v v
  | pending {id : PendingId} {w v : Value} (hm : (host.pending id).manual = false)
    (hr : (host.pending id).result = .ok w) (h : R w v) : Layer host R (.pending id) v
  | list {items others : List Value} (h : List.Forall₂ R items others) :
    Layer host R (.list items) (.list others)
  | map {entries others : List (Text × Value)}
    (h : List.Forall₂ (fun entry other => entry.1 = other.1 ∧ R entry.2 other.2) entries others) :
    Layer host R (.map entries) (.map others)

/-- The first value is the second with parts of it wrapped, in at most so many layers one inside the
other, those of lists and maps counted too. -/
def Wraps (host : Host) : Nat → Value → Value → Prop
  | 0 => Eq
  | n + 1 => Layer host (Wraps host n)

variable {host : Host} {n m fuel more : Nat} {v w : Value}

@[simp] theorem lambdaFree_null : LambdaFree host .null := nofun

@[simp] theorem lambdaFree_bool (b : Bool) : LambdaFree host (.bool b) := nofun

@[simp] theorem lambdaFree_number (number : Number) : LambdaFree host (.number number) := nofun

@[simp] theorem lambdaFree_string (text : Text) : LambdaFree host (.string text) := nofun

@[simp] theorem lambdaFree_list {items : List Value} :
    LambdaFree host (.list items) ↔ ∀ v ∈ items, LambdaFree host v := by
  refine ⟨fun h v hv called hr => h called (.item hv hr), fun h called hr => ?_⟩
  cases hr with
  | item hv hr => exact h _ hv called hr

@[simp] theorem lambdaFree_map {entries : List (Text × Value)} :
    LambdaFree host (.map entries) ↔ ∀ entry ∈ entries, LambdaFree host entry.2 := by
  refine ⟨fun h entry he called hr => h called (.entry he hr), fun h called hr => ?_⟩
  cases hr with
  | entry he hr => exact h _ he called hr

@[simp] theorem lambdaFree_pending {id : PendingId} :
    LambdaFree host (.pending id) ↔
      ∀ v, (host.pending id).result = .ok v → LambdaFree host v := by
  refine ⟨fun h v hv called hr => h called (.yielded hv hr), fun h called hr => ?_⟩
  cases hr with
  | yielded hv hr => exact h _ hv called hr

namespace LambdaFree

theorem item {items : List Value} (h : LambdaFree host (.list items)) (hv : v ∈ items) :
    LambdaFree host v :=
  lambdaFree_list.1 h v hv

theorem entry {entries : List (Text × Value)} (h : LambdaFree host (.map entries))
    {entry : Text × Value} (he : entry ∈ entries) : LambdaFree host entry.2 :=
  lambdaFree_map.1 h entry he

theorem yielded {id : PendingId} (h : LambdaFree host (.pending id))
    (hv : (host.pending id).result = .ok v) : LambdaFree host v :=
  lambdaFree_pending.1 h v hv

end LambdaFree

theorem Layer.imp {R S : Value → Value → Prop} (hRS : ∀ w v, R w v → S w v)
    (h : Layer host R w v) : Layer host S w v := by
  cases h with
  | same => exact .same _
  | pending hm hr h => exact .pending hm hr (hRS _ _ h)
  | list h => exact .list (h.imp hRS)
  | map h => exact .map (h.imp fun _ _ he => ⟨he.1, hRS _ _ he.2⟩)

theorem wraps_self (host : Host) (n : Nat) (v : Value) : Wraps host n v v := by
  cases n with
  | zero => exact rfl
  | succ n => exact .same v

theorem Wraps.succ (h : Wraps host n w v) : Wraps host (n + 1) w v := by
  induction n generalizing w v with
  | zero =>
    obtain rfl : w = v := h
    exact .same w
  | succ n ih => exact Layer.imp (fun _ _ => ih) h

/-- Two values have the same text. -/
def SameText (w v : Value) : Prop :=
  w.output = v.output

/-- The text of a list is that of its items. -/
theorem sameText_list {items others : List Value} (h : List.Forall₂ SameText items others) :
    SameText (.list items) (.list others) := by
  have houtputs : items.map output = others.map output := by
    rwa [← List.forall₂_eq_eq_eq, List.forall₂_map_left_iff, List.forall₂_map_right_iff]
  simp [SameText, output, houtputs]

/-- What a settled value wraps is settled, and has the same text. -/
theorem Wraps.settled (h : Wraps host n w v) (hw : w.isSettled = true) :
    v.isSettled = true ∧ SameText w v := by
  induction n generalizing w v with
  | zero =>
    obtain rfl : w = v := h
    exact ⟨hw, rfl⟩
  | succ n ih =>
    cases h with
    | same => exact ⟨hw, rfl⟩
    | pending => simp [isSettled] at hw
    | map => exact ⟨rfl, by simp [SameText, output]⟩
    | @list items others h =>
      simp only [isSettled, allSettled_eq_all, List.all_eq_true] at hw ⊢
      have hall : List.Forall₂ (fun item other => other.isSettled = true ∧ SameText item other)
          items others := by
        refine List.forall₂_iff_zip.2 ⟨h.length_eq, fun hm => ?_⟩
        exact ih (List.forall₂_zip h hm) (hw _ (List.of_mem_zip hm).1)
      refine ⟨fun other ho => ?_, sameText_list (hall.imp fun _ _ he => he.2)⟩
      obtain ⟨item, -, hs, -⟩ := exists_of_mem_of_forall₂ hall.flip ho
      exact hs

/-- The first value wraps the second, and no lambda can be come to. -/
structure Covers (host : Host) (n : Nat) (w v : Value) : Prop where
  wraps : Wraps host n w v
  free : LambdaFree host v

theorem Covers.succ (h : Covers host n w v) : Covers host (n + 1) w v :=
  ⟨h.wraps.succ, h.free⟩

/-- The first value covers the second, and neither is pending. -/
inductive Bares (host : Host) : Nat → Value → Value → Prop
  | same {n : Nat} {v : Value} (hk : v.kind ≠ .pending) (free : LambdaFree host v) : Bares host n v v
  | list {n : Nat} {items others : List Value} (h : List.Forall₂ (Covers host n) items others) :
    Bares host (n + 1) (.list items) (.list others)
  | map {n : Nat} {entries others : List (Text × Value)}
    (h : List.Forall₂ (fun entry other => entry.1 = other.1 ∧ Covers host n entry.2 other.2)
      entries others) : Bares host (n + 1) (.map entries) (.map others)

theorem Bares.succ (h : Bares host n w v) : Bares host (n + 1) w v := by
  cases h with
  | same hk free => exact .same hk free
  | list h => exact .list (h.imp fun _ _ => Covers.succ)
  | map h => exact .map (h.imp fun _ _ he => ⟨he.1, he.2.succ⟩)

/-- A longer way to a value that is the same. -/
theorem sheds_settle_same (n : Nat) (free : LambdaFree host v) (h : fuel ≤ more) :
    Plan.Sheds host (Bares host n) (v.settle more) (v.settle fuel) := by
  induction fuel generalizing more v with
  | zero =>
    by_cases hk : v.kind = .pending
    · cases v with
      | pending id => exact .exhausted _
      | _ => cases hk
    · rw [settle_of_kind_ne hk, settle_of_kind_ne hk]
      exact .done (.same hk free)
  | succ fuel ih =>
    obtain ⟨more, rfl⟩ : ∃ k, more = k + 1 := ⟨more - 1, by omega⟩
    by_cases hk : v.kind = .pending
    · cases v with
      | pending id => exact .await id fun v hv => ih (free.yielded hv) (by omega)
      | _ => cases hk
    · rw [settle_of_kind_ne hk, settle_of_kind_ne hk]
      exact .done (.same hk free)

/-- The layers around a value are shed one by one. -/
theorem sheds_settle (h : Covers host n w v) (hle : fuel + n ≤ more) :
    Plan.Sheds host (Bares host n) (w.settle more) (v.settle fuel) := by
  induction n generalizing more w with
  | zero =>
    obtain rfl : w = v := h.wraps
    exact sheds_settle_same 0 h.free hle
  | succ n ih =>
    obtain ⟨hwraps, free⟩ := h
    cases hwraps with
    | same => exact sheds_settle_same _ free (by omega)
    | pending hm hr hw =>
      obtain ⟨more, rfl⟩ : ∃ k, more = k + 1 := ⟨more - 1, by omega⟩
      have hshed := ih ⟨hw, free⟩ (by omega : fuel + n ≤ more)
      exact .shed hm hr (hshed.imp fun _ _ => Bares.succ)
    | list h =>
      rw [settle_of_kind_ne (by simp [kind]), settle_of_kind_ne (by simp [kind])]
      refine .done (.list (List.forall₂_iff_zip.2 ⟨h.length_eq, fun hm => ?_⟩))
      exact ⟨List.forall₂_zip h hm, free.item (List.of_mem_zip hm).2⟩
    | map h =>
      rw [settle_of_kind_ne (by simp [kind]), settle_of_kind_ne (by simp [kind])]
      refine .done (.map (List.forall₂_iff_zip.2 ⟨h.length_eq, fun hm => ?_⟩))
      obtain ⟨hkey, hw⟩ := List.forall₂_zip h hm
      exact ⟨hkey, hw, free.entry (List.of_mem_zip hm).2⟩

/-- How a settled value is settled in depth. -/
def deepen (fuel : Nat) : Value → Plan Value
  | .list items =>
    if items.all isSettled then .done (.list items)
    else (Plan.each items (settleDeep fuel)).bind fun items => .done (.list items)
  | v => .done v

theorem settleDeep_succ (fuel : Nat) (v : Value) :
    v.settleDeep (fuel + 1) = (v.settle (fuel + 1)).bind (deepen fuel) := by
  simp only [settleDeep, Plan.bind_eq]
  rfl

theorem deepen_of_settled (hv : v.isSettled = true) (fuel : Nat) : deepen fuel v = .done v := by
  cases v with
  | list items =>
    have hall : items.all isSettled = true := by rwa [isSettled, allSettled_eq_all] at hv
    rw [deepen, if_pos hall]
  | _ => rfl

theorem kind_ne_of_isSettled (hv : v.isSettled = true) : v.kind ≠ .pending := by
  intro hk
  cases v with
  | pending => cases hv
  | _ => cases hk

/-- A settled value is settled at once. -/
theorem settleDeep_of_settled (hv : v.isSettled = true) (fuel : Nat) :
    v.settleDeep (fuel + 1) = .done v := by
  rw [settleDeep_succ, settle_of_kind_ne (kind_ne_of_isSettled hv), Plan.pure_bind,
    deepen_of_settled hv]

/-- Where all that is covered is settled, only the layers are awaited. -/
theorem sheds_deepen_done {items others : List Value} (h : List.Forall₂ (Covers host n) items others)
    (hothers : ∀ other ∈ others, other.isSettled = true)
    (hitem : ∀ item other, Covers host n item other → other.isSettled = true →
      Plan.Sheds host SameText (item.settleDeep more) (.done other)) :
    Plan.Sheds host SameText (deepen more (.list items))
      (.done (.list others)) := by
  rw [deepen]
  split
  · rename_i hall
    refine .done (sameText_list (List.forall₂_iff_zip.2 ⟨h.length_eq, fun hm => ?_⟩))
    exact ((List.forall₂_zip h hm).wraps.settled (List.all_eq_true.1 hall _ (List.of_mem_zip hm).1)).2
  · have heach : Plan.Sheds host (List.Forall₂ SameText) (Plan.each items (settleDeep more))
        (.done others) := by
      refine .each_done (List.forall₂_iff_zip.2 ⟨h.length_eq, fun hm => ?_⟩)
      exact hitem _ _ (List.forall₂_zip h hm) (hothers _ (List.of_mem_zip hm).2)
    exact heach.map fun ds cs hs => sameText_list hs

/-- What covers a settled value sheds all its layers. -/
theorem sheds_settleDeep_done (h : Covers host n w v) (hv : v.isSettled = true) (hlt : n < more) :
    Plan.Sheds host SameText (w.settleDeep more) (.done v) := by
  induction n generalizing more w v with
  | zero =>
    obtain ⟨more, rfl⟩ : ∃ k, more = k + 1 := ⟨more - 1, by omega⟩
    obtain rfl : w = v := h.wraps
    rw [settleDeep_of_settled hv]
    exact .done rfl
  | succ n ih =>
    obtain ⟨more, rfl⟩ : ∃ k, more = k + 1 := ⟨more - 1, by omega⟩
    have hsettle := sheds_settle h (by omega : 0 + (n + 1) ≤ more + 1)
    rw [settle_of_kind_ne (kind_ne_of_isSettled hv)] at hsettle
    rw [settleDeep_succ, ← Plan.bind_done (.done v)]
    refine hsettle.of_done.bind ?_
    rintro b a ⟨hb, rfl⟩
    cases hb with
    | same =>
      rw [deepen_of_settled hv]
      exact .done rfl
    | map => exact .done (by simp [SameText, output])
    | @list _ items others hitems =>
      have hall : ∀ other ∈ others, other.isSettled = true := by
        rwa [isSettled, allSettled_eq_all, List.all_eq_true] at hv
      exact sheds_deepen_done hitems hall fun item other hc ho => ih hc ho (by omega)

/-- Settling in depth goes as deep as the text of a value needs. -/
theorem sheds_settleDeep (h : Covers host n w v) (hle : fuel + n ≤ more) :
    Plan.Sheds host SameText (w.settleDeep more) (v.settleDeep fuel) := by
  induction fuel generalizing more w v with
  | zero => exact .exhausted _
  | succ fuel ih =>
    obtain ⟨more, rfl⟩ : ∃ k, more = k + 1 := ⟨more - 1, by omega⟩
    -- where the items have to be settled, those that cover them have too
    have hunsettled : ∀ {items others}, List.Forall₂ (Covers host n) items others →
        ¬ others.all isSettled = true →
        Plan.Sheds host SameText (deepen more (.list items)) (deepen fuel (.list others)) := by
      intro items others hc hothers
      have hwraps : Wraps host (n + 1) (.list items) (.list others) := .list (hc.imp fun _ _ => (·.wraps))
      have hitems : ¬ items.all isSettled = true := by
        intro hitems
        have hs := (hwraps.settled (by rwa [isSettled, allSettled_eq_all])).1
        rw [isSettled, allSettled_eq_all] at hs
        exact hothers hs
      rw [deepen, deepen, if_neg hitems, if_neg hothers]
      exact (Plan.Sheds.each hc fun _ _ hc => ih hc (by omega)).map fun _ _ => sameText_list
    rw [settleDeep_succ, settleDeep_succ]
    refine (sheds_settle h hle).bind fun b a hb => ?_
    cases hb with
    | map => exact .done (by simp [SameText, output])
    | @list m items others hc =>
      by_cases hothers : others.all isSettled = true
      · have hs : isSettled (.list others) = true := by rwa [isSettled, allSettled_eq_all]
        rw [deepen_of_settled hs]
        refine sheds_deepen_done hc (List.all_eq_true.1 hothers) fun item other hc ho => ?_
        exact sheds_settleDeep_done hc ho (by omega)
      · exact hunsettled (hc.imp fun _ _ => Covers.succ) hothers
    | same hk free =>
      by_cases hs : isSettled b = true
      · rw [deepen_of_settled hs, deepen_of_settled hs]
        exact .done rfl
      · cases b with
        | list items =>
          have hothers : ¬ items.all isSettled = true := by rwa [isSettled, allSettled_eq_all] at hs
          have hself : List.Forall₂ (Covers host n) items items :=
            List.forall₂_same.2 fun item hm => ⟨wraps_self host n item, free.item hm⟩
          exact hunsettled hself hothers
        | pending => cases hk rfl
        | _ => cases hs rfl

end Value
end Stencil
