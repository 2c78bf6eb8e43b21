import Mathlib.Data.Finset.Dedup
import Mathlib.Data.Finset.Order
import Stencil.Proofs.Value.Wraps

/-!
# Finite views

A value is finite if whoever goes down into it comes to an end, through items, entries and what
pending values yield. A finite value has only so many layers, and no part of it is wider than that.
-/

namespace Stencil

/-- What holds of each member from some bound on, holds of all of them from some bound on. -/
theorem exists_common_bound {ι : Type*} {P : Nat → ι → Prop} {is : List ι}
    (mono : ∀ {n m i}, n ≤ m → P n i → P m i) (h : ∀ i ∈ is, ∃ n, P n i) :
    ∃ n, ∀ i ∈ is, P n i := by
  choose! bound hbound using h
  obtain ⟨n, hn⟩ := (is.map bound).toFinset.exists_le
  refine ⟨n, fun i hi => mono (hn (bound i) ?_) (hbound i hi)⟩
  exact List.mem_toFinset.2 (List.mem_map_of_mem hi)

namespace Value

/-- What is directly inside a value: its items, its entries, or what it yields. -/
def parts (host : Host) : Value → List Value
  | .list items => items
  | .map entries => entries.map Prod.snd
  | .pending id =>
    match (host.pending id).result with
    | .ok v => [v]
    | .error _ => []
  | .null | .bool _ | .number _ | .string _ | .lambda _ => []

/-- There is no endless way down into the value. -/
def IsFinite (host : Host) (v : Value) : Prop :=
  Acc (fun part whole => part ∈ parts host whole) v

/-- The value is data in at most so many layers, each part of which has no more parts than that, and
its pending values are such. -/
inductive Shallow (host : Host) (ids : PendingId → Prop) : Nat → Value → Prop
  | intro {n : Nat} {v : Value} (data : ∀ called, v ≠ .lambda called)
    (own : ∀ id, v = .pending id → ids id) (narrow : (v.parts host).length ≤ n)
    (parts : ∀ part ∈ v.parts host, Shallow host ids n part) : Shallow host ids (n + 1) v

variable {host : Host} {ids : PendingId → Prop} {n m : Nat} {v w : Value}

theorem mem_parts_pending {id : PendingId} :
    w ∈ (Value.pending id).parts host ↔ (host.pending id).result = .ok w := by
  rw [parts]
  split
  · rename_i v hv
    rw [hv, List.mem_singleton, Except.ok.injEq]
    exact eq_comm
  · rename_i error he
    simp [he]

theorem isFinite_iff : IsFinite host v ↔ ∀ part ∈ v.parts host, IsFinite host part :=
  ⟨fun h _ hp => Acc.inv h hp, fun h => Acc.intro v h⟩

@[simp] theorem isFinite_null : IsFinite host .null := isFinite_iff.2 nofun

@[simp] theorem isFinite_bool (b : Bool) : IsFinite host (.bool b) := isFinite_iff.2 nofun

@[simp] theorem isFinite_number (number : Number) : IsFinite host (.number number) :=
  isFinite_iff.2 nofun

@[simp] theorem isFinite_string (text : Text) : IsFinite host (.string text) := isFinite_iff.2 nofun

@[simp] theorem isFinite_lambda (called : Lambda) : IsFinite host (.lambda called) :=
  isFinite_iff.2 nofun

@[simp] theorem isFinite_list {items : List Value} :
    IsFinite host (.list items) ↔ ∀ v ∈ items, IsFinite host v := isFinite_iff

@[simp] theorem isFinite_map {entries : List (Text × Value)} :
    IsFinite host (.map entries) ↔ ∀ entry ∈ entries, IsFinite host entry.2 := by
  rw [isFinite_iff, parts, List.forall_mem_map]

@[simp] theorem isFinite_pending {id : PendingId} :
    IsFinite host (.pending id) ↔ ∀ v, (host.pending id).result = .ok v → IsFinite host v := by
  simp [isFinite_iff (v := .pending id), mem_parts_pending]

theorem mem_parts_of_get? {key : Text} (h : v.get? key = some w) : w ∈ v.parts host := by
  cases v with
  | map entries =>
    obtain ⟨front, back, rfl, -⟩ := List.lookup_eq_some_iff.1 h
    simp [parts]
  | _ => cases h

/-- Whatever can be come to from a part can be come to from the whole. -/
theorem reaches_of_mem_parts (hp : v ∈ w.parts host) {other : Value} (h : Reaches host v other) :
    Reaches host w other := by
  cases w with
  | list items => exact .item hp h
  | map entries =>
    obtain ⟨entry, he, rfl⟩ := List.mem_map.1 hp
    exact .entry he h
  | pending id => exact .yielded (mem_parts_pending.1 hp) h
  | _ => cases hp

theorem Shallow.mono (h : Shallow host ids n v) (hle : n ≤ m) : Shallow host ids m v := by
  induction h generalizing m with
  | @intro n v data own narrow _ ih =>
    obtain ⟨m, rfl⟩ : ∃ k, m = k + 1 := ⟨m - 1, by omega⟩
    exact .intro data own (by omega) fun part hp => ih part hp (by omega)

/-- A part has one layer less, but nothing depends on that where it is only looked up. -/
theorem Shallow.of_mem_parts (h : Shallow host ids n v) (hp : w ∈ v.parts host) :
    Shallow host ids n w := by
  cases h with
  | intro _ _ _ parts => exact (parts w hp).mono (Nat.le_succ _)

/-- A finite value of data has only so many layers. -/
theorem IsFinite.exists_shallow (h : IsFinite host v) (free : LambdaFree host v)
    (own : ∀ id, Reaches host v (.pending id) → ids id) : ∃ n, Shallow host ids n v := by
  induction h with
  | intro v _ ih =>
    have hparts : ∀ part ∈ v.parts host, ∃ n, Shallow host ids n part := fun part hp =>
      ih part hp (fun called hr => free called (reaches_of_mem_parts hp hr))
        fun id hr => own id (reaches_of_mem_parts hp hr)
    obtain ⟨n, hn⟩ := exists_common_bound (fun hle h => h.mono hle) hparts
    have hle : n ≤ max n (v.parts host).length := le_max_left ..
    refine ⟨_, .intro ?_ ?_ (le_max_right n _) fun part hp => (hn part hp).mono hle⟩
    · rintro called rfl
      exact free called (.refl _)
    · rintro id rfl
      exact own id (.refl _)

end Value
end Stencil
