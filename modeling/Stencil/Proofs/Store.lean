import Stencil.Proofs.Cache
import Stencil.Store

/-!
# Steps of the store

What one part of a run may do to the store that all share: it releases nothing, it begins no more
than it is known to begin, it keeps the cache sound, and whoever else waits for a value that is not
ready keeps its seat.
-/

namespace Stencil
namespace Seats

/-- The numbers of the seats, taken or given up, are the first so many, each once. -/
structure Regular (seats : Seats) : Prop where
  nodup : seats.free.Nodup
  not_mem_taken : ∀ n ∈ seats.free, n ∉ seats.taken
  mem_or_mem_iff : ∀ n, n ∈ seats.taken ∨ n ∈ seats.free ↔ n < seats.taken.size + seats.free.length

theorem regular_empty : empty.Regular := by
  refine ⟨?_, ?_, ?_⟩ <;> simp [empty]

namespace Regular

variable {seats : Seats}

/-- The next to come gets a seat that nobody has. -/
theorem next_not_mem_taken (h : seats.Regular) : seats.next ∉ seats.taken := by
  simp only [next]
  split
  · rename_i number rest hf
    exact h.not_mem_taken number (by simp [hf])
  · rename_i hf
    have hn := h.mem_or_mem_iff seats.taken.size
    simp only [hf, List.not_mem_nil, or_false, List.length_nil, Nat.add_zero, Nat.lt_irrefl,
      iff_false] at hn
    exact hn

theorem take (h : seats.Regular) (place : Place) : (seats.take place).Regular := by
  have hn := h.next_not_mem_taken
  have hsize : (seats.take place).taken.size = seats.taken.size + 1 := by
    simp [Seats.take, Std.TreeMap.size_insert, hn]
  have hmem : ∀ n, n ∈ (seats.take place).taken ↔ n = seats.next ∨ n ∈ seats.taken := by
    intro n
    rw [Seats.take, Std.TreeMap.mem_insert, Nat.compare_eq_eq, eq_comm]
  have hfree : (seats.take place).free = seats.free.tail := rfl
  cases hf : seats.free with
  | nil =>
    have hnext : seats.next = seats.taken.size := by simp [next, hf]
    have hcover := h.mem_or_mem_iff
    simp only [hf, List.not_mem_nil, or_false, List.length_nil, Nat.add_zero] at hcover
    refine ⟨by simp [hfree, hf], by simp [hfree, hf], fun n => ?_⟩
    simp only [hmem, hsize, hfree, hf, hnext, hcover, List.tail_nil, List.not_mem_nil, or_false,
      List.length_nil]
    omega
  | cons m free =>
    have hnext : seats.next = m := by simp [next, hf]
    have hcover := h.mem_or_mem_iff
    obtain ⟨hm, hnodup⟩ := List.nodup_cons.1 (hf ▸ h.nodup)
    simp only [hf, List.mem_cons, List.length_cons] at hcover
    refine ⟨by simpa [hfree, hf] using hnodup, fun n hn => ?_, fun n => ?_⟩
    · rw [hfree, hf] at hn
      rw [hmem, hnext, not_or]
      exact ⟨fun e => hm (e ▸ hn), h.not_mem_taken n (by simp [hf, show n ∈ free from hn])⟩
    · rw [hmem, hsize, hfree, hf, hnext, Nat.add_right_comm, Nat.add_assoc, List.tail_cons,
        ← hcover n, or_assoc, or_left_comm]

theorem leave (h : seats.Regular) (number : Nat) : (seats.leave number).Regular := by
  by_cases hm : number ∈ seats.taken
  · have hleave : seats.leave number = ⟨seats.taken.erase number, number :: seats.free⟩ := by
      simp [Seats.leave, hm]
    have hmem : ∀ n, n ∈ seats.taken.erase number ↔ n ≠ number ∧ n ∈ seats.taken := by
      intro n
      rw [Std.TreeMap.mem_erase, ne_eq, Nat.compare_eq_eq, eq_comm]
    have hpos : 0 < seats.taken.size := by
      have hempty : seats.taken.isEmpty = false := Std.TreeMap.isEmpty_eq_false_of_contains hm
      simpa [Std.TreeMap.isEmpty_eq_size_eq_zero, Nat.pos_iff_ne_zero] using hempty
    have hsize : (seats.taken.erase number).size = seats.taken.size - 1 := by
      simp [Std.TreeMap.size_erase, hm]
    rw [hleave]
    refine ⟨List.nodup_cons.2 ⟨fun hf => h.not_mem_taken number hf hm, h.nodup⟩, ?_, fun n => ?_⟩
    · intro n hn
      rcases List.mem_cons.1 hn with rfl | hn
      · simp [hmem]
      · exact fun hn' => h.not_mem_taken n hn ((hmem n).1 hn').2
    · have hcover := h.mem_or_mem_iff n
      simp only [hmem, hsize, List.mem_cons, List.length_cons]
      rw [show seats.taken.size - 1 + (seats.free.length + 1) =
        seats.taken.size + seats.free.length by omega, ← hcover]
      by_cases hn : n = number
      · subst n
        simp [hm]
      · simp [hn]
  · simpa [Seats.leave, hm] using h

end Regular
end Seats

namespace Store

variable {host : Host} {mine others : Place → Prop} {begins more : PendingId → Prop}
  {store before after : Store} {id : PendingId} {number : Nat} {place : Place}

/-- Whether a place has a seat of this number among those who wait for a value. -/
def Occupied (store : Store) (id : PendingId) (number : Nat) (place : Place) : Prop :=
  (store.seatsOf id).taken[number]? = some place

structure Sound (host : Host) (store : Store) : Prop where
  cache : store.cache.Sound
  yielded : ∀ id ∈ store.yielded, store.isReady host id = true
  seats : ∀ id, store.isReady host id = false → (store.seatsOf id).Regular

theorem sound_empty : empty.Sound host := by
  refine ⟨Cache.sound_empty, fun id h => ?_, fun id _ => ?_⟩
  · simp [empty] at h
  · simpa [empty, seatsOf] using Seats.regular_empty

/-- What a part of a run has done to the store: `mine` are the places of the part, and `begins` says
what it may begin. -/
structure Steps (host : Host) (mine : Place → Prop) (begins : PendingId → Prop)
    (before after : Store) : Prop where
  sound : after.Sound host
  isReady_eq : after.isReady host = before.isReady host
  begun_mono : ∀ id ∈ before.begun, id ∈ after.begun
  begun_of : ∀ id ∈ after.begun, id ∈ before.begun ∨ begins id
  occupied : ∀ id number place, before.isReady host id = false → ¬ mine place →
    before.Occupied id number place → after.Occupied id number place

namespace Steps

theorem refl (h : store.Sound host) : Steps host mine begins store store :=
  ⟨h, rfl, fun _ => id, fun _ => .inl, fun _ _ _ _ _ => id⟩

theorem trans {middle : Store} (h : Steps host mine begins before middle)
    (h' : Steps host mine begins middle after) : Steps host mine begins before after where
  sound := h'.sound
  isReady_eq := h'.isReady_eq.trans h.isReady_eq
  begun_mono id hb := h'.begun_mono id (h.begun_mono id hb)
  begun_of id hb := (h'.begun_of id hb).elim (h.begun_of id) .inr
  occupied id number place hr hm ho :=
    h'.occupied id number place (h.isReady_eq ▸ hr) hm (h.occupied id number place hr hm ho)

theorem mono (h : Steps host mine begins before after) (hm : ∀ place, mine place → others place)
    (hb : ∀ id, begins id → more id) : Steps host others more before after where
  sound := h.sound
  isReady_eq := h.isReady_eq
  begun_mono := h.begun_mono
  begun_of id hi := (h.begun_of id hi).imp_right (hb id)
  occupied id number place hr ho := h.occupied id number place hr fun hp => ho (hm place hp)

end Steps

theorem steps_begin (h : store.Sound host) (id : PendingId) :
    Steps host mine (· = id) store (store.begin id) where
  sound := ⟨h.cache, h.yielded, h.seats⟩
  isReady_eq := rfl
  begun_mono _ hb := mem_begun_begin.2 (.inr hb)
  begun_of _ hb := (mem_begun_begin.1 hb).symm.imp_right Eq.symm
  occupied _ _ _ _ _ ho := ho

theorem steps_yield (h : store.Sound host) (hr : store.isReady host id = true) :
    Steps host mine begins store (store.yield id) := by
  have hseats : ∀ other, store.isReady host other = false →
      (store.yield id).seatsOf other = store.seatsOf other := by
    intro other ho
    have hne : id ≠ other := by
      rintro rfl
      simp [hr] at ho
    simp [yield, seatsOf, Std.TreeMap.getD_erase, hne]
  refine ⟨⟨h.cache, fun other hy => ?_, fun other ho => ?_⟩, rfl, fun _ hb => hb, fun _ => .inl, ?_⟩
  · rcases Std.TreeSet.mem_insert.1 hy with he | hy
    · exact (Nat.compare_eq_eq.1 he) ▸ hr
    · exact h.yielded other hy
  · rw [hseats other ho]
    exact h.seats other ho
  · intro other number place ho _ hp
    rwa [Occupied, hseats other ho]

theorem steps_seat (h : store.Sound host) (hr : store.isReady host id = false) (place : Place) :
    Steps host mine begins store (store.seat id place).2 := by
  have hseats := fun other => seatsOf_setSeats store id other ((store.seatsOf id).take place)
  refine ⟨⟨h.cache, h.yielded, fun other ho => ?_⟩, rfl, fun _ hb => hb, fun _ => .inl, ?_⟩
  · simp only [seat, hseats]
    split
    · exact (h.seats id hr).take place
    · exact h.seats other ho
  · intro other number theirs _ _ hp
    simp only [Occupied, seat, hseats]
    split
    · -- the seat that is taken now was nobody's before
      subst other
      have htaken : (store.seatsOf id).taken[number]? = some theirs := hp
      have hne : (store.seatsOf id).next ≠ number := by
        rintro rfl
        apply (h.seats id hr).next_not_mem_taken
        simp [Std.TreeMap.mem_iff_isSome_getElem?, htaken]
      rw [Seats.getElem?_taken_take, if_neg hne, htaken]
    · exact hp

theorem occupied_seat (store : Store) (id : PendingId) (place : Place) :
    (store.seat id place).2.Occupied id (store.seat id place).1 place := by
  simp [Occupied, seat, seatsOf_setSeats, Seats.getElem?_taken_take]

/-- Like `Steps`, by a part that gives up seats and does nothing else. -/
structure Leaves (host : Host) (mine : Place → Prop) (before after : Store) : Prop
    extends Steps host mine (fun _ => False) before after where
  occupied_of : ∀ id number place, after.Occupied id number place → before.Occupied id number place

theorem Leaves.refl (h : store.Sound host) : Leaves host mine store store :=
  ⟨.refl h, fun _ _ _ ho => ho⟩

theorem Leaves.trans {middle : Store} (h : Leaves host mine before middle)
    (h' : Leaves host mine middle after) : Leaves host mine before after :=
  ⟨h.toSteps.trans h'.toSteps, fun id number place ho =>
    h.occupied_of id number place (h'.occupied_of id number place ho)⟩

/-- Whoever gives up a seat that is its own, if anybody's, takes nobody's seat away. -/
theorem leaves_unseat (h : store.Sound host) (hm : mine place)
    (hown : store.isReady host id = true ∨ ∀ other, store.Occupied id number other → other = place) :
    Leaves host mine store (store.unseat id number) := by
  have hseats := fun other => seatsOf_setSeats store id other ((store.seatsOf id).leave number)
  refine ⟨⟨⟨h.cache, h.yielded, fun other ho => ?_⟩, rfl, fun _ hb => hb, fun _ => .inl, ?_⟩, ?_⟩
  · simp only [unseat, hseats]
    split
    · subst other
      exact (h.seats id ho).leave number
    · exact h.seats other ho
  · intro other seat theirs hr hn hp
    simp only [Occupied, unseat, hseats]
    split
    · subst other
      have hne : number ≠ seat := by
        rintro rfl
        rcases hown with hr' | hown
        · simp [hr] at hr'
        · exact hn (hown theirs hp ▸ hm)
      rw [Seats.getElem?_taken_leave, if_neg hne]
      exact hp
    · exact hp
  · intro other seat theirs hp
    simp only [Occupied, unseat, hseats] at hp
    split at hp
    · subst other
      rw [Seats.getElem?_taken_leave] at hp
      split at hp
      · cases hp
      · exact hp
    · exact hp

theorem steps_record (h : store.Sound host) (call : Call) :
    Steps host mine begins store (store.record call) :=
  ⟨⟨h.cache, h.yielded, h.seats⟩, rfl, fun _ hb => hb, fun _ => .inl, fun _ _ _ _ _ ho => ho⟩

theorem steps_fetch (h : store.Sound host) (source : Text) (tags : Tags) :
    Steps host mine begins store { store with cache := (store.cache.fetch source tags).2 } :=
  ⟨⟨h.cache.fetch source tags, h.yielded, h.seats⟩, rfl, fun _ hb => hb, fun _ => .inl,
    fun _ _ _ _ _ ho => ho⟩

end Store
end Stencil
