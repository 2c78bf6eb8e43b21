import Stencil.Proofs.Plan.Lawful
import Stencil.Proofs.Process.Recorded

/-!
# Recorded joins

A join is recorded if its members are. What one member does is told of places of its own, so the
deeds of each are found again among those of all.
-/

namespace Stencil

section
variable {told more : Journal} {place : Place} {count i : Nat}

theorem Journal.OfJoin.append (h : told.OfJoin count place) (h' : more.OfJoin count place) :
    (told ++ more).OfJoin count place := fun part deed hm =>
  (List.mem_append.1 hm).elim (h part deed) (h' part deed)

/-- What is told of other places does not count among the deeds of a place. -/
theorem Journal.under_append_of_not (h : ∀ part deed, (part, deed) ∈ more → ¬ place <:+ part) :
    (told ++ more).under place = told.under place := by
  rw [Journal.under_append, Journal.under_eq_nil h, List.append_nil]

theorem Journal.under_append_of_within (h : ∀ part deed, (part, deed) ∈ more → place <:+ part) :
    (told ++ more).under place = told.under place ++ more := by
  rw [Journal.under_append, Journal.under_eq_self h]

/-- The deeds of a join itself are none of its members'. -/
theorem Journal.under_joins (told : Journal) (place : Place) (count i : Nat) :
    (told ++ [(place, Deed.joins count)]).under (i :: place) = told.under (i :: place) := by
  refine Journal.under_append_of_not fun part deed hm hp => ?_
  cases List.mem_singleton.1 hm
  have hle : place.length + 1 ≤ place.length := hp.length_le
  omega

end

namespace Process

variable {β : Type} {host : Host} {count : Nat} {plans : Fin count → Plan β}
  {members : Fin count → Process β} {accounts : ∀ i, Account (members i)}
  (laws : ∀ i, Recorded host (plans i) (accounts i)) {place : Place} {store : Store}
  {told more : Journal}

include laws in
theorem leaveAll_cache (live : List (Member members)) (store : Store) :
    (leaveAll members live store).cache = store.cache := by
  induction live generalizing store with
  | nil => rfl
  | cons member live ih => exact (ih _).trans ((laws member.1).leave_cache member.2 store)

section Sweep
open Sweep

namespace Sweep

/-- What is told of a member by its entry, among the deeds of the whole join. -/
def Noted (place : Place) (told : Journal) (i : Fin count) : Entry members → Prop
  | .inl result => (plans i).Runs host (i :: place) (told.under (i :: place)) result
  | .inr ⟨j, state⟩ => j = i ∧ Stood (laws j).Stands (j :: place) state (told.under (j :: place))

variable {laws} {is : List (Fin count)} {entries : List (Entry members)}

theorem Noted.congr {i : Fin count} {entry : Entry members}
    (h : Noted laws place told i entry) {told' : Journal}
    (he : told'.under (i :: place) = told.under (i :: place)) : Noted laws place told' i entry := by
  match entry with
  | .inl result =>
    rw [Noted, he]
    exact h
  | .inr ⟨j, state⟩ =>
    obtain ⟨rfl, h⟩ := h
    exact ⟨rfl, he ▸ h⟩

/-- What is told of a member stays so, whatever the others do. -/
theorem noted_of_not_mem (h : List.Forall₂ (Noted laws place told) is entries) {i : Fin count}
    (hi : i ∉ is) (hm : ∀ part deed, (part, deed) ∈ more → ((i : Nat) :: place) <:+ part) :
    List.Forall₂ (Noted laws place (told ++ more)) is entries := by
  induction h with
  | nil => exact .nil
  | @cons j entry _ _ hj _ ih =>
    rw [List.mem_cons, not_or] at hi
    refine .cons (hj.congr (Journal.under_append_of_not fun part deed hd hp => ?_)) (ih hi.2)
    exact hi.1 (Fin.ext (eq_of_cons_suffix (hm part deed hd) hp))

theorem mem_of_noted (h : List.Forall₂ (Noted laws place told) is entries) {i : Fin count}
    {state : Option (members i).State} (hi : .inr ⟨i, state⟩ ∈ entries) : i ∈ is := by
  induction h with
  | nil => cases hi
  | cons hj _ ih =>
    rcases List.mem_cons.1 hi with rfl | hi
    · exact List.mem_cons.2 (.inl hj.1)
    · exact List.mem_cons_of_mem _ (ih hi)

variable (laws) in
include laws in
/-- A pass tells of the members under way. -/
theorem of_mem_pass {part : Place} {deed : Deed}
    (hm : (part, deed) ∈ Account.pass accounts place entries store) :
    ∃ (i : Fin count) (state : Option (members i).State),
      .inr ⟨i, state⟩ ∈ entries ∧ ((i : Nat) :: place) <:+ part := by
  induction entries generalizing store with
  | nil => cases hm
  | cons entry entries ih =>
    have hrest : ∀ {store}, (part, deed) ∈ Account.pass accounts place entries store →
        ∃ (i : Fin count) (state : Option (members i).State),
          .inr ⟨i, state⟩ ∈ entry :: entries ∧ ((i : Nat) :: place) <:+ part := fun hm => by
      obtain ⟨i, state, hi, hp⟩ := ih hm
      exact ⟨i, state, List.mem_cons_of_mem _ hi, hp⟩
    rcases entry with result | ⟨i, state⟩
    · exact hrest hm
    · rcases List.mem_append.1 hm with hm | hm
      · exact ⟨i, state, List.mem_cons_self .., (laws i).within hm⟩
      · split at hm
        · exact hrest hm
        · exact hrest hm
        · cases hm
        · cases hm

variable (laws) in
include laws in
theorem cache_pass (place : Place) (entries : List (Entry members)) (store : Store) :
    (pass place entries store).store.cache =
      store.cache.fetchAll (Account.pass accounts place entries store).compiled := by
  induction entries generalizing store with
  | nil => rfl
  | cons entry entries ih =>
    match entry with
    | .inl result => exact ih store
    | .inr ⟨i, state⟩ =>
      have hfirst := (laws i).cache_eq (i :: place) state store
      simp only [pass, Account.pass]
      rw [Journal.compiled_append, Cache.fetchAll_append, ← hfirst]
      generalize (members i).advance (i :: place) state store = turn
      obtain ⟨reached, news, after⟩ := turn
      cases reached with
      | ended outcome =>
        cases outcome with
        | ok result => exact ih after
        | error error => rfl
      | exhausted => rfl
      | waiting s => exact ih after

/-- A whole pass over members of different numbers. -/
theorem noted_pass (hd : is.Nodup) (hs : store.cache.Sound)
    (he : List.Forall₂ (Noted laws place told) is entries)
    (hn : (pass place entries store).halt = none) :
    List.Forall₂ (Noted laws place (told ++ Account.pass accounts place entries store)) is
      (pass place entries store).entries := by
  induction is generalizing entries store told with
  | nil =>
    cases he
    exact .nil
  | cons i is ih =>
    obtain ⟨hnot, hd'⟩ := List.nodup_cons.1 hd
    cases he with
    | @cons _ entry _ entries hi his =>
    -- what is told of the first member is not told of by the others
    have hfront : ∀ {told : Journal} {store : Store} {later : Entry members},
        List.Forall₂ (Noted laws place told) is entries → Noted laws place told i later →
        Noted laws place (told ++ Account.pass accounts place entries store) i later := by
      intro told store later his hl
      refine hl.congr (Journal.under_append_of_not fun part deed hm hp => ?_)
      obtain ⟨j, state, hj, hp'⟩ := of_mem_pass laws hm
      obtain rfl : j = i := Fin.ext (eq_of_cons_suffix hp' hp)
      exact hnot (mem_of_noted his hj)
    match entry with
    | .inl result => exact .cons (hfront his hi) (ih hd' hs his hn)
    | .inr ⟨j, state⟩ =>
      obtain ⟨rfl, hstate⟩ := hi
      have hr := (laws j).records (j :: place) state hs hstate
      have hwithin : ∀ part deed, (part, deed) ∈ (accounts j).tell (j :: place) state store →
          ((j : Nat) :: place) <:+ part := fun _ _ => (laws j).within
      have hcache := (laws j).cache_eq (j :: place) state store
      rw [← Journal.under_append_of_within hwithin] at hr
      have hafter := noted_of_not_mem his hnot hwithin
      simp only [pass, Account.pass] at hn ⊢
      rw [← List.append_assoc]
      generalize (members j).advance (j :: place) state store = turn at hr hcache hn
      generalize (accounts j).tell (j :: place) state store = first at hr hcache hafter
      obtain ⟨reached, news, after⟩ := turn
      have hsound : after.cache.Sound := by
        simp only at hcache
        exact hcache ▸ hs.fetchAll _
      cases reached with
      | ended outcome =>
        cases outcome with
        | ok result => exact .cons (hfront hafter hr) (ih hd' hsound hafter hn)
        | error error => cases hn
      | exhausted => cases hn
      | waiting s => exact .cons (hfront hafter ⟨rfl, hr⟩) (ih hd' hsound hafter hn)

theorem noted_hear (path : List Nat) (h : List.Forall₂ (Noted laws place told) is entries) :
    List.Forall₂ (Noted laws place told) is (hear path entries) := by
  match path with
  | [] => exact h
  | number :: rest =>
    rw [hear, List.forall₂_map_right_iff]
    refine h.imp fun i entry hi => ?_
    rcases entry with result | ⟨j, state⟩
    · exact hi
    · obtain ⟨rfl, hs⟩ := hi
      refine ⟨rfl, ?_⟩
      split
      · cases state with
        | none => exact hs
        | some s => exact (laws j).stands_hear rest hs
      · exact hs

theorem noted_fresh (laws : ∀ i, Recorded host (plans i) (accounts i)) (place : Place) :
    List.Forall₂ (Noted laws place []) (List.finRange count) (fresh members) := by
  rw [fresh, List.forall₂_map_right_iff, List.forall₂_same]
  exact fun i _ => ⟨rfl, rfl⟩

end Sweep

/-- Where a sweep stands with its entries. -/
def Recorded.StandsSweep (place : Place) (entries : List (Entry members)) (told : Journal) : Prop :=
  told.OfJoin count place ∧ List.Forall₂ (Noted laws place told) (List.finRange count) entries

variable {laws} in
/-- Every advance of a sweep is a pass over the entries. -/
theorem Recorded.records_sweep (hs : store.cache.Sound) {entries : List (Entry members)}
    (h : Recorded.StandsSweep laws place entries told) :
    Records host (.join count plans .done) (Recorded.StandsSweep laws) place
      (told ++ (place, .joins count) :: Account.pass accounts place entries store)
      ((Process.sweep members).advance place (some entries) store).reached := by
  obtain ⟨hjoin, hnoted⟩ := h
  have hnoted := hnoted.imp fun i _ (hi : Noted laws place told i _) =>
    hi.congr (Journal.under_joins told place count i)
  have hpass := noted_pass (List.nodup_finRange count) hs hnoted
  have hafter : (told ++ (place, Deed.joins count) ::
      Account.pass accounts place entries store).OfJoin count place := by
    refine hjoin.append fun part deed hm => ?_
    rcases List.mem_cons.1 hm with he | hm
    · cases he
      exact .inl ⟨rfl, rfl⟩
    · obtain ⟨i, -, -, hp⟩ := of_mem_pass laws hm
      exact .inr ⟨i, i.isLt, hp⟩
  rw [List.append_assoc, List.singleton_append] at hpass
  dsimp only [Process.sweep, Option.getD_some]
  generalize Account.pass accounts place entries store = swept at hpass hafter
  generalize pass place entries store = pass at hpass
  obtain ⟨later, halt, news, after⟩ := pass
  cases halt with
  | some halt => cases halt <;> trivial
  | none =>
    have hlater := hpass rfl
    cases hr : later.mapM Sum.getLeft? with
    | none => exact ⟨hafter, hlater⟩
    | some results =>
      -- every entry is a result
      have hknown := hlater.imp fun i entry (hi : Noted laws place _ i entry) =>
        show Known (fun i result => (plans i).Runs host (i :: place)
          ((told ++ (place, .joins count) :: swept).under (i :: place)) result) (fun _ _ => True)
          i entry by
        rcases entry with result | ⟨j, state⟩
        · exact hi
        · exact ⟨hi.1, fun _ _ => trivial⟩
      exact Plan.runs_join_done.2 ⟨hafter, mapM_of_known hknown hr⟩

/-- A small join is recorded if its members are. -/
def Recorded.sweep : Recorded host (.join count plans .done) (Account.sweep accounts) where
  Stands := Recorded.StandsSweep laws
  stands_hear path h := ⟨h.1, noted_hear path h.2⟩
  within hm := by
    rcases List.mem_cons.1 hm with he | hm
    · cases he
      exact List.suffix_rfl
    · obtain ⟨i, -, -, hp⟩ := of_mem_pass laws hm
      exact suffix_of_cons_suffix hp
  leave_cache _ store := leaveAll_cache laws _ store
  cache_eq place state store := by
    have hpass := cache_pass laws place (state.getD (fresh members)) store
    simp only [Process.sweep, Account.sweep]
    refine Eq.trans ?_ hpass
    split
    · rfl
    · exact leaveAll_cache laws _ _
    · split <;> rfl
  records {store told} place state hs ht := by
    cases state with
    | none =>
      obtain rfl : told = [] := ht
      have hfresh : Recorded.StandsSweep laws place (fresh members) [] :=
        ⟨fun _ _ hm => absurd hm List.not_mem_nil, noted_fresh laws place⟩
      exact Recorded.records_sweep hs hfresh
    | some entries => exact Recorded.records_sweep hs ht

end Sweep

section Queue
open Queue

namespace Queue

/-- What is told of a queue and its members, among the deeds of the join. -/
structure Keeps (turn : Option (Fin count)) (place : Place) (told : Journal)
    (queue : Queue members) : Prop where
  joined : told.OfJoin count place
  orderly : Orderly
    (fun i outcome => ∀ result, outcome = .ok result →
      (plans i).Runs host (i :: place) (told.under (i :: place)) result)
    (fun i s => (laws i).Stands (i :: place) s (told.under (i :: place)))
    (fun _ _ => True) turn queue
  unbegun : ∀ i ∈ queue.turns, queue.waiting.get? i = none → told.under ((i : Nat) :: place) = []

variable {laws} {queue rest : Queue members} {i : Fin count} {state : Option (members i).State}

theorem keeps_start (laws : ∀ i, Recorded host (plans i) (accounts i)) (place : Place) :
    Keeps laws none place [] (start members) :=
  ⟨fun _ _ hm => absurd hm List.not_mem_nil, orderly_start _ _ _, fun _ _ _ => rfl⟩

/-- The deeds of the join itself change nothing for its members. -/
theorem Keeps.joins (h : Keeps laws none place told queue) :
    Keeps laws none place (told ++ [(place, .joins count)]) queue where
  joined := h.joined.append fun part deed hm => by
    cases List.mem_singleton.1 hm
    exact .inl ⟨rfl, rfl⟩
  orderly := by
    simp only [Journal.under_joins]
    exact h.orderly
  unbegun i hi hn := (Journal.under_joins ..).trans (h.unbegun i hi hn)

/-- The member that is next leaves the queue for its turn. -/
theorem Keeps.of_next? (h : Keeps laws none place told queue)
    (hn : queue.next? = some (⟨i, state⟩, rest)) :
    Keeps laws (some i) place told rest ∧
      Stood (laws i).Stands (i :: place) state (told.under (i :: place)) := by
  obtain ⟨horderly, hstands, -⟩ := h.orderly.of_next? hn
  have hmem : ∀ j, j ∈ queue.turns ↔ j = i ∨ j ∈ rest.turns := fun j => mem_turns_of_next? hn
  refine ⟨⟨h.joined, horderly, fun j hj hnone => h.unbegun j ((hmem j).2 (.inr hj)) ?_⟩, ?_⟩
  · have hne : j ≠ i := by
      rintro rfl
      exact (horderly.away j rfl).2.1 hj
    rwa [get?_waiting_of_next? hn hne] at hnone
  · cases hs : state with
    | none => exact h.unbegun i ((hmem i).2 (.inl rfl)) ((get?_of_next? hn).trans hs)
    | some s => exact hstands s hs

/-- What the member does whose turn it is changes nothing for the others. -/
theorem Keeps.turn (h : Keeps laws (some i) place told rest)
    (hm : ∀ part deed, (part, deed) ∈ more → ((i : Nat) :: place) <:+ part) :
    Keeps laws (some i) place (told ++ more) rest := by
  obtain ⟨hmissing, hturn, hwaiting⟩ := h.orderly.away i rfl
  have hsame : ∀ j : Fin count, j ≠ i →
      (told ++ more).under ((j : Nat) :: place) = told.under ((j : Nat) :: place) := by
    refine fun j hne => Journal.under_append_of_not fun part deed hd hp => hne ?_
    exact Fin.ext (eq_of_cons_suffix hp (hm part deed hd))
  refine ⟨h.joined.append fun part deed hd => .inr ⟨i, i.isLt, hm part deed hd⟩,
    { h.orderly with came := fun j outcome ho => ?_, rests := fun j s hs => ?_ }, fun j hj hn => ?_⟩
  · have hne : j ≠ i := by
      rintro rfl
      simp [hmissing] at ho
    rw [hsame j hne]
    exact h.orderly.came j outcome ho
  · have hne : j ≠ i := by
      rintro rfl
      simp [hwaiting] at hs
    rw [hsame j hne]
    exact h.orderly.rests j s hs
  · rw [hsame j fun he => hturn (he ▸ hj)]
    exact h.unbegun j hj hn

theorem Keeps.putBack {s : (members i).State} (h : Keeps laws (some i) place told rest)
    (hs : (laws i).Stands (i :: place) s (told.under (i :: place))) (news : Bool) :
    Keeps laws none place told (rest.putBack ⟨i, s⟩ news) where
  joined := h.joined
  orderly := h.orderly.putBack hs fun _ => trivial
  unbegun j hj hn := by
    have hne : j ≠ i := by
      rintro rfl
      cases (get?_waiting_putBack rest ⟨j, s⟩ news).symm.trans hn
    refine h.unbegun j ?_ (get?_waiting_putBack_of_ne hne ▸ hn)
    rw [← Turns.mem_toList] at hj ⊢
    cases news with
    | false => exact hj
    | true => simpa [hne] using hj

theorem Keeps.put {outcome : Except Error β} {results : Results β}
    (h : Keeps laws (some i) place told rest)
    (hr : ∀ result, outcome = .ok result →
      (plans i).Runs host (i :: place) (told.under (i :: place)) result)
    (hp : rest.results.put i outcome = .ok results) :
    Keeps laws none place told { rest with results } :=
  ⟨h.joined, h.orderly.put hr hp, h.unbegun⟩

theorem Keeps.hear (h : Keeps laws none place told queue) (path : List Nat) :
    Keeps laws none place told (hear path queue) where
  joined := h.joined
  orderly := h.orderly.hear path fun i _ more hs => (laws i).stands_hear more hs
  unbegun i hi hn := by
    have hnone : queue.waiting.get? i = none := by
      cases hw : queue.waiting.get? i with
      | none => rfl
      | some s =>
        obtain ⟨later, hl, -⟩ := exists_get?_hear path hw
        rw [hn] at hl
        cases hl
    refine h.unbegun i ((of_mem_turns_hear hi).resolve_right ?_) hnone
    rintro ⟨s, hs⟩
    rw [hnone] at hs
    cases hs

/-- When no outcome is missing, the members have run to what is delivered. -/
theorem Keeps.runs (h : Keeps laws none place told queue) (hm : queue.results.missing = 0) :
    (Plan.join count plans .done).Runs host place told queue.results.delivered.toList := by
  have hall := h.orderly.outcomes_of_missing hm
  have hlength : queue.results.delivered.toList.length = count := by
    simpa [hall] using h.orderly.length_outcomes
  refine Plan.runs_join_done.2 ⟨h.joined, List.forall₂_iff_get.2 ⟨by simp [hlength], fun n hn hd => ?_⟩⟩
  have hi : n < count := by simpa using hn
  simpa using h.orderly.came ⟨n, hi⟩ _ (by simp [hall]) _ rfl

variable {news : Bool} {left patience missing : Nat}

variable (laws) in
include laws in
/-- A stretch tells of the members that have their turns in it. -/
theorem of_mem_stretch {part : Place} {deed : Deed}
    (hm : (part, deed) ∈ Account.stretch accounts place left patience queue store) :
    ∃ i : Fin count, ((i : Nat) :: place) <:+ part := by
  refine Account.stretch_induction accounts place (motive := fun _ _ _ _ _ told _ =>
    (part, deed) ∈ told → ∃ i : Fin count, ((i : Nat) :: place) <:+ part)
    ?spent ?idle ?put ?fails ?exhausted ?goes left patience queue false store hm
  case spent => exact fun _ => nofun
  case idle => exact fun _ => nofun
  case put => exact fun _ _ _ hm => ⟨_, (laws _).within hm⟩
  case fails => exact fun _ _ _ hm => ⟨_, (laws _).within hm⟩
  case exhausted => exact fun _ _ hm => ⟨_, (laws _).within hm⟩
  case goes =>
    intro _ _ _ _ _ i _ _ _ _ _ _ _ _ _ ih hm
    exact (List.mem_append.1 hm).elim (fun hm => ⟨i, (laws i).within hm⟩) ih

variable (laws) in
include laws in
theorem of_mem_stretches {part : Place} {deed : Deed}
    (hm : (part, deed) ∈ Account.stretches accounts place missing queue news store) :
    ∃ i : Fin count, ((i : Nat) :: place) <:+ part := by
  induction missing generalizing queue news store with
  | zero => cases hm
  | succ missing ih =>
    rcases List.mem_append.1 hm with hm | hm
    · exact of_mem_stretch laws hm
    · split at hm
      · exact ih hm
      · cases hm

variable (laws) in
include laws in
theorem cache_stretch (place : Place) (left patience : Nat) (queue : Queue members) (news : Bool) (store : Store) :
    (stretch place left patience queue news store).store.cache =
      store.cache.fetchAll (Account.stretch accounts place left patience queue store).compiled := by
  have hcache : ∀ {i : Fin count} {state store turn},
      (members i).advance (i :: place) state store = turn →
      turn.store.cache =
        store.cache.fetchAll ((accounts i).tell (i :: place) state store).compiled := by
    rintro i state store _ rfl
    exact (laws i).cache_eq (i :: place) state store
  refine Account.stretch_induction accounts place (motive := fun _ _ _ _ store told advance =>
    advance.store.cache = store.cache.fetchAll told.compiled)
    ?spent ?idle ?put ?fails ?exhausted ?goes left patience queue news store
  case spent => exact fun _ => rfl
  case idle => exact fun _ => rfl
  case put => exact fun _ hturn _ => hcache hturn
  case fails => exact fun _ hturn _ => (leaveAll_cache laws _ _).trans (hcache hturn)
  case exhausted => exact fun _ hturn => hcache hturn
  case goes =>
    intro _ _ _ _ store i state _ _ _ after _ _ _ hturn ih
    have hfirst : after.cache = _ := hcache hturn
    rw [Journal.compiled_append, Cache.fetchAll_append, ← hfirst]
    exact ih

variable (laws) in
include laws in
theorem cache_stretches (place : Place) (missing : Nat) (queue : Queue members) (news : Bool) (store : Store) :
    (stretches place missing queue news store).store.cache =
      store.cache.fetchAll (Account.stretches accounts place missing queue news store).compiled := by
  induction missing generalizing queue news store with
  | zero => rfl
  | succ missing ih =>
    simp only [stretches, Account.stretches]
    rw [Journal.compiled_append, Cache.fetchAll_append,
      ← cache_stretch laws place (missing + 1) Queue.patience queue news store]
    generalize stretch place (missing + 1) Queue.patience queue news store = advance
    obtain ⟨reached, anews, after⟩ := advance
    cases reached with
    | ended outcome =>
      cases outcome with
      | ok later => exact ih later anews after
      | error error => rfl
    | exhausted | waiting => rfl

/-- Where a stretch gets to, with what is told so far. -/
def StretchKeeps (laws : ∀ i, Recorded host (plans i) (accounts i)) (place : Place) (told : Journal)
    (missing : Nat) : Reached (Queue members) (Queue members) → Prop
  | .ended (.ok queue) => Keeps laws none place told queue ∧ queue.results.missing + 1 = missing
  | .ended (.error _) | .exhausted => True
  | .waiting queue => Keeps laws none place told queue ∧ queue.results.missing = missing

/-- A turn of the member that is next, and what has been told when it is over. -/
theorem Keeps.take_turn (hs : store.cache.Sound) (h : Keeps laws none place told queue)
    (hn : queue.next? = some (⟨i, state⟩, rest)) :
    let turn := (members i).advance (i :: place) state store
    let later := told ++ (accounts i).tell (i :: place) state store
    Records host (plans i) (laws i).Stands (i :: place) (later.under (i :: place)) turn.reached ∧
      Keeps laws (some i) place later rest ∧ turn.store.cache.Sound := by
  obtain ⟨hrest, hstate⟩ := h.of_next? hn
  have hwithin : ∀ part deed, (part, deed) ∈ (accounts i).tell (i :: place) state store →
      ((i : Nat) :: place) <:+ part := fun _ _ => (laws i).within
  refine ⟨?_, hrest.turn hwithin, ?_⟩
  · rw [Journal.under_append_of_within hwithin]
    exact (laws i).records (i :: place) state hs hstate
  · exact (laws i).cache_eq (i :: place) state store ▸ hs.fetchAll _

theorem stretch_keeps (left patience : Nat) (news : Bool) (hs : store.cache.Sound)
    (h : Keeps laws none place told queue) :
    StretchKeeps laws place (told ++ Account.stretch accounts place left patience queue store)
      queue.results.missing (stretch place left patience queue news store).reached := by
  refine Account.stretch_induction accounts place (motive := fun _ _ queue _ store more advance =>
    ∀ told, store.cache.Sound → Keeps laws none place told queue →
      StretchKeeps laws place (told ++ more) queue.results.missing advance.reached)
    ?spent ?idle ?put ?fails ?exhausted ?goes left patience queue news store told hs h
  case spent =>
    intro _ _ _ _ _ _ told _ h
    exact ⟨(List.append_nil told).symm ▸ h, rfl⟩
  case idle =>
    intro _ _ _ _ _ _ told _ h
    exact ⟨(List.append_nil told).symm ▸ h, rfl⟩
  case put =>
    intro _ _ _ _ _ i _ rest outcome _ _ results hn hturn hp told hs h
    obtain ⟨hr, hafter, -⟩ := hturn ▸ h.take_turn hs hn
    have hresults := (h.orderly.of_next? hn).2.2
    refine ⟨hafter.put (fun result ho => ?_) hp,
      hresults ▸ Results.missing_put hp (hafter.orderly.away i rfl).1⟩
    subst ho
    exact hr
  case fails => intros; trivial
  case exhausted => intros; trivial
  case goes =>
    intro _ _ _ _ _ i _ rest s anews after more advance hn hturn ih told hs h
    obtain ⟨hr, hafter, hsound⟩ := hturn ▸ h.take_turn hs hn
    have hsame : (rest.putBack ⟨i, s⟩ anews).results = _ := (h.orderly.of_next? hn).2.2
    have hgo := ih _ hsound (hafter.putBack hr anews)
    rwa [hsame, List.append_assoc] at hgo

theorem records_stretches (news : Bool) (hs : store.cache.Sound) (h : Keeps laws none place told queue)
    (hm : queue.results.missing = missing) :
    Records host (.join count plans .done) (fun place queue told => Keeps laws none place told queue)
      place (told ++ Account.stretches accounts place missing queue news store)
      (stretches place missing queue news store).reached := by
  induction missing generalizing queue news store told with
  | zero =>
    rw [Account.stretches, List.append_nil]
    exact h.runs hm
  | succ missing ih =>
    have hst := stretch_keeps (missing + 1) Queue.patience news hs h
    have hcache := cache_stretch laws place (missing + 1) Queue.patience queue
      news store
    simp only [stretches, Account.stretches]
    rw [← List.append_assoc]
    generalize stretch place (missing + 1) Queue.patience queue news store = advance at hst hcache
    generalize Account.stretch accounts place (missing + 1) Queue.patience queue store = first
      at hst hcache
    obtain ⟨reached, anews, after⟩ := advance
    cases reached with
    | ended outcome =>
      cases outcome with
      | ok later =>
        have hsound : after.cache.Sound := by
          simp only at hcache
          exact hcache ▸ hs.fetchAll _
        obtain ⟨hlater, hmissing⟩ := hst
        exact ih anews hsound hlater (by omega)
      | error error => trivial
    | exhausted => trivial
    | waiting later =>
      rw [List.append_nil]
      exact hst.1

end Queue

/-- A large join is recorded if its members are. -/
def Recorded.queue : Recorded host (.join count plans .done) (Account.queue accounts) where
  Stands place (queue : Queue members) told := Keeps laws none place told queue
  stands_hear path h := h.hear path
  within hm := by
    rcases List.mem_cons.1 hm with he | hm
    · cases he
      exact List.suffix_rfl
    · obtain ⟨i, hp⟩ := of_mem_stretches laws hm
      exact suffix_of_cons_suffix hp
  leave_cache queue store := leaveAll_cache laws queue.live store
  cache_eq place state store := cache_stretches laws place _ _ false store
  records {store told} place state hs ht := by
    have hbefore : Keeps laws none place told (state.getD (start members)) := by
      cases state with
      | none =>
        obtain rfl : told = [] := ht
        exact keeps_start laws place
      | some queue => exact ht
    have hr := records_stretches false hs hbefore.joins rfl
    rw [List.append_assoc] at hr
    exact hr

end Queue

/-- The record of whichever process it is. -/
def Recorded.ite {α : Type} {plan : Plan α} {c : Prop} [d : Decidable c] {first second : Process α}
    {account : Account first} {other : Account second} (law : Recorded host plan account)
    (another : Recorded host plan other) :
    Recorded host plan (Account.ite account other : Account (if c then first else second)) :=
  match d with
  | isTrue _ => law
  | isFalse _ => another

/-- A join is recorded if its members are, whether it is swept over or they queue. -/
def Recorded.join : Recorded host (.join count plans .done) (Account.join accounts) :=
  .ite (.sweep laws) (.queue laws)

end Process
end Stencil
