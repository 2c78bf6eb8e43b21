import Stencil.Process.Queue
import Stencil.Proofs.Process.Lawful

/-!
# Joins in order

How a join keeps account of its members, whatever they are. In a sweep each has a result or an entry
of its own; in a queue each has its outcome, or a turn to come, or waits. What is known of every
outcome and of every member that waits is kept by the moves of the join, if a turn gives it for the
member whose turn it is.
-/

namespace Stencil
namespace Results

variable {β : Type} {results after : Results β} {number : Nat} {outcome : Except Error β}

/-- The outcomes of all numbers, as far as they have come. -/
def outcomes (results : Results β) : List (Option (Except Error β)) :=
  results.delivered.toList.map (some ∘ .ok) ++ results.ahead

/-- What can be delivered has been. -/
def Settled (results : Results β) : Prop :=
  ∀ outcome, results.ahead.head? ≠ some (some outcome)

theorem outcomes_empty (count : Nat) :
    (empty count : Results β).outcomes = List.replicate count none := by
  simp [outcomes, empty]

theorem settled_empty (count : Nat) : (empty count : Results β).Settled := by
  intro outcome
  cases count <;> simp [empty, List.replicate_succ]

theorem missing_eq (results : Results β) :
    results.missing = results.outcomes.countP Option.isNone := by
  simp [missing, outcomes, List.countP_append, List.countP_map, Function.comp_def]

/-- When nothing is missing everything has been delivered. -/
theorem ahead_eq_nil (hs : results.Settled) (hm : results.missing = 0) : results.ahead = [] := by
  cases ha : results.ahead with
  | nil => rfl
  | cons entry ahead =>
    cases entry with
    | none => simp [missing, ha] at hm
    | some outcome => exact absurd (by simp [ha]) (hs outcome)

theorem size_le_of_missing (h : results.outcomes[number]? = some none) :
    results.delivered.size ≤ number := by
  by_contra hn
  have hlt : number < results.delivered.size := by omega
  rw [outcomes, List.getElem?_append_left (by simpa using hlt)] at h
  simp [hlt] at h

theorem settled_of_deliver {delivered : Array β} {ahead : List (Option (Except Error β))}
    (h : deliver delivered ahead = .ok after) : after.Settled := by
  fun_induction deliver delivered ahead with
  | case1 delivered result ahead ih => exact ih h
  | case2 => cases h
  | case3 delivered ahead hok herror =>
    cases h
    intro outcome hh
    cases ahead with
    | nil => simp at hh
    | cons entry ahead =>
      obtain rfl : entry = some outcome := by simpa using hh
      cases outcome with
      | ok result => exact hok result ahead rfl
      | error error => exact herror error ahead rfl

theorem mem_of_deliver_error {delivered : Array β} {ahead : List (Option (Except Error β))}
    {error : Error} (h : deliver delivered ahead = .error error) : some (.error error) ∈ ahead := by
  fun_induction deliver delivered ahead with
  | case1 delivered result ahead ih => exact List.mem_cons_of_mem _ (ih h)
  | case2 =>
    cases h
    exact List.mem_cons_self ..
  | case3 => cases h

theorem outcomes_put (h : results.put number outcome = .ok after)
    (hm : results.outcomes[number]? = some none) :
    after.outcomes = results.outcomes.set number (some outcome) := by
  have hn : (results.delivered.toList.map (some ∘ (.ok : β → Except Error β))).length ≤ number := by
    simpa using size_le_of_missing hm
  rw [outcomes, deliver_eq_ok h, outcomes, List.set_append_right _ _ hn]
  simp

theorem settled_put (h : results.put number outcome = .ok after) : after.Settled :=
  settled_of_deliver h

/-- What fails the whole has come before or comes now. -/
theorem mem_of_put_error {error : Error} (h : results.put number outcome = .error error) :
    some (.error error) ∈ results.outcomes ∨ outcome = .error error := by
  rcases List.mem_or_eq_of_mem_set (mem_of_deliver_error h) with hm | he
  · exact .inl (List.mem_append_right _ hm)
  · exact .inr (Option.some.inj he).symm

theorem missing_put (h : results.put number outcome = .ok after)
    (hm : results.outcomes[number]? = some none) : after.missing + 1 = results.missing := by
  obtain ⟨hlt, hget⟩ := List.getElem?_eq_some_iff.1 hm
  have hpos : 0 < results.outcomes.countP Option.isNone :=
    List.countP_pos_iff.2 ⟨_, List.mem_of_getElem? hm, rfl⟩
  rw [missing_eq, missing_eq, outcomes_put h hm, List.countP_set hlt]
  simp [hget]
  omega

end Results

/-- Two numbers at one place are the same if something stands below both. -/
theorem eq_of_cons_suffix {i j : Nat} {place part : Place} (hi : (i :: place) <:+ part)
    (hj : (j :: place) <:+ part) : i = j := by
  have h := List.suffix_of_suffix_length_le hi hj (by simp)
  exact (List.cons.inj (h.eq_of_length (by simp))).1

theorem suffix_of_cons_suffix {i : Nat} {place part : Place} (h : (i :: place) <:+ part) :
    place <:+ part :=
  (List.suffix_cons i place).trans h

/-- A path leads below the number that it begins with. -/
theorem head?_of_cons_suffix {i : Nat} {place : Place} {path : List Nat}
    (h : (i :: place) <:+ path.reverse ++ place) : path.head? = some i := by
  cases path with
  | nil =>
    have hl : place.length + 1 ≤ place.length := h.length_le
    omega
  | cons number rest =>
    have hn : (number :: place) <:+ (number :: rest).reverse ++ place := by simp
    simp [eq_of_cons_suffix h hn]

namespace Process

section Leaving
variable {β : Type} {host : Host} {count : Nat} {members : Fin count → Process β} {place : Place}
  {store : Store} {live : List (Member members)}

/-- Members that each give up their own seats do so together. -/
theorem leaveAll_leaves_of (h : store.Sound host)
    (hl : ∀ member ∈ live, ∀ later : Store, store.Leaves host (place <:+ ·) later →
      later.Leaves host ((member.1 : Nat) :: place <:+ ·) ((members member.1).leave member.2 later)) :
    store.Leaves host (place <:+ ·) (leaveAll members live store) := by
  have hgo : ∀ {live : List (Member members)} {later : Store},
      store.Leaves host (place <:+ ·) later →
      (∀ member ∈ live, ∀ later : Store, store.Leaves host (place <:+ ·) later →
        later.Leaves host ((member.1 : Nat) :: place <:+ ·)
          ((members member.1).leave member.2 later)) →
      store.Leaves host (place <:+ ·) (leaveAll members live later) := by
    intro live later hlater hl
    induction live generalizing later with
    | nil => exact hlater
    | cons member live ih =>
      obtain ⟨hfirst, hrest⟩ := List.forall_mem_cons.1 hl
      have hleave := hfirst later hlater
      exact ih (hlater.trans ⟨hleave.toSteps.mono (fun _ hp => suffix_of_cons_suffix hp)
        fun _ hb => hb, hleave.occupied_of⟩) hrest
  exact hgo (.refl h) hl

section Views
variable (views : ∀ i, View (members i)) (h : store.Sound host)
  (hl : ∀ i s {later : Store}, later.Sound host →
    (∀ id number part, (views i).Waits (i :: place) s id number part →
      later.isReady host id = true ∨ ∀ other, later.Occupied id number other → other = part) →
    later.Leaves host ((i : Nat) :: place <:+ ·) ((members i).leave s later))
include h hl

/-- Members that have their seats to themselves give them up together. -/
theorem leaveAll_leaves (hown : ∀ member ∈ live, ∀ id number part,
    (views member.1).Waits (member.1 :: place) member.2 id number part →
      store.isReady host id = true ∨ ∀ other, store.Occupied id number other → other = part) :
    store.Leaves host (place <:+ ·) (leaveAll members live store) := by
  refine leaveAll_leaves_of h fun member hm later hlater => ?_
  refine hl member.1 member.2 hlater.sound fun id number part hw => ?_
  rcases hown member hm id number part hw with hr | hn
  · exact .inl (hlater.isReady_eq ▸ hr)
  · exact .inr fun theirs ht => hn theirs (hlater.occupied_of id number theirs ht)

theorem leaveAll_leaves_of_rests (hr : ∀ member ∈ live,
    (views member.1).Rests host (member.1 :: place) member.2 store) :
    store.Leaves host (place <:+ ·) (leaveAll members live store) := by
  refine leaveAll_leaves views h hl fun member hm id number part hw => ?_
  rcases (hr member hm).seated id number part hw with hready | ho
  · exact .inl hready
  · exact .inr fun other ho' => Option.some.inj (ho'.symm.trans ho)

end Views

/-- Giving up seats changes nothing else. -/
theorem leaveAll_keeps (hk : ∀ (i : Fin count) (s : (members i).State) (store : Store),
    { (members i).leave s store with seats := store.seats } = store) (live : List (Member members))
    (store : Store) : { leaveAll members live store with seats := store.seats } = store := by
  induction live generalizing store with
  | nil => rfl
  | cons member live ih =>
    have hfirst := hk member.1 member.2 store
    have hrest := ih ((members member.1).leave member.2 store)
    simp only [leaveAll, List.foldl_cons] at hrest ⊢
    generalize (members member.1).leave member.2 store = middle at hfirst hrest ⊢
    exact (congrArg (fun later : Store => { later with seats := store.seats }) hrest).trans hfirst

end Leaving

namespace Sweep

variable {β : Type} {count : Nat} {members : Fin count → Process β} {i : Fin count}
  {is : List (Fin count)} {entry : Entry members} {entries : List (Entry members)}
  {path : List Nat}

theorem mem_of_mem_live {entries : List (Entry members)} {member : Member members}
    (h : member ∈ live entries) : .inr ⟨member.1, some member.2⟩ ∈ entries := by
  obtain ⟨entry, he, hm⟩ := List.mem_filterMap.1 h
  match entry with
  | .inr ⟨i, some s⟩ =>
    obtain rfl := Option.some.inj hm
    exact he

/-- Only the member that the path leads to hears anything. -/
theorem of_mem_hear {path : List Nat} {entries : List (Entry members)} {i : Fin count}
    {s : (members i).State} (h : .inr ⟨i, some s⟩ ∈ hear path entries) :
    ∃ earlier, .inr ⟨i, some earlier⟩ ∈ entries ∧
      ((path.head? ≠ some (i : Nat) ∧ s = earlier) ∨
        ∃ rest, path = (i : Nat) :: rest ∧ s = (members i).hear rest earlier) := by
  match path with
  | [] => exact ⟨s, h, .inl ⟨by simp, rfl⟩⟩
  | number :: rest =>
    obtain ⟨entry, he, hs⟩ := List.mem_map.1 h
    match entry with
    | .inr ⟨j, state⟩ =>
      simp only [Sum.inr.injEq, Sigma.mk.injEq] at hs
      obtain ⟨rfl, hs⟩ := hs
      rw [heq_eq_eq] at hs
      split at hs
      · rename_i hn
        obtain ⟨earlier, rfl, rfl⟩ := Option.map_eq_some_iff.1 hs
        exact ⟨earlier, he, .inr ⟨rest, by rw [hn], rfl⟩⟩
      · rename_i hn
        exact ⟨s, hs ▸ he, .inl ⟨by simpa [eq_comm] using hn, rfl⟩⟩

/-- The part at the end of the path may want anything once it has heard. -/
theorem alert_hear {views : ∀ i, View (members i)} (heeds : ∀ i, (views i).Heeds)
    {entries : List (Entry members)} {wanted : Place → PendingId → Prop} {place : Place}
    (path : List Nat)
    (h : ∀ i s, .inr ⟨i, some s⟩ ∈ entries → (views i).Alert wanted (i :: place) s)
    (i : Fin count) (s : (members i).State) (hi : .inr ⟨i, some s⟩ ∈ hear path entries) :
    (views i).Alert (fun part id => wanted part id ∨ part = path.reverse ++ place) (i :: place) s := by
  obtain ⟨earlier, he, ⟨hne, rfl⟩ | ⟨rest, rfl, rfl⟩⟩ := of_mem_hear hi
  · refine (heeds i).alert_mono (fun id number part hw hp => hp.resolve_right ?_) (h i s he)
    rintro rfl
    exact hne (head?_of_cons_suffix ((heeds i).suffix_of_waits hw))
  · simpa using (heeds i).alert_hear rest (h i earlier he)

theorem exists_mem_hear (path : List Nat) {entries : List (Entry members)} {i : Fin count}
    {s : (members i).State} (h : .inr ⟨i, some s⟩ ∈ entries) :
    ∃ later, .inr ⟨i, some later⟩ ∈ hear path entries ∧
      (later = s ∨ ∃ rest, later = (members i).hear rest s) := by
  match path with
  | [] => exact ⟨s, h, .inl rfl⟩
  | number :: rest =>
    by_cases hn : (i : Nat) = number
    · exact ⟨(members i).hear rest s, List.mem_map.2 ⟨_, h, by simp [hn]⟩, .inr ⟨rest, rfl⟩⟩
    · exact ⟨s, List.mem_map.2 ⟨_, h, by simp [hn]⟩, .inl rfl⟩

/-- Hearing changes nothing about what members say of themselves whether they have heard or not. -/
theorem exists_mem_hear_iff {P : (i : Fin count) → (members i).State → Prop}
    (hP : ∀ i s rest, P i ((members i).hear rest s) ↔ P i s) :
    (∃ i s, .inr ⟨i, some s⟩ ∈ hear path entries ∧ P i s) ↔
      ∃ i s, .inr ⟨i, some s⟩ ∈ entries ∧ P i s := by
  constructor
  · rintro ⟨i, s, hi, hs⟩
    obtain ⟨earlier, he, ⟨-, rfl⟩ | ⟨rest, -, rfl⟩⟩ := of_mem_hear hi
    · exact ⟨i, s, he, hs⟩
    · exact ⟨i, earlier, he, (hP i earlier rest).1 hs⟩
  · rintro ⟨i, s, hi, hs⟩
    obtain ⟨later, hl, rfl | ⟨rest, rfl⟩⟩ := exists_mem_hear path hi
    · exact ⟨i, later, hl, hs⟩
    · exact ⟨i, _, hl, (hP i s rest).2 hs⟩

variable {place : Place}

/-- The places of the members of these numbers. -/
def Among (place : Place) (is : List (Fin count)) (part : Place) : Prop :=
  ∃ i ∈ is, ((i : Nat) :: place) <:+ part

theorem not_among (hi : i ∉ is) {part : Place}
    (hp : ((i : Nat) :: place) <:+ part) : ¬ Among place is part := by
  rintro ⟨j, hj, hp'⟩
  exact hi (Fin.ext (eq_of_cons_suffix hp hp') ▸ hj)

/-- What is known of the member of a number by its entry: its result, or where it stands. -/
def Known (Came : Fin count → β → Prop) (Rests : (i : Fin count) → (members i).State → Prop)
    (i : Fin count) : Entry members → Prop
  | .inl result => Came i result
  | .inr ⟨j, state⟩ => j = i ∧ ∀ s, state = some s → Rests j s

variable {Came Came' : Fin count → β → Prop}
  {Rests Rests' : (i : Fin count) → (members i).State → Prop}

theorem Known.imp (h : Known Came Rests i entry) (hc : ∀ result, Came i result → Came' i result)
    (hr : ∀ s, Rests i s → Rests' i s) : Known Came' Rests' i entry := by
  match entry with
  | .inl result => exact hc result h
  | .inr ⟨j, state⟩ =>
    obtain ⟨rfl, h⟩ := h
    exact ⟨rfl, fun s hs => hr s (h s hs)⟩

/-- What is known of all members, before the first has been advanced. -/
theorem known_fresh (Came : Fin count → β → Prop)
    (Rests : (i : Fin count) → (members i).State → Prop) :
    List.Forall₂ (Known Came Rests) (List.finRange count) (fresh members) := by
  rw [fresh, List.forall₂_map_right_iff, List.forall₂_same]
  exact fun i _ => ⟨rfl, nofun⟩

/-- More is known of the members under way. -/
theorem known_of_mem (h : List.Forall₂ (Known Came Rests) is entries)
    (hr : ∀ i s, .inr ⟨i, some s⟩ ∈ entries → Rests i s → Rests' i s) :
    List.Forall₂ (Known Came Rests') is entries := by
  induction h with
  | nil => exact .nil
  | @cons i entry _ _ hi _ ih =>
    refine .cons ?_ (ih fun j s hj => hr j s (List.mem_cons_of_mem _ hj))
    match entry with
    | .inl _ => exact hi
    | .inr ⟨j, state⟩ =>
      obtain ⟨rfl, hs⟩ := hi
      refine ⟨rfl, fun s he => ?_⟩
      subst he
      exact hr j s (List.mem_cons_self ..) (hs s rfl)

theorem rests_of_known (h : List.Forall₂ (Known Came Rests) is entries) {s : (members i).State}
    (hi : .inr ⟨i, some s⟩ ∈ entries) : Rests i s := by
  induction h with
  | nil => cases hi
  | cons hj _ ih =>
    rcases List.mem_cons.1 hi with rfl | hi
    · exact hj.2 s rfl
    · exact ih hi

/-- When no entry is under way, the results are those of all members. -/
theorem mapM_of_known (h : List.Forall₂ (Known Came Rests) is entries) {results : List β}
    (hr : entries.mapM Sum.getLeft? = some results) : List.Forall₂ Came is results := by
  induction h generalizing results with
  | nil =>
    obtain rfl : results = [] := by simpa [eq_comm] using hr
    exact .nil
  | @cons i entry is entries hi _ ih =>
    match entry with
    | .inl result =>
      cases mapM_eq_some_iff.1 hr with
      | cons he hes =>
        obtain rfl := Option.some.inj he
        exact .cons hi (ih (mapM_eq_some_iff.2 hes))
    | .inr _ =>
      cases mapM_eq_some_iff.1 hr with
      | cons he _ => cases he

theorem not_mem_of_mapM {results : List β} (hr : entries.mapM Sum.getLeft? = some results)
    (member : (i : Fin count) × Option (members i).State) : .inr member ∉ entries := by
  intro hm
  obtain ⟨result, he⟩ := exists_of_mem_of_mapM hr hm
  cases he

/-- Otherwise some entry is under way. -/
theorem exists_mem_of_mapM (hr : entries.mapM Sum.getLeft? = none) :
    ∃ member, .inr member ∈ entries := by
  induction entries with
  | nil => cases hr
  | cons entry entries ih =>
    match entry with
    | .inr member => exact ⟨member, List.mem_cons_self ..⟩
    | .inl result =>
      have hrest : entries.mapM Sum.getLeft? = none := by
        cases hm : entries.mapM Sum.getLeft? with
        | none => rfl
        | some results => simp [List.mapM_cons, hm] at hr
      obtain ⟨member, hm⟩ := ih hrest
      exact ⟨member, List.mem_cons_of_mem _ hm⟩

/-- What is known of a member stays known, if hearing leaves it so. -/
theorem known_hear (path : List Nat) (h : List.Forall₂ (Known Came Rests) is entries)
    (hh : ∀ i s rest, Rests i s → Rests i ((members i).hear rest s)) :
    List.Forall₂ (Known Came Rests) is (hear path entries) := by
  match path with
  | [] => exact h
  | number :: rest =>
    rw [hear, List.forall₂_map_right_iff]
    refine h.imp fun i entry hi => ?_
    match entry with
    | .inl _ => exact hi
    | .inr ⟨j, state⟩ =>
      obtain ⟨rfl, hs⟩ := hi
      refine ⟨rfl, fun s he => ?_⟩
      split at he
      · obtain ⟨earlier, rfl, rfl⟩ := Option.map_eq_some_iff.1 he
        exact hh j earlier rest (hs earlier rfl)
      · exact hs s he

end Sweep

namespace Queue

variable {β : Type} {count : Nat} {members : Fin count → Process β} {queue : Queue members}
  {turn : Option (Fin count)}

theorem compare_ne_eq {i j : Fin count} (h : j ≠ i) : compare i j ≠ .eq :=
  fun hc => h (Std.LawfulEqCmp.eq_of_compare hc).symm

theorem get?_waiting_putBack_of_ne {queue : Queue members} {i j : Fin count}
    {s : (members i).State} {news : Bool} (h : j ≠ i) :
    (queue.putBack ⟨i, s⟩ news).waiting.get? j = queue.waiting.get? j := by
  simp [Queue.putBack, Std.DTreeMap.get?_insert, compare_ne_eq h]

theorem get?_of_mem_live {member : Member members} (h : member ∈ queue.live) :
    queue.waiting.get? member.1 = some member.2 := by
  obtain ⟨i, -, hi⟩ := List.mem_filterMap.1 h
  obtain ⟨s, hs, rfl⟩ := Option.map_eq_some_iff.1 hi
  exact hs

/-- A queue hears nothing unless the path leads to a member that waits. -/
theorem hear_eq (path : List Nat) (queue : Queue members) :
    (hear path queue = queue ∧ ∀ i s, queue.waiting.get? i = some s → path.head? ≠ some (i : Nat)) ∨
    ∃ (i : Fin count) (rest : List Nat) (s : (members i).State), path = (i : Nat) :: rest ∧
      queue.waiting.get? i = some s ∧
      hear path queue = { queue with
        turns := if i ∈ queue.turns then queue.turns else queue.turns.add i
        waiting := queue.waiting.modify i ((members i).hear rest) } := by
  match path with
  | [] => exact .inl ⟨rfl, by simp⟩
  | number :: rest =>
    by_cases hn : number < count
    · by_cases hi : (⟨number, hn⟩ : Fin count) ∈ queue.waiting
      · obtain ⟨s, hs⟩ := Option.isSome_iff_exists.1 (Std.DTreeMap.mem_iff_isSome_get?.1 hi)
        exact .inr ⟨⟨number, hn⟩, rest, s, rfl, hs, by simp [hear, hn, hi]⟩
      · refine .inl ⟨by simp [hear, hn, hi], fun i s hs he => hi ?_⟩
        obtain rfl : number = i := by simpa using he
        exact Std.DTreeMap.mem_iff_isSome_get?.2 (by simp [hs])
    · refine .inl ⟨by simp [hear, hn], fun i s hs he => hn ?_⟩
      obtain rfl : number = i := by simpa using he
      exact i.isLt

/-- Only the member that the path leads to hears anything, and it has a turn to come. -/
theorem of_get?_hear {path : List Nat} {i : Fin count} {s : (members i).State}
    (h : (hear path queue).waiting.get? i = some s) :
    ∃ earlier, queue.waiting.get? i = some earlier ∧
      ((path.head? ≠ some (i : Nat) ∧ s = earlier) ∨
        i ∈ (hear path queue).turns ∧
          ∃ rest, path = (i : Nat) :: rest ∧ s = (members i).hear rest earlier) := by
  rcases hear_eq path queue with ⟨he, hhead⟩ | ⟨j, rest, t, rfl, ht, he⟩
  · rw [he] at h
    exact ⟨s, h, .inl ⟨hhead i s h, rfl⟩⟩
  · simp only [he] at h ⊢
    by_cases hj : j = i
    · subst j
      obtain rfl : (members i).hear rest t = s := by
        simpa [Std.DTreeMap.get?_modify_self, ht] using h
      refine ⟨t, ht, .inr ⟨?_, rest, rfl, rfl⟩⟩
      rw [← Turns.mem_toList]
      split
      · rwa [Turns.mem_toList]
      · simp
    · have hs : queue.waiting.get? i = some s := by
        simpa [Std.DTreeMap.get?_modify, compare_ne_eq (Ne.symm hj)] using h
      exact ⟨s, hs, .inl ⟨fun hn => hj (Fin.ext (by simpa using hn)), rfl⟩⟩

theorem mem_turns_hear {path : List Nat} {i : Fin count} (h : i ∈ queue.turns) :
    i ∈ (hear path queue).turns := by
  rcases hear_eq path queue with ⟨he, -⟩ | ⟨j, rest, t, rfl, ht, he⟩
  · rwa [he]
  · simp only [he]
    split
    · exact h
    · rw [← Turns.mem_toList] at h ⊢
      simp [h]

theorem results_hear (path : List Nat) (queue : Queue members) :
    (hear path queue).results = queue.results := by
  rcases hear_eq path queue with ⟨he, -⟩ | ⟨_, _, _, -, -, he⟩ <;> rw [he]

theorem of_mem_turns_hear {path : List Nat} {i : Fin count} (h : i ∈ (hear path queue).turns) :
    i ∈ queue.turns ∨ ∃ s, queue.waiting.get? i = some s := by
  rcases hear_eq path queue with ⟨he, -⟩ | ⟨j, rest, s, rfl, hs, he⟩
  · exact .inl (he ▸ h)
  · rw [he, ← Turns.mem_toList] at h
    split at h
    · exact .inl (Turns.mem_toList.1 h)
    · rw [Turns.toList_add, List.mem_append, List.mem_singleton, Turns.mem_toList] at h
      rcases h with h | rfl
      · exact .inl h
      · exact .inr ⟨s, hs⟩

theorem nodup_hear (path : List Nat) (h : queue.turns.toList.Nodup) :
    (hear path queue).turns.toList.Nodup := by
  rcases hear_eq path queue with ⟨he, -⟩ | ⟨i, rest, s, rfl, hs, he⟩
  · rwa [he]
  · rw [he]
    split
    · exact h
    · rename_i hi
      rw [← Turns.mem_toList] at hi
      rw [Turns.toList_add]
      exact (List.perm_append_singleton i _).nodup_iff.2 (List.nodup_cons.2 ⟨hi, h⟩)

/-- Whoever waits goes on waiting. -/
theorem exists_get?_hear (path : List Nat) {i : Fin count} {s : (members i).State}
    (h : queue.waiting.get? i = some s) :
    ∃ later, (hear path queue).waiting.get? i = some later ∧
      (later = s ∨ ∃ rest, later = (members i).hear rest s) := by
  rcases hear_eq path queue with ⟨he, -⟩ | ⟨j, rest, t, rfl, ht, he⟩
  · exact ⟨s, by rw [he, h], .inl rfl⟩
  · rw [he]
    by_cases hj : j = i
    · subst j
      exact ⟨(members i).hear rest s, by simp [Std.DTreeMap.get?_modify_self, h], .inr ⟨rest, rfl⟩⟩
    · exact ⟨s, by simpa [Std.DTreeMap.get?_modify, compare_ne_eq (Ne.symm hj)] using h, .inl rfl⟩

section Alert
variable {views : ∀ i, View (members i)} {wanted more : Place → PendingId → Prop} {place : Place}

/-- Every member that waits is alert, and wants nothing unless it has a turn to come. -/
def Alert (views : ∀ i, View (members i)) (wanted : Place → PendingId → Prop) (place : Place)
    (queue : Queue members) : Prop :=
  ∀ i s, queue.waiting.get? i = some s → (views i).Alert wanted (i :: place) s ∧
    (i ∉ queue.turns → (views i).Idle s ∧ ∀ id number part,
      (views i).Waits (i :: place) s id number part → ¬ wanted part id)

theorem Alert.mono (heeds : ∀ i, (views i).Heeds)
    (hw : ∀ id number part, (∃ i s, queue.waiting.get? i = some s ∧
      (views i).Waits (i :: place) s id number part) → more part id → wanted part id)
    (h : Alert views wanted place queue) : Alert views more place queue := by
  intro i s hi
  obtain ⟨halert, hasleep⟩ := h i s hi
  have hmore : ∀ id number part, (views i).Waits (i :: place) s id number part → more part id →
      wanted part id := fun id number part hp => hw id number part ⟨i, s, hi, hp⟩
  refine ⟨(heeds i).alert_mono hmore halert, fun hn => ⟨(hasleep hn).1, fun id number part hp hm => ?_⟩⟩
  exact (hasleep hn).2 id number part hp (hmore id number part hp hm)

/-- The part at the end of the path may want anything once it has heard. -/
theorem Alert.hear (heeds : ∀ i, (views i).Heeds) (path : List Nat)
    (h : Alert views wanted place queue) :
    Alert views (fun part id => wanted part id ∨ part = path.reverse ++ place) place
      (hear path queue) := by
  intro i s hi
  obtain ⟨earlier, he, ⟨hne, rfl⟩ | ⟨hturn, rest, rfl, rfl⟩⟩ := of_get?_hear hi
  · -- the path leads past this member
    have hother : ∀ id number part, (views i).Waits (i :: place) s id number part →
        (wanted part id ∨ part = path.reverse ++ place) → wanted part id := by
      intro id number part hw hp
      refine hp.resolve_right ?_
      rintro rfl
      exact hne (head?_of_cons_suffix ((heeds i).suffix_of_waits hw))
    obtain ⟨halert, hasleep⟩ := h i s he
    refine ⟨(heeds i).alert_mono hother halert, fun hn => ?_⟩
    obtain ⟨hidle, hwanted⟩ := hasleep (mt mem_turns_hear hn)
    exact ⟨hidle, fun id number part hw hp => hwanted id number part hw (hother id number part hw hp)⟩
  · refine ⟨?_, fun hn => absurd hturn hn⟩
    simpa using (heeds i).alert_hear rest (h i earlier he).1

end Alert

section Waiting
variable {P : (i : Fin count) → (members i).State → Prop}

/-- Hearing changes nothing about what members say of themselves whether they have heard or not. -/
theorem exists_waiting_hear_iff (hP : ∀ i s rest, P i ((members i).hear rest s) ↔ P i s)
    (path : List Nat) : (∃ i s, (hear path queue).waiting.get? i = some s ∧ P i s) ↔
      ∃ i s, queue.waiting.get? i = some s ∧ P i s := by
  constructor
  · rintro ⟨i, s, hi, hs⟩
    obtain ⟨earlier, he, ⟨-, rfl⟩ | ⟨-, rest, -, rfl⟩⟩ := of_get?_hear hi
    · exact ⟨i, s, he, hs⟩
    · exact ⟨i, earlier, he, (hP i earlier rest).1 hs⟩
  · rintro ⟨i, s, hi, hs⟩
    obtain ⟨later, hl, rfl | ⟨rest, rfl⟩⟩ := exists_get?_hear path hi
    · exact ⟨i, later, hl, hs⟩
    · exact ⟨i, _, hl, (hP i s rest).2 hs⟩

section Turn
variable {i : Fin count} {state : Option (members i).State} {rest : Queue members}
  (hn : queue.next? = some (⟨i, state⟩, rest))
include hn

/-- The queue of which the member that is next has been taken. -/
theorem of_next? : queue.turns.next? = some (i, rest.turns) ∧ queue.waiting.get? i = state ∧
    rest.waiting = queue.waiting.erase i ∧ rest.results = queue.results := by
  simp only [next?] at hn
  split at hn
  · cases hn
  · rename_i ht
    cases hn
    exact ⟨ht, rfl, rfl, rfl⟩

theorem get?_of_next? : queue.waiting.get? i = state :=
  (of_next? hn).2.1

theorem toList_turns_of_next? : queue.turns.toList = i :: rest.turns.toList :=
  Turns.toList_of_next? (of_next? hn).1

theorem mem_turns_of_next? {j : Fin count} : j ∈ queue.turns ↔ j = i ∨ j ∈ rest.turns := by
  rw [← Turns.mem_toList, toList_turns_of_next? hn, List.mem_cons, Turns.mem_toList]

theorem get?_self_of_next? : rest.waiting.get? i = none := by
  rw [(of_next? hn).2.2.1]
  exact Std.DTreeMap.get?_erase_self

theorem get?_waiting_of_next? {j : Fin count} (hj : j ≠ i) :
    rest.waiting.get? j = queue.waiting.get? j := by
  rw [(of_next? hn).2.2.1]
  simp [Std.DTreeMap.get?_erase, compare_ne_eq hj]

/-- Who waits without the member that is next is another one, and waits with it. -/
theorem waiting_of_rest {j : Fin count} {s : (members j).State}
    (hs : rest.waiting.get? j = some s) : j ≠ i ∧ queue.waiting.get? j = some s := by
  have hj : j ≠ i := by
    rintro rfl
    simp [get?_self_of_next? hn] at hs
  exact ⟨hj, (get?_waiting_of_next? hn hj).symm.trans hs⟩

/-- Who waits is the member that is next, or waits still without it. -/
theorem exists_waiting_of_next? (h : ∃ j s, queue.waiting.get? j = some s ∧ P j s) :
    (∃ s, state = some s ∧ P i s) ∨ ∃ j s, rest.waiting.get? j = some s ∧ P j s := by
  obtain ⟨j, s, hs, hp⟩ := h
  by_cases he : j = i
  · subst j
    exact .inl ⟨s, (get?_of_next? hn).symm.trans hs, hp⟩
  · exact .inr ⟨j, s, (get?_waiting_of_next? hn he).trans hs, hp⟩

theorem exists_waiting_of_rest (h : ∃ j s, rest.waiting.get? j = some s ∧ P j s) :
    ∃ j s, queue.waiting.get? j = some s ∧ P j s := by
  obtain ⟨j, s, hs, hp⟩ := h
  exact ⟨j, s, (waiting_of_rest hn hs).2, hp⟩

end Turn

section PutBack
variable {i : Fin count} {s : (members i).State} {news : Bool}

theorem mem_turns_putBack {j : Fin count} :
    j ∈ (queue.putBack ⟨i, s⟩ news).turns ↔ (news = true ∧ j = i) ∨ j ∈ queue.turns := by
  rw [← Turns.mem_toList, ← Turns.mem_toList]
  cases news <;> simp [Queue.putBack, or_comm]

/-- What is so of a member that is put back and of those that wait without it is so of all. -/
theorem forall_waiting_putBack (hs : P i s) (h : ∀ j t, queue.waiting.get? j = some t → P j t)
    (j : Fin count) (t : (members j).State)
    (ht : (queue.putBack ⟨i, s⟩ news).waiting.get? j = some t) : P j t := by
  by_cases he : j = i
  · subst j
    rw [get?_waiting_putBack queue ⟨i, s⟩] at ht
    obtain rfl := Option.some.inj ht
    exact hs
  · exact h j t ((get?_waiting_putBack_of_ne he).symm.trans ht)

theorem exists_waiting_putBack_iff (hnone : queue.waiting.get? i = none) :
    (∃ j t, (queue.putBack ⟨i, s⟩ news).waiting.get? j = some t ∧ P j t) ↔
      P i s ∨ ∃ j t, queue.waiting.get? j = some t ∧ P j t := by
  constructor
  · rintro ⟨j, t, ht, hp⟩
    refine forall_waiting_putBack (P := fun j t => P j t →
      P i s ∨ ∃ j t, queue.waiting.get? j = some t ∧ P j t) .inl ?_ j t ht hp
    exact fun j t ht hp => .inr ⟨j, t, ht, hp⟩
  · rintro (hp | ⟨j, t, ht, hp⟩)
    · exact ⟨i, s, get?_waiting_putBack queue ⟨i, s⟩ news, hp⟩
    · have hne : j ≠ i := by
        rintro rfl
        simp [hnone] at ht
      exact ⟨j, t, (get?_waiting_putBack_of_ne hne).trans ht, hp⟩

end PutBack

end Waiting

/-- Each member has its outcome, or a turn to come, or waits, while at most one has its turn. -/
structure Regular (turn : Option (Fin count)) (queue : Queue members) : Prop where
  length_outcomes : queue.results.outcomes.length = count
  settled : queue.results.Settled
  nodup : queue.turns.toList.Nodup
  missing_of_waiting : ∀ i s, queue.waiting.get? i = some s →
    queue.results.outcomes[(i : Nat)]? = some none
  missing_of_turn : ∀ i ∈ queue.turns, queue.results.outcomes[(i : Nat)]? = some none
  under_way : ∀ i : Fin count, queue.results.outcomes[(i : Nat)]? = some none →
    turn = some i ∨ i ∈ queue.turns ∨ ∃ s, queue.waiting.get? i = some s
  away : ∀ i, turn = some i → queue.results.outcomes[(i : Nat)]? = some none ∧
    i ∉ queue.turns ∧ queue.waiting.get? i = none

namespace Regular

/-- When nothing is missing, all has been delivered. -/
theorem outcomes_of_missing (h : Regular turn queue) (hm : queue.results.missing = 0) :
    queue.results.outcomes = queue.results.delivered.toList.map (some ∘ .ok) := by
  simp [Results.outcomes, Results.ahead_eq_nil h.settled hm]

theorem exists_missing (h : Regular turn queue) (hm : 0 < queue.results.missing) :
    ∃ i : Fin count, queue.results.outcomes[(i : Nat)]? = some none := by
  rw [Results.missing_eq, List.countP_pos_iff] at hm
  obtain ⟨entry, he, hnone⟩ := hm
  obtain rfl : entry = none := by simpa using hnone
  obtain ⟨n, hn⟩ := List.mem_iff_getElem?.1 he
  exact ⟨⟨n, h.length_outcomes ▸ (List.getElem?_eq_some_iff.1 hn).1⟩, hn⟩

/-- A failure that is there stands behind an outcome that is missing. -/
theorem exists_missing_of_error (h : Regular turn queue) {number : Nat} {error : Error}
    (he : queue.results.outcomes[number]? = some (some (.error error))) :
    ∃ i : Fin count, (i : Nat) < number ∧ queue.results.outcomes[(i : Nat)]? = some none := by
  have hsize : queue.results.delivered.size ≤ number := by
    by_contra hn
    have hlt : number < queue.results.delivered.size := by omega
    rw [Results.outcomes, List.getElem?_append_left (by simpa using hlt)] at he
    simp [hlt] at he
  have hlength := h.length_outcomes
  have hnumber : number < count := hlength ▸ (List.getElem?_eq_some_iff.1 he).1
  have hahead : ∀ n, queue.results.outcomes[queue.results.delivered.size + n]? =
      queue.results.ahead[n]? := by
    intro n
    rw [Results.outcomes, List.getElem?_append_right (by simp)]
    simp
  have hfirst : queue.results.outcomes[queue.results.delivered.size]? = some none := by
    rw [← Nat.add_zero queue.results.delivered.size, hahead, ← List.head?_eq_getElem?]
    cases hh : queue.results.ahead with
    | nil =>
      have hn := hahead (number - queue.results.delivered.size)
      rw [Nat.add_sub_cancel' hsize, he, hh] at hn
      cases hn
    | cons entry ahead =>
      cases entry with
      | none => rfl
      | some outcome => exact absurd (by simp [hh]) (h.settled outcome)
  have hne : queue.results.delivered.size ≠ number := by
    intro heq
    rw [heq, he] at hfirst
    cases hfirst
  exact ⟨⟨queue.results.delivered.size, by omega⟩, by simpa using by omega, hfirst⟩

/-- Whose outcome is missing waits, when nobody has a turn to come. -/
theorem waiting_of_missing (h : Regular none queue) (ht : queue.turns.toList = []) {i : Fin count}
    (hi : queue.results.outcomes[(i : Nat)]? = some none) :
    ∃ s, queue.waiting.get? i = some s := by
  rcases h.under_way i hi with hf | hturn | hw
  · cases hf
  · rw [← Turns.mem_toList, ht] at hturn
    cases hturn
  · exact hw

end Regular

/-- What is known of the outcomes, of the members that wait, and of those among them that have no
turn to come. -/
structure Orderly (Came : Fin count → Except Error β → Prop)
    (Rests Sleeps : (i : Fin count) → (members i).State → Prop) (turn : Option (Fin count))
    (queue : Queue members) : Prop extends Regular turn queue where
  came : ∀ (i : Fin count) outcome, queue.results.outcomes[(i : Nat)]? = some (some outcome) →
    Came i outcome
  rests : ∀ i s, queue.waiting.get? i = some s → Rests i s
  sleeps : ∀ i s, queue.waiting.get? i = some s → i ∉ queue.turns → Sleeps i s

variable {Came : Fin count → Except Error β → Prop}
  {Rests Sleeps : (i : Fin count) → (members i).State → Prop}

theorem orderly_start (Came : Fin count → Except Error β → Prop)
    (Rests Sleeps : (i : Fin count) → (members i).State → Prop) :
    Orderly Came Rests Sleeps none (start members) := by
  have ho : (start members).results.outcomes = List.replicate count none :=
    Results.outcomes_empty count
  have hw : ∀ i, (start members).waiting.get? i = none := fun i => Std.DTreeMap.get?_emptyc
  have ht : ∀ i, i ∈ (start members).turns := by
    intro i
    simp [← Turns.mem_toList, start]
  refine ⟨⟨?_, Results.settled_empty count, ?_, ?_, ?_, ?_, ?_⟩, ?_, ?_, ?_⟩
  · simp [ho]
  · simpa [start] using List.nodup_finRange count
  · simp [hw]
  · simp [ho]
  · exact fun i _ => .inr (.inl (ht i))
  · simp
  · simp [ho]
  · simp [hw]
  · simp [hw]

namespace Orderly

theorem imp {Came' : Fin count → Except Error β → Prop}
    {Rests' Sleeps' : (i : Fin count) → (members i).State → Prop}
    (h : Orderly Came Rests Sleeps turn queue)
    (hc : ∀ i outcome, Came i outcome → Came' i outcome)
    (hr : ∀ i s, queue.waiting.get? i = some s → Rests i s → Rests' i s)
    (hs : ∀ i s, queue.waiting.get? i = some s → Sleeps i s → Sleeps' i s) :
    Orderly Came' Rests' Sleeps' turn queue :=
  { h with
    came := fun i outcome ho => hc i outcome (h.came i outcome ho)
    rests := fun i s hi => hr i s hi (h.rests i s hi)
    sleeps := fun i s hi hn => hs i s hi (h.sleeps i s hi hn) }

/-- The member that is next leaves the queue for its turn. -/
theorem of_next? (h : Orderly Came Rests Sleeps none queue) {i : Fin count}
    {state : Option (members i).State} {rest : Queue members}
    (hn : queue.next? = some (⟨i, state⟩, rest)) :
    Orderly Came Rests Sleeps (some i) rest ∧ (∀ s, state = some s → Rests i s) ∧
      rest.results = queue.results := by
  obtain ⟨-, hstate, -, hresults⟩ := Queue.of_next? hn
  obtain ⟨hi, hnodup⟩ := List.nodup_cons.1 (toList_turns_of_next? hn ▸ h.nodup)
  rw [Turns.mem_toList] at hi
  have hmem : ∀ j, j ∈ queue.turns ↔ j = i ∨ j ∈ rest.turns := fun j => mem_turns_of_next? hn
  refine ⟨⟨⟨?_, ?_, hnodup, ?_, ?_, ?_, ?_⟩, ?_, ?_, ?_⟩, fun s hs => h.rests i s (hstate.trans hs),
    hresults⟩
  · exact hresults ▸ h.length_outcomes
  · exact hresults ▸ h.settled
  · exact fun j s hs => hresults ▸ h.missing_of_waiting j s (waiting_of_rest hn hs).2
  · exact fun j hj => hresults ▸ h.missing_of_turn j ((hmem j).2 (.inr hj))
  · intro j hj
    by_cases he : j = i
    · exact .inl (by rw [he])
    · rcases h.under_way j (hresults ▸ hj) with hf | ht | ⟨s, hs⟩
      · cases hf
      · exact .inr (.inl (((hmem j).1 ht).resolve_left he))
      · exact .inr (.inr ⟨s, (get?_waiting_of_next? hn he).trans hs⟩)
  · rintro _ ⟨⟩
    exact ⟨hresults ▸ h.missing_of_turn i ((hmem i).2 (.inl rfl)), hi, get?_self_of_next? hn⟩
  · exact hresults ▸ h.came
  · exact fun j s hs => h.rests j s (waiting_of_rest hn hs).2
  · intro j s hs hj
    obtain ⟨hne, hs⟩ := waiting_of_rest hn hs
    exact h.sleeps j s hs fun ht => ((hmem j).1 ht).elim hne hj

/-- A member that waits is put back. -/
theorem putBack {i : Fin count} {s : (members i).State} {news : Bool}
    (h : Orderly Came Rests Sleeps (some i) queue) (hr : Rests i s)
    (ha : news = false → Sleeps i s) :
    Orderly Came Rests Sleeps none (queue.putBack ⟨i, s⟩ news) := by
  obtain ⟨hmissing, hi, hnone⟩ := h.away i rfl
  have hself : (queue.putBack ⟨i, s⟩ news).waiting.get? i = some s :=
    get?_waiting_putBack queue ⟨i, s⟩ news
  refine ⟨⟨h.length_outcomes, h.settled, ?_, ?_, ?_, ?_, nofun⟩, h.came, ?_, ?_⟩
  · cases news with
    | false => simpa [Queue.putBack] using h.nodup
    | true =>
      have hi' : i ∉ queue.turns.toList := by simpa using hi
      rw [toList_turns_putBack]
      exact (List.perm_append_singleton i _).nodup_iff.2 (List.nodup_cons.2 ⟨hi', h.nodup⟩)
  · exact forall_waiting_putBack (P := fun j _ => queue.results.outcomes[(j : Nat)]? = some none)
      hmissing h.missing_of_waiting
  · intro j hj
    rcases mem_turns_putBack.1 hj with ⟨-, rfl⟩ | hj
    · exact hmissing
    · exact h.missing_of_turn j hj
  · intro j hj
    rcases h.under_way j hj with he | ht | ⟨t, ht⟩
    · obtain rfl := Option.some.inj he
      exact .inr (.inr ⟨s, hself⟩)
    · exact .inr (.inl (mem_turns_putBack.2 (.inr ht)))
    · refine .inr (.inr ?_)
      by_cases he : j = i
      · subst j
        exact ⟨s, hself⟩
      · exact ⟨t, (get?_waiting_putBack_of_ne he).trans ht⟩
  · exact forall_waiting_putBack hr h.rests
  · refine forall_waiting_putBack (P := fun j t => j ∉ (queue.putBack ⟨i, s⟩ news).turns → Sleeps j t)
      (fun hj => ha ?_) fun j t ht hj => h.sleeps j t ht (mt (mem_turns_putBack.2 ∘ .inr) hj)
    simpa using mt (fun hnews => mem_turns_putBack.2 (.inl ⟨hnews, rfl⟩)) hj

/-- The outcome of a member takes its place among the others. -/
theorem put {i : Fin count} {outcome : Except Error β} {results : Results β}
    (h : Orderly Came Rests Sleeps (some i) queue) (hc : Came i outcome)
    (hp : queue.results.put i outcome = .ok results) :
    Orderly Came Rests Sleeps none { queue with results } := by
  obtain ⟨hmissing, hi, hnone⟩ := h.away i rfl
  have ho := Results.outcomes_put hp hmissing
  have hother : ∀ j : Fin count, j ≠ i →
      results.outcomes[(j : Nat)]? = queue.results.outcomes[(j : Nat)]? := by
    intro j hne
    have hne : (i : Nat) ≠ j := fun he => hne (Fin.ext he.symm)
    simp [ho, List.getElem?_set_ne hne]
  have hself : results.outcomes[(i : Nat)]? = some (some outcome) := by
    have hlt : (i : Nat) < queue.results.outcomes.length := by
      rw [h.length_outcomes]
      exact i.isLt
    simp [ho, hlt]
  refine ⟨⟨?_, Results.settled_put hp, h.nodup, ?_, ?_, ?_, ?_⟩, ?_, h.rests, h.sleeps⟩
  · simpa [ho] using h.length_outcomes
  · intro j s hs
    have hne : j ≠ i := by
      rintro rfl
      simp [hnone] at hs
    exact (hother j hne).trans (h.missing_of_waiting j s hs)
  · intro j hj
    have hne : j ≠ i := fun he => hi (he ▸ hj)
    exact (hother j hne).trans (h.missing_of_turn j hj)
  · intro j hj
    have hne : j ≠ i := by
      rintro rfl
      simp [hself] at hj
    rcases h.under_way j (hother j hne ▸ hj) with he | hu
    · exact absurd (Option.some.inj he).symm hne
    · exact .inr hu
  · simp
  · intro j other hj
    by_cases he : j = i
    · subst j
      obtain rfl : outcome = other := by simpa [hself] using hj
      exact hc
    · exact h.came j other (hother j he ▸ hj)

/-- What is known of a member that waits stays known, if hearing leaves it so. -/
theorem hear (path : List Nat) (h : Orderly Came Rests Sleeps turn queue)
    (hh : ∀ i s rest, Rests i s → Rests i ((members i).hear rest s)) :
    Orderly Came Rests Sleeps turn (hear path queue) := by
  have hresults := results_hear path queue
  have hturns : ∀ j, j ∈ (Queue.hear path queue).turns →
      j ∈ queue.turns ∨ ∃ s, queue.waiting.get? j = some s := fun j => of_mem_turns_hear
  refine ⟨⟨hresults ▸ h.length_outcomes, hresults ▸ h.settled, nodup_hear path h.nodup, ?_, ?_, ?_, ?_⟩,
    hresults ▸ h.came, ?_, ?_⟩
  · intro j t ht
    obtain ⟨earlier, hearlier, -⟩ := of_get?_hear ht
    exact hresults ▸ h.missing_of_waiting j earlier hearlier
  · intro j hj
    rcases hturns j hj with hj | ⟨s, hs⟩
    · exact hresults ▸ h.missing_of_turn j hj
    · exact hresults ▸ h.missing_of_waiting j s hs
  · intro j hj
    rcases h.under_way j (hresults ▸ hj) with ht | ht | ⟨t, ht⟩
    · exact .inl ht
    · exact .inr (.inl (mem_turns_hear ht))
    · obtain ⟨later, hl, -⟩ := exists_get?_hear path ht
      exact .inr (.inr ⟨later, hl⟩)
  · intro j hj
    obtain ⟨hmissing, hnot, hget⟩ := h.away j hj
    have hnone : ∀ s, queue.waiting.get? j ≠ some s := by simp [hget]
    refine ⟨hresults ▸ hmissing, fun ht => (hturns j ht).elim hnot fun ⟨s, hs⟩ => hnone s hs, ?_⟩
    cases ht : (Queue.hear path queue).waiting.get? j with
    | none => rfl
    | some t =>
      obtain ⟨earlier, hearlier, -⟩ := of_get?_hear ht
      exact absurd hearlier (hnone earlier)
  · intro j t ht
    obtain ⟨earlier, hearlier, ⟨-, rfl⟩ | ⟨-, more, -, rfl⟩⟩ := of_get?_hear ht
    · exact h.rests j t hearlier
    · exact hh j earlier more (h.rests j earlier hearlier)
  · intro j t ht hj
    obtain ⟨earlier, hearlier, ⟨-, rfl⟩ | ⟨hturn, -⟩⟩ := of_get?_hear ht
    · exact h.sleeps j t hearlier (mt mem_turns_hear hj)
    · exact absurd hturn hj

end Orderly
end Queue
end Process
end Stencil
