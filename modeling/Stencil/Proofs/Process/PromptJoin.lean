import Stencil.Proofs.Process.Prompt

/-!
# Joins that fail in time

A sweep advances every member that waits, in order, so it ends with the failure of the first member
that fails. A queue ends with a failure only when everything before it has been delivered.
-/

namespace Stencil

namespace Results

variable {β : Type} {results : Results β} {number : Nat} {outcome : Except Error β} {error : Error}

/-- A failure is delivered when everything before it has been. -/
theorem first_of_deliver_error {delivered : Array β} {ahead : List (Option (Except Error β))}
    (h : deliver delivered ahead = .error error) : ∃ n : Nat, ahead[n]? = some (some (.error error)) ∧
      ∀ m < n, ∃ result, ahead[m]? = some (some (.ok result)) := by
  fun_induction deliver delivered ahead with
  | case1 delivered result ahead ih =>
    obtain ⟨n, hn, hbefore⟩ := ih h
    refine ⟨n + 1, hn, fun m hm => ?_⟩
    cases m with
    | zero => exact ⟨result, rfl⟩
    | succ m => exact hbefore m (by omega)
  | case2 =>
    cases h
    exact ⟨0, rfl, fun m hm => absurd hm (Nat.not_lt_zero m)⟩
  | case3 => cases h

theorem first_of_put_error (hm : results.outcomes[number]? = some none)
    (h : results.put number outcome = .error error) :
    ∃ n : Nat, (results.outcomes.set number (some outcome))[n]? = some (some (.error error)) ∧
      ∀ m < n, ∃ result, (results.outcomes.set number (some outcome))[m]? = some (some (.ok result)) := by
  have hsize : (results.delivered.toList.map (some ∘ (.ok : β → Except Error β))).length ≤ number := by
    simpa using size_le_of_missing hm
  obtain ⟨n, hn, hbefore⟩ := first_of_deliver_error h
  have hset : results.outcomes.set number (some outcome) =
      results.delivered.toList.map (some ∘ .ok) ++
        results.ahead.set (number - results.delivered.size) (some outcome) := by
    rw [outcomes, List.set_append_right _ _ hsize]
    simp
  refine ⟨results.delivered.size + n, ?_, fun m hlt => ?_⟩
  · rw [hset, List.getElem?_append_right (by simp)]
    simpa using hn
  · rw [hset]
    rcases Nat.lt_or_ge m results.delivered.size with hd | hd
    · rw [List.getElem?_append_left (by simpa using hd)]
      exact ⟨results.delivered[m], by simp [hd]⟩
    · rw [List.getElem?_append_right (by simpa using hd)]
      simpa using hbefore (m - results.delivered.size) (by omega)

/-- Before a failure that has not been delivered something is missing. -/
theorem exists_missing_before (hs : results.Settled)
    (h : results.outcomes[number]? = some (some (.error error))) :
    ∃ m < number, results.outcomes[m]? = some none := by
  have hsize : results.delivered.size ≤ number := by
    by_contra hlt
    have hlt : number < results.delivered.size := by omega
    rw [outcomes, List.getElem?_append_left (by simpa using hlt)] at h
    simp [hlt] at h
  have hahead : results.ahead[number - results.delivered.size]? = some (some (.error error)) := by
    rw [outcomes, List.getElem?_append_right (by simpa using hsize)] at h
    simpa using h
  have hhead : results.outcomes[results.delivered.size]? = results.ahead.head? := by
    rw [outcomes, List.getElem?_append_right (by simp)]
    simp [List.head?_eq_getElem?]
  cases ha : results.ahead with
  | nil => simp [ha] at hahead
  | cons entry ahead =>
    cases entry with
    | some outcome => exact absurd (by simp [ha]) (hs outcome)
    | none =>
      have hmissing : results.outcomes[results.delivered.size]? = some none := by
        rw [hhead, ha]
        rfl
      refine ⟨_, Nat.lt_of_le_of_ne hsize ?_, hmissing⟩
      rintro rfl
      rw [hmissing] at h
      cases h

end Results

namespace Process

variable {β : Type} {host : Host} {count : Nat} {plans : Fin count → Plan β}
  {members : Fin count → Process β} {laws : ∀ i, Lawful host (plans i) (members i)}
  (prompts : ∀ i, Prompt bound (laws i)) {place : Place} {store : Store}

namespace Sweep

/-- What an entry that has been passed says about the failure of the member of a number. -/
def Entered (store : Store) (i : Fin count) : Entry members → Prop
  | .inl result => (plans i).result? host (store.isReady host) = some result
  | .inr ⟨_, none⟩ => False
  | .inr ⟨j, some s⟩ =>
    j = i ∧ (prompts j).Holds s store ∧ (¬ (plans j).Queues host (store.isReady host) →
      (plans j).result? host (store.isReady host) = none ∧
        (plans j).failure? host bound (store.isReady host) = none)

/-- What a pass says about the failures of the members. -/
def Passes (is : List (Fin count)) (pass : Pass members) : Prop :=
  let ready := pass.store.isReady host
  match pass.halt with
  | none => List.Forall₂ (Entered prompts pass.store) is pass.entries
  | some (.failed error) =>
    ∃ front i back, is = front ++ i :: back ∧ ((plans i).failure? host bound ready).isSome ∧
      (¬ (plans i).Queues host ready → (plans i).failure? host bound ready = some error) ∧
      ∀ j ∈ front, ¬ (plans j).Queues host ready → (plans j).failure? host bound ready = none
  | some .exhausted => True

variable {prompts}

theorem Entered.of_steps {i : Fin count} {entry : Entry members} {mine : Place → Prop}
    {begins : PendingId → Prop} {after : Store} (h : Entered prompts store i entry)
    (hs : store.Steps host mine begins after) : Entered prompts after i entry := by
  match entry with
  | .inl result =>
    rw [Entered, hs.isReady_eq]
    exact h
  | .inr ⟨_, none⟩ => exact h
  | .inr ⟨j, some s⟩ =>
    obtain ⟨rfl, hholds, hnone⟩ := h
    exact ⟨rfl, (prompts j).holds_of_steps hholds hs, hs.isReady_eq.symm ▸ hnone⟩

theorem Entered.failure? {i : Fin count} {entry : Entry members}
    (h : Entered prompts store i entry) (hq : ¬ (plans i).Queues host (store.isReady host)) :
    (plans i).failure? host bound (store.isReady host) = none := by
  match entry with
  | .inl result => exact Plan.failure?_of_result? h
  | .inr ⟨_, none⟩ => exact h.elim
  | .inr ⟨j, some s⟩ =>
    obtain ⟨rfl, -, hnone⟩ := h
    exact (hnone hq).2

theorem entered_of_mem {is : List (Fin count)} {entries : List (Entry members)}
    (h : List.Forall₂ (Entered prompts store) is entries) {i : Fin count} {s : (members i).State}
    (hi : .inr ⟨i, some s⟩ ∈ entries) : Entered prompts store i (.inr ⟨i, some s⟩) := by
  induction h with
  | nil => cases hi
  | cons hj _ ih =>
    rcases List.mem_cons.1 hi with rfl | hi
    · exact ⟨rfl, hj.2⟩
    · exact ih hi

/-- One more entry in front of a pass over the rest. -/
theorem passes_after {is : List (Fin count)} {i : Fin count} {pass : Pass members}
    {entry : Entry members} {middle : Store} {mine : Place → Prop} {begins : PendingId → Prop}
    {news : Bool} (he : Entered prompts middle i entry)
    (hs : middle.Steps host mine begins pass.store) (h : Passes prompts is pass) :
    Passes prompts (i :: is) (pass.after entry news) := by
  have he' := he.of_steps hs
  obtain ⟨entries, halt, anews, after⟩ := pass
  match halt with
  | none => exact .cons he' h
  | some (.failed error) =>
    obtain ⟨front, j, back, rfl, hj, herror, hfront⟩ := h
    refine ⟨i :: front, j, back, rfl, hj, herror, fun k hk hq => ?_⟩
    rcases List.mem_cons.1 hk with rfl | hk
    · exact he'.failure? hq
    · exact hfront k hk hq
  | some .exhausted => trivial

theorem pass_passes {is : List (Fin count)} (hd : is.Nodup) {entries : List (Entry members)}
    (h : store.Sound host) (he : List.Forall₂ (Sound laws place store) is entries)
    (hholds : ∀ i s, .inr ⟨i, some s⟩ ∈ entries → (prompts i).Holds s store) :
    Passes prompts is (pass place entries store) := by
  induction is generalizing entries store with
  | nil =>
    cases he
    exact .nil
  | cons i is ih =>
    obtain ⟨hnot, hd'⟩ := List.nodup_cons.1 hd
    cases he with
    | @cons _ entry _ entries hi his =>
    have hholds' : ∀ j s, .inr ⟨j, some s⟩ ∈ entries → (prompts j).Holds s store :=
      fun j s hj => hholds j s (List.mem_cons_of_mem _ hj)
    cases entry with
    | inl result =>
      exact passes_after hi.1 (pass_came hd' h his).1 (ih hd' h his hholds')
    | inr unfinished =>
      obtain ⟨j, state⟩ := unfinished
      obtain ⟨rfl, hstate⟩ := hi
      have hstateholds : ∀ s, state = some s → (prompts j).Holds s store := by
        rintro s rfl
        exact hholds j s (List.mem_cons_self ..)
      have hs := (laws j).steps h hstate
      have hr := (laws j).reaches h hstate
      have hc := (prompts j).comes h hstate hstateholds
      simp only [pass]
      generalize (members j).advance (j :: place) state store = turn at hs hr hc
      obtain ⟨reached, news, after⟩ := turn
      have hafter : List.Forall₂ (Sound laws place after) is entries := by
        refine sound_of_steps his hs fun k hk part hp hp' => hnot ?_
        rwa [← Fin.ext (eq_of_cons_suffix hp hp')]
      have hgo := ih hd' hs.sound hafter fun k s hk =>
        (prompts k).holds_of_steps (hholds' k s hk) hs
      have hsteps := (pass_came hd' hs.sound hafter).1
      cases reached with
      | ended outcome =>
        cases outcome with
        | ok result => exact passes_after hr.1 hsteps hgo
        | error error =>
          have hready : after.isReady host = store.isReady host := hs.isReady_eq
          refine ⟨[], j, is, rfl, ?_, ?_, ?_⟩
          · exact hready ▸ hc.1
          · exact hready ▸ hc.2
          · simp
      | exhausted => trivial
      | waiting s =>
        refine passes_after ⟨rfl, hc.1, ?_⟩ hsteps hgo
        exact hs.isReady_eq.symm ▸ hc.2

end Sweep

open Sweep

variable {prompts}

/-- Every advance of a sweep is a pass. -/
theorem sweep_comes (hc : count ≤ sweepLimit) (h : store.Sound host)
    {state : Option (List (Entry members))}
    (hrest : ∀ s, state = some s → (View.sweep laws).Rests host place s store)
    (hholds : ∀ i s, .inr ⟨i, some s⟩ ∈ state.getD (fresh members) → (prompts i).Holds s store) :
    Comes host bound (.join count plans .done) (store.isReady host)
      (fun (entries : List (Entry members)) store =>
        ∀ i s, .inr ⟨i, some s⟩ ∈ entries → (prompts i).Holds s store)
      ((Process.sweep members).advance place state store) := by
  have hqueues : ∀ {ready}, ¬ (Plan.join count plans .done).Queues host ready →
      ∀ i, ¬ (plans i).Queues host ready := fun hq i hi => hq (.inr (.inl ⟨i, hi⟩))
  have he := sweep_sound hrest
  obtain ⟨hs, hcame⟩ := pass_came (List.nodup_finRange count) h he
  have hp := pass_passes (List.nodup_finRange count) h he hholds
  rw [← hs.isReady_eq]
  dsimp only [Process.sweep]
  generalize pass place (state.getD (fresh members)) store = pass at hs hcame hp
  obtain ⟨entries, halt, news, after⟩ := pass
  match halt with
  | none =>
    cases hm : entries.mapM Sum.getLeft? with
    | some results => trivial
    | none =>
      refine ⟨fun i s hi => (entered_of_mem hp hi).2.1, fun hq => ⟨?_, ?_⟩⟩
      · obtain ⟨i, s, hi⟩ := exists_waiting hcame.2 hm
        exact Plan.result?_join_of_none ((entered_of_mem hp hi).2.2 (hqueues hq i)).1
      · refine Plan.failure?_join_eq_none_of_le hc fun i => ?_
        obtain ⟨entry, -, hentry⟩ := exists_of_mem_of_forall₂ hp (List.mem_finRange i)
        exact hentry.failure? (hqueues hq i)
  | some (.failed error) =>
    obtain ⟨front, i, back, hi, hfails, herror, hfront⟩ := hp
    refine ⟨(Plan.isSome_failure?_join_of_le hc).2 ⟨i, hfails⟩, fun hq => ?_⟩
    exact Plan.failure?_join_of_first hc hi (herror (hqueues hq i)) fun j hj =>
      hfront j hj (hqueues hq j)
  | some .exhausted => trivial

variable (prompts) in
/-- A small join fails in time if its members do. -/
def Prompt.sweep (hc : count ≤ sweepLimit) : Prompt bound (Lawful.sweep laws) where
  Holds (entries : List (Entry members)) store :=
    ∀ i s, .inr ⟨i, some s⟩ ∈ entries → (prompts i).Holds s store
  holds_mono hr h i s hi := (prompts i).holds_mono hr (h i s hi)
  holds_hear path h i s hi := by
    obtain ⟨earlier, he, ⟨-, rfl⟩ | ⟨rest, -, rfl⟩⟩ := of_mem_hear hi
    · exact h i s he
    · exact (prompts i).holds_hear rest (h i earlier he)
  comes {place state store} h hrest hholds := by
    refine sweep_comes hc h hrest fun i s hi => ?_
    match state with
    | none =>
      obtain ⟨j, -, hj⟩ := List.mem_map.1 hi
      cases hj
    | some entries => exact hholds entries rfl i s hi
  asleep {place entries store} hs h hholds := by
    obtain ⟨hpast, -⟩ := hs
    refine Plan.failure?_join_eq_none_of_le hc fun i => ?_
    obtain ⟨entry, he, hp⟩ := exists_of_mem_of_forall₂ hpast (List.mem_finRange i)
    match entry with
    | .inl result => exact Plan.failure?_of_result? hp.1
    | .inr ⟨j, state⟩ =>
      obtain ⟨rfl, s, rfl, hstands⟩ := hp
      have hasleep : (laws j).Asleep host (j :: place) s store :=
        ⟨h.idle j s he, fun id number part hw => h.not_ready id number part ⟨j, s, he, hw⟩⟩
      exact (prompts j).asleep hstands hasleep (hholds j s he)

namespace Queue

variable (prompts) in
/-- What has failed in a queue is bound to fail the member. -/
structure Holds (store : Store) (queue : Queue members) : Prop where
  fails : ∀ (i : Fin count) error, queue.results.outcomes[(i : Nat)]? = some (some (.error error)) →
    ((plans i).failure? host bound (store.isReady host)).isSome
  waiting : ∀ i s, queue.waiting.get? i = some s → (prompts i).Holds s store

variable {queue : Queue members}

theorem Holds.mono {after : Store}
    (hr : ∀ id, store.isReady host id = true → after.isReady host id = true)
    (h : Holds prompts store queue) : Holds prompts after queue where
  fails i error hi := Plan.isSome_failure?_mono hr (h.fails i error hi)
  waiting i s hs := (prompts i).holds_mono hr (h.waiting i s hs)

theorem holds_start : Holds prompts store (start members) where
  fails i error hi := by
    have ho : (start members).results.outcomes = List.replicate count none :=
      Results.outcomes_empty count
    simp [ho] at hi
  waiting i s hs := by
    have hw : (start members).waiting.get? i = none := Std.DTreeMap.get?_emptyc
    simp [hw] at hs

theorem Holds.of_next? (h : Holds prompts store queue) {i : Fin count}
    {state : Option (members i).State} {rest : Queue members}
    (hn : queue.next? = some (⟨i, state⟩, rest)) :
    (∀ s, state = some s → (prompts i).Holds s store) ∧ Holds prompts store rest := by
  obtain ⟨-, hstate, -, hresults⟩ := Queue.of_next? hn
  refine ⟨fun s hs => h.waiting i s (hstate.trans hs), ?_, fun j s hs => ?_⟩
  · exact hresults ▸ h.fails
  · exact h.waiting j s (waiting_of_rest hn hs).2

theorem Holds.putBack {i : Fin count} {s : (members i).State} {news : Bool}
    (h : Holds prompts store queue) (hs : (prompts i).Holds s store) :
    Holds prompts store (queue.putBack ⟨i, s⟩ news) :=
  ⟨h.fails, forall_waiting_putBack hs h.waiting⟩

/-- The outcomes when one more has come. -/
theorem of_getElem?_set {i j : Fin count} {outcome other : Except Error β}
    {outcomes : List (Option (Except Error β))}
    (h : (outcomes.set i (some outcome))[(j : Nat)]? = some (some other)) :
    j = i ∧ outcome = other ∨ outcomes[(j : Nat)]? = some (some other) := by
  rw [List.getElem?_set] at h
  split at h
  · rename_i he
    split at h
    · exact .inl ⟨Fin.ext he.symm, by simpa using h⟩
    · cases h
  · exact .inr h

theorem Holds.put {i : Fin count} {outcome : Except Error β} {results : Results β}
    (h : Holds prompts store queue) (hmissing : queue.results.outcomes[(i : Nat)]? = some none)
    (hfails : ∀ error, outcome = .error error →
      ((plans i).failure? host bound (store.isReady host)).isSome)
    (hp : queue.results.put i outcome = .ok results) :
    Holds prompts store { queue with results } := by
  refine ⟨fun j error hj => ?_, h.waiting⟩
  rw [Results.outcomes_put hp hmissing] at hj
  rcases of_getElem?_set hj with ⟨rfl, he⟩ | hj
  · exact hfails error he
  · exact h.fails j error hj

/-- A failure of the queue is one of the first member without a result. -/
theorem Holds.first_of_put {i : Fin count} {outcome : Except Error β} {error : Error}
    (h : Holds prompts store queue) (hsound : Sound laws (some i) place store queue)
    (hcame : Came host plans store i outcome)
    (hfails : ∀ error, outcome = .error error →
      ((plans i).failure? host bound (store.isReady host)).isSome)
    (hp : queue.results.put i outcome = .error error) :
    ∃ j, ((plans j).failure? host bound (store.isReady host)).isSome ∧
      ∀ k < j, ((plans k).result? host (store.isReady host)).isSome := by
  obtain ⟨n, hn, hbefore⟩ := Results.first_of_put_error (hsound.away i rfl).1 hp
  have hlt : n < count := by
    have hlength := (List.getElem?_eq_some_iff.1 hn).1
    rwa [List.length_set, hsound.length_outcomes] at hlength
  refine ⟨⟨n, hlt⟩, ?_, fun k hk => ?_⟩
  · have hj : (queue.results.outcomes.set i (some outcome))[((⟨n, hlt⟩ : Fin count) : Nat)]? =
        some (some (.error error)) := hn
    rcases of_getElem?_set hj with ⟨rfl, he⟩ | hj
    · exact hfails error he
    · exact h.fails _ error hj
  · obtain ⟨result, hresult⟩ := hbefore k hk
    have hk : (plans k).result? host (store.isReady host) = some result := by
      rcases of_getElem?_set hresult with ⟨rfl, rfl⟩ | hresult
      · exact hcame.1
      · exact (hsound.came k (.ok result) hresult).1
    rw [hk]
    rfl

variable (prompts) in
/-- What a stretch says about the failures of the members. -/
def Stretches (ready : PendingId → Bool)
    (advance : Advance (Queue members) (Queue members)) : Prop :=
  match advance.reached with
  | .ended (.ok queue) => Holds prompts advance.store queue
  | .ended (.error _) =>
    ∃ i, ((plans i).failure? host bound ready).isSome ∧ ∀ j < i, ((plans j).result? host ready).isSome
  | .exhausted => True
  | .waiting queue => Holds prompts advance.store queue

/-- A turn of the member that is next, and what is known of the others after it. -/
theorem Holds.take_turn (hholds : Holds prompts store queue) (hs : store.Sound host)
    (h : Sound laws none place store queue) {i : Fin count} {state : Option (members i).State}
    {rest : Queue members} (hn : queue.next? = some (⟨i, state⟩, rest)) :
    let turn := (members i).advance (i :: place) state store
    turn.store.isReady host = store.isReady host ∧
      Comes host bound (plans i) (turn.store.isReady host) (prompts i).Holds turn ∧
      Holds prompts turn.store rest := by
  intro turn
  obtain ⟨-, hstate, -⟩ := h.of_next? hn
  obtain ⟨hstateholds, hrestholds⟩ := hholds.of_next? hn
  have hready : turn.store.isReady host = store.isReady host :=
    ((laws i).steps hs hstate).isReady_eq
  refine ⟨hready, ?_, hrestholds.mono fun id hid => hready.symm ▸ hid⟩
  rw [hready]
  exact (prompts i).comes hs hstate hstateholds

theorem stretch_holds (left patience : Nat) (news : Bool) (hs : store.Sound host)
    (h : Sound laws none place store queue) (hholds : Holds prompts store queue) :
    Stretches prompts (store.isReady host) (stretch place left patience queue news store) := by
  refine Account.stretch_induction (fun _ => .silent) place
    (motive := fun _ _ queue _ store _ advance => store.Sound host →
      Sound laws none place store queue → Holds prompts store queue →
      Stretches prompts (store.isReady host) advance)
    ?spent ?idle ?put ?fails ?exhausted ?goes left patience queue news store hs h hholds
  case spent => exact fun _ _ _ hholds => hholds
  case idle => exact fun _ _ _ hholds => hholds
  case put =>
    intro _ _ _ _ _ i _ rest outcome _ _ results hn hturn hp hs h hholds
    obtain ⟨-, -, hafter⟩ := hturn ▸ h.take_turn hs hn
    obtain ⟨-, hc, hrest⟩ := hturn ▸ hholds.take_turn hs h hn
    refine hrest.put (hafter.away i rfl).1 (fun error he => ?_) hp
    subst he
    exact hc.1
  case fails =>
    intro _ _ _ _ _ i _ rest outcome _ _ error hn hturn hp hs h hholds
    obtain ⟨-, hr, hafter⟩ := hturn ▸ h.take_turn hs hn
    obtain ⟨hready, hc, hrest⟩ := hturn ▸ hholds.take_turn hs h hn
    rw [← hready]
    refine hrest.first_of_put hafter (came_of_reaches hr) (fun error he => ?_) hp
    subst he
    exact hc.1
  case exhausted => intros; trivial
  case goes =>
    intro _ _ _ _ _ i _ rest s anews _ _ _ hn hturn ih hs h hholds
    obtain ⟨hst, hr, hafter⟩ := hturn ▸ h.take_turn hs hn
    obtain ⟨hready, hc, hrest⟩ := hturn ▸ hholds.take_turn hs h hn
    rw [← hready]
    exact ih hst.sound (hafter.putBack hr.1 hr.2) (hrest.putBack hc.1)

theorem stretches_comes (hc : sweepLimit < count) {missing : Nat} {news : Bool}
    (hs : store.Sound host) (h : Sound laws none place store queue)
    (hholds : Holds prompts store queue) (hm : queue.results.missing = missing) :
    Comes host bound (.join count plans .done) (store.isReady host)
      (fun queue store => Holds prompts store queue) (stretches place missing queue news store) := by
  induction missing generalizing queue news store with
  | zero => trivial
  | succ missing ih =>
    have hqueues : ∀ {ready}, (Plan.join count plans .done).Queues host ready := .inl hc
    obtain ⟨hst, hcame⟩ := stretch_came (missing + 1) patience news hs h
    have hstretches := stretch_holds (missing + 1) patience news hs h hholds
    simp only [stretches]
    generalize stretch place (missing + 1) patience queue news store = advance at hst hcame hstretches
    obtain ⟨reached, anews, after⟩ := advance
    cases reached with
    | ended outcome =>
      cases outcome with
      | ok later =>
        obtain ⟨hsound, hmissing⟩ := hcame
        rw [← show after.isReady host = store.isReady host from hst.isReady_eq]
        exact ih hst.sound hsound hstretches (by omega)
      | error error =>
        exact ⟨(Plan.isSome_failure?_join_of_lt hc).2 hstretches, fun hq => absurd hqueues hq⟩
    | exhausted => trivial
    | waiting later => exact ⟨hstretches, fun hq => absurd hqueues hq⟩

end Queue

open Queue

/-- A queue at rest in which nobody has a turn to come does not fail. -/
theorem queue_asleep_failure? (hc : sweepLimit < count) {queue : Queue members}
    (hs : (View.queue laws).Stands queue store)
    (h : (View.queue laws).Asleep host place queue store) (hholds : Queue.Holds prompts store queue) :
    (Plan.join count plans .done).failure? host bound (store.isReady host) = none := by
  obtain ⟨hpast, -⟩ := hs
  have hmember : ∀ i s, queue.waiting.get? i = some s →
      (laws i).Asleep host (i :: place) s store := fun i s hi =>
    ⟨h.idle.2 i s hi, fun id number part hw => h.not_ready id number part ⟨i, s, hi, hw⟩⟩
  have hwaiting : ∀ i : Fin count, queue.results.outcomes[(i : Nat)]? = some none →
      ∃ s, queue.waiting.get? i = some s := by
    intro i hi
    rcases hpast.under_way i hi with hf | ht | hw
    · cases hf
    · rw [← Turns.mem_toList, h.idle.1] at ht
      cases ht
    · exact hw
  rw [← Option.not_isSome_iff_eq_none, Plan.isSome_failure?_join_of_lt hc]
  rintro ⟨i, hi, hbefore⟩
  have hlt : (i : Nat) < queue.results.outcomes.length := by
    rw [hpast.length_outcomes]
    exact i.isLt
  have hget := List.getElem?_eq_getElem hlt
  match ho : queue.results.outcomes[(i : Nat)] with
  | none =>
    obtain ⟨s, hs⟩ := hwaiting i (ho ▸ hget)
    rw [(prompts i).asleep (hpast.stands i s hs) (hmember i s hs) (hholds.waiting i s hs)] at hi
    cases hi
  | some (.ok result) =>
    rw [Plan.failure?_of_result? (hpast.came i (.ok result) (ho ▸ hget)).1] at hi
    cases hi
  | some (.error error) =>
    -- it waits for the delivery of a member before it
    obtain ⟨m, hm, hmissing⟩ := Results.exists_missing_before hpast.settled (ho ▸ hget)
    have hmlt : m < count := hm.trans i.isLt
    obtain ⟨s, hs⟩ := hwaiting ⟨m, hmlt⟩ hmissing
    have hnone := ((laws ⟨m, hmlt⟩).blocked (hpast.stands _ s hs) (hmember _ s hs)).2.1
    have hsome := hbefore ⟨m, hmlt⟩ hm
    rw [hnone] at hsome
    cases hsome

variable (prompts) in
/-- A large join fails in time if its members do. -/
def Prompt.queue (hc : sweepLimit < count) : Prompt bound (Lawful.queue laws) where
  Holds (queue : Queue members) store := Queue.Holds prompts store queue
  holds_mono hr h := Queue.Holds.mono hr h
  holds_hear {queue store} path h := by
    have hresults : (Queue.hear path queue).results = queue.results := by
      rcases hear_eq path queue with ⟨he, -⟩ | ⟨_, _, _, -, -, he⟩ <;> rw [he]
    refine ⟨fun i error hi => h.fails i error (hresults ▸ hi), fun i s hs => ?_⟩
    obtain ⟨earlier, he, ⟨-, rfl⟩ | ⟨-, rest, -, rfl⟩⟩ := of_get?_hear hs
    · exact h.waiting i s he
    · exact (prompts i).holds_hear rest (h.waiting i earlier he)
  comes {place state store} h hrest hholds := by
    match state with
    | none => exact stretches_comes hc h (sound_start laws place store) holds_start rfl
    | some queue =>
      exact stretches_comes hc h (queue_rests.1 (hrest queue rfl)).1 (hholds queue rfl) rfl
  asleep hs h hholds := queue_asleep_failure? hc hs h hholds

/-- It is the same for the same law, however its process is given. -/
def Prompt.cast {plan : Plan β} {process other : Process β} {law : Lawful host plan process}
    {same : Lawful host plan other} (prompt : Prompt bound law) (h : process = other)
    (hl : HEq law same) : Prompt bound same := by
  subst h
  exact eq_of_heq hl ▸ prompt

variable (prompts) in
/-- A join fails in time if its members do, whether it is swept over or they queue. -/
def Prompt.join : Prompt bound (Lawful.join laws) :=
  if h : sweepLimit < count then
    (Prompt.queue prompts h).cast (queue_eq_join h members) (Lawful.queue_heq_join h laws)
  else
    (Prompt.sweep prompts (le_sweepLimit h)).cast (sweep_eq_join h members)
      (Lawful.sweep_heq_join h laws)

end Process

open Process

variable {host : Host}

theorem Process.Prompt.fails_compile {source : Text} {tags : Tags} {store : Store} {error : Error}
    (h : store.Sound host)
    (he : (store.cache.fetch source tags).1.map CacheEntry.nodes = .error error) :
    (Plan.compile source tags .done).failure? host bound (store.isReady host) = some error := by
  have hc := (h.cache.map_nodes_fetch source tags).symm.trans he
  simp [Plan.failure?, hc]

/-- The process of a plan fails when the plan fails. -/
def Plan.prompt (hp : host.Pure) (bound : Option Error) :
    {α : Type} → (plan : Plan α) → Prompt bound (plan.lawful hp)
  | _, .done _ => .act fun _ he => by cases he
  | _, .fail _ => .act fun _ he => by cases he; rfl
  | _, .exhausted => .exhausted
  | _, .await id next => (Prompt.value host id).bind fun v => (next v).prompt hp bound
  | _, .callInline id next =>
    (Prompt.act fun _ he => by cases he).bind fun v => (next v).prompt hp bound
  | _, .callBlock id call next =>
    (Prompt.act fun _ he => by cases he).bind fun reply => (next reply).prompt hp bound
  | _, .compile source tags next =>
    (Prompt.act fun h he => Prompt.fails_compile h he).bind fun nodes => (next nodes).prompt hp bound
  | _, .join _ members next =>
    (Prompt.join fun i => (members i).prompt hp bound).bind fun results => (next results).prompt hp bound
  | _, .inner plan next =>
    (plan.prompt hp bound).announced.bind fun result => (next result).prompt hp bound

end Stencil
