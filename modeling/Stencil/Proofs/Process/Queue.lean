import Stencil.Proofs.Process.Journal
import Stencil.Proofs.Process.Orderly
import Stencil.Proofs.Process.Sweep

/-!
# Large joins

A queue keeps the law of its members, whatever the order of the turns. Between two turns each member
has its outcome, or has a turn to come, or waits and sleeps.
-/

namespace Stencil
namespace Process

variable {β : Type} {host : Host} {count : Nat} {plans : Fin count → Plan β}
  {members : Fin count → Process β} (laws : ∀ i, Lawful host (plans i) (members i))
  {place : Place} {store : Store}

namespace Queue

/-- What an outcome says about the member of a number. -/
def Came (host : Host) (plans : Fin count → Plan β) (store : Store) (i : Fin count) :
    Except Error β → Prop
  | .ok result =>
    (plans i).result? host (store.isReady host) = some result ∧
      ∀ id, (plans i).Begins host (store.isReady host) id → id ∈ store.begun
  | .error error => (plans i).Faults host (store.isReady host) error

theorem Came.mono {i : Fin count} {outcome : Except Error β} {after : Store}
    (hr : ∀ id, store.isReady host id = true → after.isReady host id = true)
    (hb : ∀ id ∈ store.begun, id ∈ after.begun) (h : Came host plans store i outcome) :
    Came host plans after i outcome := by
  cases outcome with
  | ok result =>
    exact ⟨Plan.result?_mono hr h.1, fun id hi => hb id (h.2 id (Plan.begins_of_result? hr h.1 hi))⟩
  | error error => exact Plan.Faults.mono hr h

/-- What is so of a queue whoever waits for what, while at most one member has its turn. -/
structure Past (turn : Option (Fin count)) (store : Store) (queue : Queue members) : Prop where
  length_outcomes : queue.results.outcomes.length = count
  settled : queue.results.Settled
  nodup : queue.turns.toList.Nodup
  came : ∀ (i : Fin count) outcome, queue.results.outcomes[(i : Nat)]? = some (some outcome) →
    Came host plans store i outcome
  stands : ∀ i s, queue.waiting.get? i = some s → (laws i).Stands s store
  missing_of_waiting : ∀ i s, queue.waiting.get? i = some s →
    queue.results.outcomes[(i : Nat)]? = some none
  missing_of_turn : ∀ i ∈ queue.turns, queue.results.outcomes[(i : Nat)]? = some none
  under_way : ∀ i : Fin count, queue.results.outcomes[(i : Nat)]? = some none →
    turn = some i ∨ i ∈ queue.turns ∨ ∃ s, queue.waiting.get? i = some s
  away : ∀ i, turn = some i → queue.results.outcomes[(i : Nat)]? = some none ∧
    i ∉ queue.turns ∧ queue.waiting.get? i = none

/-- Between two turns: who waits is at rest, and sleeps unless it has a turn to come. -/
structure Sound (turn : Option (Fin count)) (place : Place) (store : Store)
    (queue : Queue members) : Prop extends Past laws turn store queue where
  rests : ∀ i s, queue.waiting.get? i = some s → (laws i).Rests host (i :: place) s store
  asleep : ∀ i s, queue.waiting.get? i = some s → i ∉ queue.turns →
    (laws i).Asleep host (i :: place) s store

variable {laws} {queue : Queue members} {turn : Option (Fin count)}

theorem Past.mono {after : Store}
    (hr : ∀ id, store.isReady host id = true → after.isReady host id = true)
    (hb : ∀ id ∈ store.begun, id ∈ after.begun) (h : Past laws turn store queue) :
    Past laws turn after queue :=
  { h with
    came := fun i outcome ho => (h.came i outcome ho).mono hr hb
    stands := fun i s hs => (laws i).stands_mono hr hb (h.stands i s hs) }

theorem Sound.of_steps {mine : Place → Prop} {begins : PendingId → Prop} {after : Store}
    (h : Sound laws turn place store queue) (hs : store.Steps host mine begins after)
    (hm : ∀ i s, queue.waiting.get? i = some s → ∀ part, ((i : Nat) :: place) <:+ part →
      ¬ mine part) : Sound laws turn place after queue where
  toPast := h.toPast.mono (fun _ hr => hs.isReady_eq ▸ hr) hs.begun_mono
  rests i s hi := (laws i).rests_of_steps (h.rests i s hi) hs (hm i s hi)
  asleep i s hi hn := (h.asleep i s hi hn).of_steps hs

theorem past_iff : Past laws turn store queue ↔
    Orderly (Came host plans store) (fun i s => (laws i).Stands s store) (fun _ _ => True) turn queue :=
  ⟨fun h => ⟨⟨h.length_outcomes, h.settled, h.nodup, h.missing_of_waiting, h.missing_of_turn,
    h.under_way, h.away⟩, h.came, h.stands, fun _ _ _ _ => trivial⟩, fun h => { h with stands := h.rests }⟩

theorem sound_iff : Sound laws turn place store queue ↔
    Orderly (Came host plans store) (fun i s => (laws i).Rests host (i :: place) s store)
      (fun i s => (laws i).Asleep host (i :: place) s store) turn queue := by
  refine ⟨fun h => ⟨(past_iff.1 h.toPast).toRegular, h.came, h.rests, h.asleep⟩, fun h => ?_⟩
  refine ⟨past_iff.2 (h.imp (fun _ _ => id) (fun _ _ _ hr => hr.stands) fun _ _ _ _ => trivial),
    h.rests, h.sleeps⟩

theorem sound_start (laws : ∀ i, Lawful host (plans i) (members i)) (place : Place)
    (store : Store) : Sound laws none place store (start members) :=
  sound_iff.2 (orderly_start _ _ _)

/-- The member that is next leaves the queue for its turn. -/
theorem Sound.of_next? (h : Sound laws none place store queue) {i : Fin count}
    {state : Option (members i).State} {rest : Queue members}
    (hn : queue.next? = some (⟨i, state⟩, rest)) :
    Sound laws (some i) place store rest ∧
      (∀ s, state = some s → (laws i).Rests host (i :: place) s store) ∧
      rest.results = queue.results :=
  ((sound_iff.1 h).of_next? hn).imp_left sound_iff.2

/-- A member that waits is put back. -/
theorem Sound.putBack {i : Fin count} {s : (members i).State} {news : Bool}
    (h : Sound laws (some i) place store queue) (hr : (laws i).Rests host (i :: place) s store)
    (ha : news = false → (laws i).Asleep host (i :: place) s store) :
    Sound laws none place store (queue.putBack ⟨i, s⟩ news) :=
  sound_iff.2 ((sound_iff.1 h).putBack hr ha)

/-- The outcome of a member takes its place among the others. -/
theorem Sound.put {i : Fin count} {outcome : Except Error β} {results : Results β}
    (h : Sound laws (some i) place store queue) (hc : Came host plans store i outcome)
    (hp : queue.results.put i outcome = .ok results) :
    Sound laws none place store { queue with results } :=
  sound_iff.2 ((sound_iff.1 h).put hc hp)

/-- A failure of the join is one of a member. -/
theorem Sound.faults_of_put {i : Fin count} {outcome : Except Error β} {error : Error}
    (h : Sound laws (some i) place store queue) (hc : Came host plans store i outcome)
    (hp : queue.results.put i outcome = .error error) :
    ∃ j, (plans j).Faults host (store.isReady host) error := by
  rcases Results.mem_of_put_error hp with hm | rfl
  · obtain ⟨n, hn⟩ := List.mem_iff_getElem?.1 hm
    have hlt : n < count := h.length_outcomes ▸ (List.getElem?_eq_some_iff.1 hn).1
    exact ⟨⟨n, hlt⟩, h.came ⟨n, hlt⟩ _ hn⟩
  · exact ⟨i, hc⟩

theorem Sound.leaves (h : Sound laws turn place store queue) (hs : store.Sound host) :
    store.Leaves host (place <:+ ·) (leaveAll members queue.live store) :=
  leaveAll_leaves_of_rests (fun i => (laws i).toView) hs (fun i _ => (laws i).leaves)
    fun _ hm => h.rests _ _ (get?_of_mem_live hm)

/-- A member that has ended in its turn has come to its outcome. -/
theorem came_of_reaches {i : Fin count} {outcome : Except Error β} {news : Bool}
    (h : (laws i).Reaches host (plans i) (i :: place) ⟨.ended outcome, news, store⟩) :
    Came host plans store i outcome := by
  cases outcome with
  | ok result => exact h
  | error error => exact h

/-- A turn of the member that is next is a turn of the join, and leaves the others as they are. -/
theorem Sound.take_turn (hs : store.Sound host) (h : Sound laws none place store queue) {i : Fin count}
    {state : Option (members i).State} {rest : Queue members}
    (hn : queue.next? = some (⟨i, state⟩, rest)) :
    let advance := (members i).advance (i :: place) state store
    store.Steps host (place <:+ ·)
      (fun id => (Plan.join count plans .done).Begins host (store.isReady host) id) advance.store ∧
    (laws i).Reaches host (plans i) (i :: place) advance ∧
      Sound laws (some i) place advance.store rest := by
  intro advance
  obtain ⟨hrest, hstate, -⟩ := h.of_next? hn
  have hst := (laws i).steps hs hstate
  refine ⟨?_, (laws i).reaches hs hstate, hrest.of_steps hst fun j s hj part hp hp' => ?_⟩
  · exact hst.mono (fun _ hp => suffix_of_cons_suffix hp) fun _ hb => Plan.begins_join_done.2 ⟨i, hb⟩
  · obtain rfl : j = i := Fin.ext (eq_of_cons_suffix hp hp')
    simp [(hrest.away j rfl).2.2] at hj

/-- Where a stretch gets to: a further outcome is there, or the join has failed, or it waits. -/
def Stretched (laws : ∀ i, Lawful host (plans i) (members i)) (place : Place) (missing : Nat)
    (advance : Advance (Queue members) (Queue members)) : Prop :=
  match advance.reached with
  | .ended (.ok queue) =>
    Sound laws none place advance.store queue ∧ queue.results.missing + 1 = missing
  | .ended (.error error) => ∃ i, (plans i).Faults host (advance.store.isReady host) error
  | .exhausted => True
  | .waiting queue =>
    Sound laws none place advance.store queue ∧ queue.results.missing = missing ∧
      (advance.news = false → queue.turns.toList = [])

theorem stretch_came (left patience : Nat) (news : Bool) (hs : store.Sound host)
    (h : Sound laws none place store queue) :
    let advance := stretch place left patience queue news store
    store.Steps host (place <:+ ·)
      (fun id => (Plan.join count plans .done).Begins host (store.isReady host) id) advance.store ∧
    Stretched laws place queue.results.missing advance := by
  refine Account.stretch_induction (fun _ => .silent) place
    (motive := fun _ _ queue _ store _ advance => store.Sound host →
      Sound laws none place store queue → store.Steps host (place <:+ ·)
        (fun id => (Plan.join count plans .done).Begins host (store.isReady host) id) advance.store ∧
      Stretched laws place queue.results.missing advance)
    ?spent ?idle ?put ?fails ?exhausted ?goes left patience queue news store hs h
  case spent =>
    intro _ _ _ _ _ _ hs h
    exact ⟨.refl hs, h, rfl, nofun⟩
  case idle =>
    intro _ _ _ _ _ hn hs h
    exact ⟨.refl hs, h, rfl, fun _ => next?_eq_none_iff.1 hn⟩
  case put =>
    intro _ _ _ _ _ i _ rest outcome _ _ results hn hturn hp hs h
    obtain ⟨hrest, -, hresults⟩ := h.of_next? hn
    obtain ⟨hst, hr, hafter⟩ := hturn ▸ h.take_turn hs hn
    exact ⟨hst, hafter.put (came_of_reaches hr) hp,
      hresults ▸ Results.missing_put hp (hrest.away i rfl).1⟩
  case fails =>
    intro _ _ _ _ _ i _ rest outcome _ _ error hn hturn hp hs h
    obtain ⟨hst, hr, hafter⟩ := hturn ▸ h.take_turn hs hn
    obtain ⟨j, hj⟩ := hafter.faults_of_put (came_of_reaches hr) hp
    have hl := hafter.leaves hst.sound
    exact ⟨hst.trans (hl.toSteps.mono (fun _ hp => hp) fun _ hb => hb.elim), j, hl.isReady_eq ▸ hj⟩
  case exhausted =>
    intro _ _ _ _ _ i _ rest _ _ hn hturn hs h
    obtain ⟨hst, -, -⟩ := hturn ▸ h.take_turn hs hn
    exact ⟨hst, trivial⟩
  case goes =>
    intro _ _ _ _ _ i _ rest s anews _ _ _ hn hturn ih hs h
    have hsame : (rest.putBack ⟨i, s⟩ anews).results = _ := (h.of_next? hn).2.2
    obtain ⟨hst, hr, hafter⟩ := hturn ▸ h.take_turn hs hn
    obtain ⟨hgo, hstretched⟩ := ih hst.sound (hafter.putBack hr.1 hr.2)
    exact ⟨hst.trans (hgo.mono (fun _ hp => hp) fun _ hb => hst.isReady_eq ▸ hb), hsame ▸ hstretched⟩

/-- When no outcome is missing, the delivered results are those of all members. -/
theorem Sound.results_of_missing (h : Sound laws turn place store queue)
    (hm : queue.results.missing = 0) :
    (Plan.join count plans .done).result? host (store.isReady host) =
        some queue.results.delivered.toList ∧
      ∀ id, (Plan.join count plans .done).Begins host (store.isReady host) id → id ∈ store.begun := by
  have hall := (sound_iff.1 h).outcomes_of_missing hm
  have hlength : queue.results.delivered.toList.length = count := by
    simpa [hall] using h.length_outcomes
  have hcame : ∀ (i : Fin count) (hi : (i : Nat) < queue.results.delivered.toList.length),
      Came host plans store i (.ok queue.results.delivered.toList[(i : Nat)]) := by
    intro i hi
    refine h.came i _ ?_
    simp [hall]
  rw [Plan.result?_join_done, mapM_eq_some_iff, List.forall₂_iff_get]
  refine ⟨⟨by simp [hlength], fun n hn hd => ?_⟩, fun id hi => ?_⟩
  · simpa using (hcame ⟨n, by simpa using hn⟩ hd).1
  · obtain ⟨i, hi⟩ := Plan.begins_join_done.1 hi
    exact (hcame i (by rw [hlength]; exact i.isLt)).2 id hi

theorem Past.hear (path : List Nat) (h : Past laws turn store queue) :
    Past laws turn store (hear path queue) :=
  past_iff.2 ((past_iff.1 h).hear path fun i _ rest hs => (laws i).stands_hear rest hs)

end Queue

open Queue

def View.queue (laws : ∀ i, Lawful host (plans i) (members i)) : View (Process.queue members) where
  Waits place (queue : Queue members) id number part :=
    ∃ i s, queue.waiting.get? i = some s ∧ (laws i).Waits (i :: place) s id number part
  Idle (queue : Queue members) :=
    queue.turns.toList = [] ∧ ∀ i s, queue.waiting.get? i = some s → (laws i).Idle s
  Alert wanted place (queue : Queue members) :=
    ∀ i s, queue.waiting.get? i = some s → (laws i).Alert wanted (i :: place) s ∧
      (i ∉ queue.turns → (laws i).Idle s ∧ ∀ id number part,
        (laws i).Waits (i :: place) s id number part → ¬ wanted part id)
  Stands (queue : Queue members) store := Past laws none store queue ∧ 0 < queue.results.missing

section Advance
variable {laws} {queue : Queue members}

/-- A queue is at rest between two turns, if something is missing. -/
theorem queue_rests : (View.queue laws).Rests host place queue store ↔
    Queue.Sound laws none place store queue ∧ 0 < queue.results.missing := by
  constructor
  · rintro ⟨⟨hp, hm⟩, hseated, halert⟩
    refine ⟨⟨hp, fun i s hi => ⟨hp.stands i s hi, ?_, (halert i s hi).1⟩, fun i s hi hn => ?_⟩, hm⟩
    · exact fun id number part hw => hseated id number part ⟨i, s, hi, hw⟩
    · obtain ⟨hidle, hwanted⟩ := (halert i s hi).2 hn
      exact ⟨hidle, fun id number part hw => by simpa using hwanted id number part hw⟩
  · rintro ⟨h, hm⟩
    refine ⟨⟨h.toPast, hm⟩, ?_, fun i s hi => ⟨(h.rests i s hi).alert, fun hn => ?_⟩⟩
    · rintro id number part ⟨i, s, hi, hw⟩
      exact (h.rests i s hi).seated id number part hw
    · have ha := h.asleep i s hi hn
      exact ⟨ha.idle, fun id number part hw => by simpa using ha.not_ready id number part hw⟩

/-- It sleeps when nobody has a turn to come. -/
theorem queue_asleep (h : Queue.Sound laws none place store queue)
    (ht : queue.turns.toList = []) : (View.queue laws).Asleep host place queue store := by
  have ha : ∀ i s, queue.waiting.get? i = some s → (laws i).Asleep host (i :: place) s store := by
    refine fun i s hi => h.asleep i s hi fun hm => ?_
    rw [← Turns.mem_toList, ht] at hm
    cases hm
  refine ⟨⟨ht, fun i s hi => (ha i s hi).idle⟩, ?_⟩
  rintro id number part ⟨i, s, hi, hw⟩
  exact (ha i s hi).not_ready id number part hw

theorem stretches_advance {missing : Nat} {news : Bool} (hs : store.Sound host)
    (h : Queue.Sound laws none place store queue) (hm : queue.results.missing = missing) :
    let advance := stretches place missing queue news store
    store.Steps host (place <:+ ·)
      (fun id => (Plan.join count plans .done).Begins host (store.isReady host) id) advance.store ∧
    (View.queue laws).Reaches host (.join count plans .done) place advance := by
  induction missing generalizing queue news store with
  | zero => exact ⟨.refl hs, h.results_of_missing hm⟩
  | succ missing ih =>
    have hst := stretch_came (missing + 1) patience news hs h
    simp only [stretches]
    generalize stretch place (missing + 1) patience queue news store = advance at hst
    obtain ⟨reached, anews, after⟩ := advance
    obtain ⟨hst, hreached⟩ := hst
    cases reached with
    | ended outcome =>
      cases outcome with
      | ok later =>
        obtain ⟨hsound, hmissing⟩ := hreached
        obtain ⟨hgo, hr⟩ := ih hst.sound hsound (by omega)
        exact ⟨hst.trans (hgo.mono (fun _ hp => hp) fun _ hb => hst.isReady_eq ▸ hb), hr⟩
      | error error => exact ⟨hst, Plan.faults_join_done.2 hreached⟩
    | exhausted => exact ⟨hst, trivial⟩
    | waiting later =>
      obtain ⟨hsound, hmissing, hturns⟩ := hreached
      exact ⟨hst, queue_rests.2 ⟨hsound, by omega⟩, fun hn => queue_asleep hsound (hturns hn)⟩

theorem queue_advance (h : store.Sound host) {state : Option (Process.queue members).State}
    (hrest : ∀ s, state = some s → (View.queue laws).Rests host place s store) :
    let advance := (Process.queue members).advance place state store
    store.Steps host (place <:+ ·)
      (fun id => (Plan.join count plans .done).Begins host (store.isReady host) id) advance.store ∧
    (View.queue laws).Reaches host (.join count plans .done) place advance := by
  cases state with
  | none => exact stretches_advance h (sound_start laws place store) rfl
  | some queue => exact stretches_advance h (queue_rests.1 (hrest queue rfl)).1 rfl

theorem queue_blocked (hs : (View.queue laws).Stands queue store)
    (h : (View.queue laws).Asleep host place queue store) :
    (∃ id number part, (View.queue laws).Waits place queue id number part) ∧
    (Plan.join count plans .done).result? host (store.isReady host) = none ∧
    ((∀ error, ¬ (Plan.join count plans .done).Faults host (store.isReady host) error) →
      ∀ id, (Plan.join count plans .done).Begins host (store.isReady host) id → id ∈ store.begun) := by
  obtain ⟨hpast, hm⟩ := hs
  have hmember : ∀ i s, queue.waiting.get? i = some s →
      (laws i).Asleep host (i :: place) s store := fun i s hi =>
    ⟨h.idle.2 i s hi, fun id number part hw => h.not_ready id number part ⟨i, s, hi, hw⟩⟩
  have hregular := (past_iff.1 hpast).toRegular
  have hwaiting : ∀ i : Fin count, queue.results.outcomes[(i : Nat)]? = some none →
      ∃ s, queue.waiting.get? i = some s := fun i => hregular.waiting_of_missing h.idle.1
  obtain ⟨i, hi⟩ := hregular.exists_missing hm
  obtain ⟨s, hi⟩ := hwaiting i hi
  obtain ⟨⟨id, number, part, hw⟩, hnone, -⟩ :=
    (laws i).blocked (hpast.stands i s hi) (hmember i s hi)
  refine ⟨⟨id, number, part, i, s, hi, hw⟩, Plan.result?_join_of_none hnone, fun hf id hid => ?_⟩
  obtain ⟨j, hj⟩ := Plan.begins_join_done.1 hid
  have hlt : (j : Nat) < queue.results.outcomes.length := by
    rw [hpast.length_outcomes]
    exact j.isLt
  have hget := List.getElem?_eq_getElem hlt
  cases ho : queue.results.outcomes[(j : Nat)] with
  | none =>
    obtain ⟨t, ht⟩ := hwaiting j (ho ▸ hget)
    exact ((laws j).blocked (hpast.stands j t ht) (hmember j t ht)).2.2
      (fun error hfe => hf error (Plan.faults_join_done.2 ⟨j, hfe⟩)) id hj
  | some outcome =>
    have hc := hpast.came j outcome (ho ▸ hget)
    cases outcome with
    | ok result => exact hc.2 id hj
    | error error => exact absurd (Plan.faults_join_done.2 ⟨j, hc⟩) (hf error)

end Advance

/-- A large join keeps the law of its members. -/
def Lawful.queue (laws : ∀ i, Lawful host (plans i) (members i)) :
    Lawful host (.join count plans .done) (Process.queue members) where
  toView := .queue laws
  suffix_of_waits := by
    rintro place state id number part ⟨i, s, -, hw⟩
    exact suffix_of_cons_suffix ((laws i).suffix_of_waits hw)
  stands_mono hr hb h := ⟨h.1.mono hr hb, h.2⟩
  alert_mono hw h := Queue.Alert.mono (fun i => (laws i).heeds) hw h
  waits_of_hear := by
    rintro path place state id number part ⟨i, s, hi, hw⟩
    obtain ⟨earlier, he, ⟨-, rfl⟩ | ⟨-, rest, rfl, rfl⟩⟩ := of_get?_hear hi
    · exact ⟨i, s, he, hw⟩
    · exact ⟨i, earlier, he, (laws i).waits_of_hear hw⟩
  stands_hear {state _} path h := ⟨h.1.hear path, results_hear path state ▸ h.2⟩
  alert_hear path h := Queue.Alert.hear (fun i => (laws i).heeds) path h
  leaves {place state store} h hown := by
    refine leaveAll_leaves (fun i => (laws i).toView) h (fun i _ => (laws i).leaves)
      fun member hm id number part hw => ?_
    exact hown id number part ⟨member.1, member.2, get?_of_mem_live hm, hw⟩
  steps h hrest := (queue_advance h hrest).1
  reaches h hrest := (queue_advance h hrest).2
  blocked := queue_blocked

end Process
end Stencil
