import Stencil.Proofs.Process.Lawful

/-!
# One process after another

A process that goes on with a second one keeps the law when both do: the first is over with the
result of its plan, and has begun all that its plan begins, before the second begins anything.
-/

namespace Stencil
namespace Process

variable {α β : Type} {host : Host} {plan : Plan β} {next : β → Plan α} {process : Process β}
  {rest : β → Process α} {place : Place} {store : Store}

def View.bind (host : Host) (plan : Plan β) (first : View process) (second : ∀ b, View (rest b)) :
    View (process.bind rest) where
  Waits place
    | .inl state => first.Waits place state
    | .inr ⟨b, state⟩ => (second b).Waits place state
  Idle
    | .inl state => first.Idle state
    | .inr ⟨b, state⟩ => (second b).Idle state
  Alert wanted place
    | .inl state => first.Alert wanted place state
    | .inr ⟨b, state⟩ => (second b).Alert wanted place state
  Stands
    | .inl state, store => first.Stands state store
    | .inr ⟨b, state⟩, store =>
      plan.result? host (store.isReady host) = some b ∧
        (∀ id, plan.Begins host (store.isReady host) id → id ∈ store.begun) ∧
        (second b).Stands state store

variable {first : View process} {second : ∀ b, View (rest b)}

theorem rests_inl {state : process.State} :
    (View.bind host plan first second).Rests host place (.inl state) store ↔
      first.Rests host place state store :=
  ⟨fun h => ⟨h.stands, h.seated, h.alert⟩, fun h => ⟨h.stands, h.seated, h.alert⟩⟩

theorem rests_inr {b : β} {state : (rest b).State} :
    (View.bind host plan first second).Rests host place (.inr ⟨b, state⟩) store ↔
      (plan.result? host (store.isReady host) = some b ∧
        ∀ id, plan.Begins host (store.isReady host) id → id ∈ store.begun) ∧
      (second b).Rests host place state store :=
  ⟨fun h => ⟨⟨h.stands.1, h.stands.2.1⟩, h.stands.2.2, h.seated, h.alert⟩,
    fun h => ⟨⟨h.1.1, h.1.2, h.2.stands⟩, h.2.seated, h.2.alert⟩⟩

theorem asleep_inl {state : process.State} :
    (View.bind host plan first second).Asleep host place (.inl state) store ↔
      first.Asleep host place state store :=
  ⟨fun h => ⟨h.idle, h.not_ready⟩, fun h => ⟨h.idle, h.not_ready⟩⟩

theorem asleep_inr {b : β} {state : (rest b).State} :
    (View.bind host plan first second).Asleep host place (.inr ⟨b, state⟩) store ↔
      (second b).Asleep host place state store :=
  ⟨fun h => ⟨h.idle, h.not_ready⟩, fun h => ⟨h.idle, h.not_ready⟩⟩

/-- An advance of the second process, when the first is over. -/
theorem reaches_within {b : β} {advance : Advance (rest b).State α} {news : Bool}
    (hb : plan.result? host (advance.store.isReady host) = some b)
    (hbegun : ∀ id, plan.Begins host (advance.store.isReady host) id → id ∈ advance.store.begun)
    (h : (second b).Reaches host (next b) place advance) :
    (View.bind host plan first second).Reaches host (plan.bind next) place
      (advance.within (.inr ⟨b, ·⟩) news) := by
  obtain ⟨reached, anews, after⟩ := advance
  simp only at hb hbegun
  cases reached with
  | ended outcome =>
    cases outcome with
    | ok result =>
      have hresult : (plan.bind next).result? host (after.isReady host) = some result := by
        rw [Plan.result?_bind, hb]
        exact h.1
      refine ⟨hresult, fun id hi => ?_⟩
      rcases Plan.begins_bind.1 hi with hi | ⟨c, hc, hi⟩
      · exact hbegun id hi
      · obtain rfl : b = c := Option.some.inj (hb.symm.trans hc)
        exact h.2 id hi
    | error error => exact Plan.faults_bind.2 (.inr ⟨b, hb, h⟩)
  | exhausted => trivial
  | waiting state =>
    refine ⟨rests_inr.2 ⟨⟨hb, hbegun⟩, h.1⟩, fun hn => asleep_inr.2 (h.2 ?_)⟩
    simp only [Advance.within, Bool.or_eq_false_iff] at hn
    exact hn.2

namespace Lawful

variable (law : Lawful host plan process) (laws : ∀ b, Lawful host (next b) (rest b))

/-- The view of a process that goes on with another. -/
abbrev bindView : View (process.bind rest) :=
  .bind host plan law.toView fun b => (laws b).toView

/-- Until it has ended the first process goes ahead on its own. -/
theorem advance_bind_inl (state : Option process.State) :
    (process.bind rest).advance place (state.map .inl) store =
      (let first := process.advance place state store
      match first.reached with
      | .ended (.ok result) =>
        ((rest result).advance place none first.store).within (.inr ⟨result, ·⟩) first.news
      | .ended (.error error) => ⟨.ended (.error error), first.news, first.store⟩
      | .exhausted => ⟨.exhausted, first.news, first.store⟩
      | .waiting state => ⟨.waiting (.inl state), first.news, first.store⟩) := by
  cases state <;> rfl

/-- An advance that has the first process still under way. -/
theorem bind_first (h : store.Sound host) (state : Option process.State)
    (hrest : ∀ s, state = some s → law.Rests host place s store) :
    let advance := (process.bind rest).advance place (state.map .inl) store
    store.Steps host (place <:+ ·)
      (fun id => (plan.bind next).Begins host (store.isReady host) id) advance.store ∧
    (bindView law laws).Reaches host (plan.bind next) place advance := by
  have hs := law.steps h hrest
  have hr := law.reaches h hrest
  have hs' : store.Steps host (place <:+ ·)
      (fun id => (plan.bind next).Begins host (store.isReady host) id)
      (process.advance place state store).store :=
    hs.mono (fun _ hp => hp) fun _ hi => Plan.begins_bind.2 (.inl hi)
  rw [advance_bind_inl]
  generalize process.advance place state store = advance at hs hs' hr
  obtain ⟨reached, news, after⟩ := advance
  cases reached with
  | ended outcome =>
    cases outcome with
    | ok b =>
      have hnone : ∀ s, (none : Option (rest b).State) = some s →
          (laws b).Rests host place s after := by
        intro s hn
        cases hn
      have hsb := (laws b).steps hs.sound hnone
      have hb : plan.result? host (((rest b).advance place none after).store.isReady host) =
          some b := hsb.isReady_eq ▸ hr.1
      refine ⟨hs'.trans (hsb.mono (fun _ hp => hp) fun id hi => Plan.begins_bind.2 (.inr ⟨b, ?_, ?_⟩)),
        reaches_within hb (fun id hi => hsb.begun_mono id (hr.2 id (hsb.isReady_eq ▸ hi)))
          ((laws b).reaches hs.sound hnone)⟩
      · exact hs.isReady_eq ▸ hr.1
      · exact hs.isReady_eq ▸ hi
    | error error => exact ⟨hs', Plan.faults_bind.2 (.inl hr)⟩
  | exhausted => exact ⟨hs', trivial⟩
  | waiting state => exact ⟨hs', rests_inl.2 hr.1, fun hn => asleep_inl.2 (hr.2 hn)⟩

/-- An advance after the first process is over. -/
theorem bind_second (h : store.Sound host) {b : β} {state : (rest b).State}
    (hrest : (bindView law laws).Rests host place (.inr ⟨b, state⟩) store) :
    let advance := (process.bind rest).advance place (some (.inr ⟨b, state⟩)) store
    store.Steps host (place <:+ ·)
      (fun id => (plan.bind next).Begins host (store.isReady host) id) advance.store ∧
    (bindView law laws).Reaches host (plan.bind next) place advance := by
  obtain ⟨⟨hb, hbegun⟩, hr⟩ := rests_inr.1 hrest
  have hsome : ∀ s, some state = some s → (laws b).Rests host place s store := by
    rintro s ⟨⟩
    exact hr
  have hs := (laws b).steps h hsome
  refine ⟨hs.mono (fun _ hp => hp) fun id hi => Plan.begins_bind.2 (.inr ⟨b, hb, hi⟩),
    reaches_within (hs.isReady_eq ▸ hb) (fun id hi => ?_) ((laws b).reaches h hsome)⟩
  exact hs.begun_mono id (hbegun id (hs.isReady_eq ▸ hi))

theorem bind_advance (h : store.Sound host) {state : Option (process.bind rest).State}
    (hrest : ∀ s, state = some s → (bindView law laws).Rests host place s store) :
    let advance := (process.bind rest).advance place state store
    store.Steps host (place <:+ ·)
      (fun id => (plan.bind next).Begins host (store.isReady host) id) advance.store ∧
    (bindView law laws).Reaches host (plan.bind next) place advance := by
  match state with
  | none =>
    refine bind_first law laws h none ?_
    rintro s ⟨⟩
  | some (.inl s) =>
    refine bind_first law laws h (some s) ?_
    rintro _ ⟨⟩
    exact rests_inl.1 (hrest _ rfl)
  | some (.inr ⟨b, s⟩) => exact bind_second law laws h (hrest _ rfl)

/-- A process that goes on with another keeps the law if both do. -/
def bind : Lawful host (plan.bind next) (process.bind rest) where
  toView := bindView law laws
  suffix_of_waits {_ state _ _ _} h := by
    match state with
    | .inl _ => exact law.suffix_of_waits h
    | .inr ⟨b, _⟩ => exact (laws b).suffix_of_waits h
  stands_mono {state _ _} hr hb h := by
    match state with
    | .inl _ => exact law.stands_mono hr hb h
    | .inr ⟨b, _⟩ =>
      obtain ⟨hresult, hbegun, hs⟩ := h
      exact ⟨Plan.result?_mono hr hresult,
        fun id hi => hb id (hbegun id (Plan.begins_of_result? hr hresult hi)),
        (laws b).stands_mono hr hb hs⟩
  alert_mono {_ state} _ _ hw h := by
    match state with
    | .inl _ => exact law.alert_mono hw h
    | .inr ⟨b, _⟩ => exact (laws b).alert_mono hw h
  waits_of_hear {_ _ state} _ _ _ h := by
    match state with
    | .inl _ => exact law.waits_of_hear h
    | .inr ⟨b, _⟩ => exact (laws b).waits_of_hear h
  stands_hear {state} _ path h := by
    match state with
    | .inl _ => exact law.stands_hear path h
    | .inr ⟨b, _⟩ => exact ⟨h.1, h.2.1, (laws b).stands_hear path h.2.2⟩
  alert_hear {_ state} _ path h := by
    match state with
    | .inl _ => exact law.alert_hear path h
    | .inr ⟨b, _⟩ => exact (laws b).alert_hear path h
  leaves {_ state} _ h hown := by
    match state with
    | .inl _ => exact law.leaves h hown
    | .inr ⟨b, _⟩ => exact (laws b).leaves h hown
  steps h hrest := (bind_advance law laws h hrest).1
  reaches h hrest := (bind_advance law laws h hrest).2
  blocked {_ state} _ hs hasleep := by
    match state with
    | .inl _ =>
      obtain ⟨hw, hn, hb⟩ := law.blocked hs (asleep_inl.1 hasleep)
      refine ⟨hw, by simp [Plan.result?_bind, hn], fun hf id hi => ?_⟩
      rcases Plan.begins_bind.1 hi with hi | ⟨b, hb', -⟩
      · exact hb (fun error he => hf error (Plan.faults_bind.2 (.inl he))) id hi
      · rw [hn] at hb'
        cases hb'
    | .inr ⟨b, _⟩ =>
      obtain ⟨hresult, hbegun, hs⟩ := hs
      obtain ⟨hw, hn, hb⟩ := (laws b).blocked hs ⟨hasleep.idle, hasleep.not_ready⟩
      refine ⟨hw, by simp [Plan.result?_bind, hresult, hn], fun hf id hi => ?_⟩
      rcases Plan.begins_bind.1 hi with hi | ⟨c, hc, hi⟩
      · exact hbegun id hi
      · obtain rfl : b = c := Option.some.inj (hresult.symm.trans hc)
        exact hb (fun error he => hf error (Plan.faults_bind.2 (.inr ⟨b, hresult, he⟩))) id hi

/-- The view of a process is also one of the process whose end is news. -/
abbrev announcedView : View process.announced :=
  ⟨law.Waits, law.Idle, law.Alert, law.Stands⟩

theorem announced_advance (h : store.Sound host) {state : Option process.State}
    (hrest : ∀ s, state = some s → law.announcedView.Rests host place s store) :
    let advance := process.announced.advance place state store
    store.Steps host (place <:+ ·)
      (fun id => (Plan.inner plan .done).Begins host (store.isReady host) id) advance.store ∧
    law.announcedView.Reaches host (.inner plan .done) place advance := by
  have hrest' : ∀ s, state = some s → law.Rests host place s store := fun s e =>
    ⟨(hrest s e).stands, (hrest s e).seated, (hrest s e).alert⟩
  have hs : store.Steps host (place <:+ ·)
      (fun id => (Plan.inner plan .done).Begins host (store.isReady host) id)
      (process.advance place state store).store :=
    (law.steps h hrest').mono (fun _ hp => hp) fun _ hi => .inl hi
  have hr := law.reaches h hrest'
  simp only [Process.announced]
  generalize process.advance place state store = advance at hs hr
  obtain ⟨reached, news, after⟩ := advance
  cases reached with
  | ended outcome =>
    refine ⟨hs, ?_⟩
    cases outcome with
    | ok result =>
      refine ⟨by simpa [Plan.result?] using hr.1, ?_⟩
      rintro id (hi | ⟨_, -, hi⟩)
      · exact hr.2 id hi
      · exact hi.elim
    | error error => exact .inl hr
  | exhausted => exact ⟨hs, trivial⟩
  | waiting state =>
    exact ⟨hs, ⟨hr.1.stands, hr.1.seated, hr.1.alert⟩, fun hn =>
      ⟨(hr.2 hn).idle, (hr.2 hn).not_ready⟩⟩

/-- That the end of a process is news changes nothing about its law. -/
def announced : Lawful host (.inner plan .done) process.announced where
  toView := law.announcedView
  suffix_of_waits := law.suffix_of_waits
  stands_mono := law.stands_mono
  alert_mono := law.alert_mono
  waits_of_hear := law.waits_of_hear
  stands_hear := law.stands_hear
  alert_hear := law.alert_hear
  leaves := law.leaves
  steps h hrest := (law.announced_advance h hrest).1
  reaches h hrest := (law.announced_advance h hrest).2
  blocked hs hasleep := by
    obtain ⟨hw, hn, hb⟩ := law.blocked hs ⟨hasleep.idle, hasleep.not_ready⟩
    refine ⟨hw, by simp [Plan.result?, hn], ?_⟩
    rintro hf id (hi | ⟨_, -, hi⟩)
    · exact hb (fun error he => hf error (.inl he)) id hi
    · exact hi.elim

end Lawful
end Process
end Stencil
