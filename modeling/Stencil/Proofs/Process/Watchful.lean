import Stencil.Proofs.Plan.Chances
import Stencil.Proofs.Process.Bind
import Stencil.Proofs.Process.Journal

/-!
# Watchful processes

What can be said of a process whatever its lambdas answer. It comes for no more than its plan may
come for. When it ends with a result, all that it has come for has come; while it waits, it waits
for the rest, or a join holds back the failure that it met. Such a join is large, and waits for an
earlier member.
-/

namespace Stencil

/-- A pending value is there, with a value and not with a failure. -/
def Store.Came (host : Host) (store : Store) (id : PendingId) : Prop :=
  id ∈ store.yielded ∧ ∃ v, (host.pending id).result = .ok v

theorem Store.Came.mono {host : Host} {before after : Store} {id : PendingId}
    (hy : ∀ id ∈ before.yielded, id ∈ after.yielded) (h : before.Came host id) :
    after.Came host id :=
  ⟨hy id h.1, h.2⟩

namespace Process

variable {α β : Type} {host : Host}

/-- A view that also shows which joins hold a failure back. -/
structure Watch (process : Process α) extends View process where
  /-- In a state at a place, a join of so many members holds back the failure of a member. -/
  Holds : Place → process.State → (join : Place) → (size member : Nat) → Prop

namespace Watch

variable {process : Process α} (watch : Watch process)

/-- What a part has come for and does not have: it waits for it, or has failed for it. -/
def Owes (place : Place) (state : process.State) (part : Place) (id : PendingId) : Prop :=
  (∃ number, watch.Waits place state id number part) ∨
    ∃ join size member, watch.Holds place state join size member ∧ (member :: join) <:+ part

/-- What a part comes for in an advance that is told, or has come for before. -/
def Wants (place : Place) (state : Option process.State) (told : Journal) (part : Place)
    (id : PendingId) : Prop :=
  (part, .asks id) ∈ told ∨ ∃ s, state = some s ∧ watch.Owes place s part id

/-- What becomes in a later state of all that was wanted, and where that state comes from. -/
structure Keeps (host : Host) (place : Place) (state : Option process.State) (told : Journal)
    (after : Store) (later : process.State) : Prop where
  wanted : ∀ part id, watch.Wants place state told part id →
    after.Came host id ∨ watch.Owes place later part id
  waits : ∀ id number part, watch.Waits place later id number part →
    (∃ s, state = some s ∧ watch.Waits place s id number part) ∨ (part, .asks id) ∈ told
  holds : ∀ join size member, watch.Holds place later join size member →
    (∃ s, state = some s ∧ watch.Holds place s join size member) ∨ (join, .joins size) ∈ told

/-- How far an advance gets, and what becomes of all that was wanted. -/
def Reaches (host : Host) (plan : Plan α) (place : Place) (state : Option process.State)
    (told : Journal) (advance : Advance process.State α) : Prop :=
  match advance.reached with
  | .ended (.ok result) =>
    plan.Gives host result ∧
      ∀ part id, watch.Wants place state told part id → advance.store.Came host id
  | .ended (.error _) | .exhausted => True
  | .waiting later =>
    watch.Rests host place later advance.store ∧
      (advance.news = false → watch.Asleep host place later advance.store) ∧
      watch.Keeps host place state told advance.store later

variable {watch} {place : Place} {state : Option process.State} {told more : Journal}
  {middle after : Store} {s later : process.State}

theorem wants_none {part : Place} {id : PendingId} :
    watch.Wants place none told part id ↔ (part, .asks id) ∈ told := by
  simp [Wants]

theorem wants_some {part : Place} {id : PendingId} :
    watch.Wants place (some s) told part id ↔
      (part, .asks id) ∈ told ∨ watch.Owes place s part id := by
  simp [Wants]

theorem Wants.append {part : Place} {id : PendingId}
    (h : watch.Wants place state (told ++ more) part id) :
    watch.Wants place state told part id ∨ (part, .asks id) ∈ more := by
  rcases h with h | h
  · exact (List.mem_append.1 h).imp_left .inl
  · exact .inl (.inr h)

namespace Keeps

theorem refl : watch.Keeps host place (some s) [] after s where
  wanted _ _ hw := (wants_some.1 hw).elim nofun .inr
  waits _ _ _ hw := .inl ⟨s, rfl, hw⟩
  holds _ _ _ hh := .inl ⟨s, rfl, hh⟩

theorem append (h : watch.Keeps host place state told middle s)
    (h' : watch.Keeps host place (some s) more after later)
    (hy : ∀ id ∈ middle.yielded, id ∈ after.yielded) :
    watch.Keeps host place state (told ++ more) after later where
  wanted part id hw := by
    rcases hw.append with hw | hm
    · rcases h.wanted part id hw with hc | ho
      · exact .inl (hc.mono hy)
      · exact h'.wanted part id (.inr ⟨s, rfl, ho⟩)
    · exact h'.wanted part id (.inl hm)
  waits id number part hw := by
    rcases h'.waits id number part hw with ⟨_, ⟨⟩, hw⟩ | hm
    · exact (h.waits id number part hw).imp_right (List.mem_append_left _)
    · exact .inr (List.mem_append_right _ hm)
  holds join size member hh := by
    rcases h'.holds join size member hh with ⟨_, ⟨⟩, hh⟩ | hm
    · exact (h.holds join size member hh).imp_right (List.mem_append_left _)
    · exact .inr (List.mem_append_right _ hm)

/-- More may be told, as long as nothing more is asked for. -/
theorem tell_more (h : watch.Keeps host place state told after later)
    (hm : ∀ entry ∈ told, entry ∈ more)
    (ha : ∀ part id, (part, .asks id) ∈ more → (part, .asks id) ∈ told) :
    watch.Keeps host place state more after later where
  wanted part id hw := h.wanted part id (hw.imp_left (ha part id))
  waits id number part hw := (h.waits id number part hw).imp_right (hm _)
  holds join size member hh := (h.holds join size member hh).imp_right (hm _)

/-- A state that waits for nothing and holds nothing back is as good as none. -/
theorem of_start (h : watch.Keeps host place (some s) told after later)
    (hw : ∀ id number part, ¬ watch.Waits place s id number part)
    (hh : ∀ join size member, ¬ watch.Holds place s join size member) :
    watch.Keeps host place none told after later where
  wanted part id hn := h.wanted part id (.inl (wants_none.1 hn))
  waits id number part hl := by
    rcases h.waits id number part hl with ⟨_, ⟨⟩, hs⟩ | hm
    · exact absurd hs (hw id number part)
    · exact .inr hm
  holds join size member hl := by
    rcases h.holds join size member hl with ⟨_, ⟨⟩, hs⟩ | hm
    · exact absurd hs (hh join size member)
    · exact .inr hm

/-- If in the end everything has come that is owed then, so has everything that was wanted. -/
theorem came (h : watch.Keeps host place state told middle s)
    (hc : ∀ part id, watch.Wants place (some s) more part id → after.Came host id)
    (hy : ∀ id ∈ middle.yielded, id ∈ after.yielded) (part : Place) (id : PendingId)
    (hw : watch.Wants place state (told ++ more) part id) : after.Came host id := by
  rcases hw.append with hw | hm
  · exact (h.wanted part id hw).elim (·.mono hy) fun ho => hc part id (.inr ⟨s, rfl, ho⟩)
  · exact hc part id (.inl hm)

/-- How far an advance gets that goes on from a state come to before. -/
theorem reaches {plan : Plan α} {advance : Advance process.State α}
    (h : watch.Keeps host place state told middle s)
    (hy : ∀ id ∈ middle.yielded, id ∈ advance.store.yielded)
    (hr : watch.Reaches host plan place (some s) more advance) :
    watch.Reaches host plan place state (told ++ more) advance := by
  obtain ⟨reached, news, after⟩ := advance
  cases reached with
  | ended outcome =>
    cases outcome with
    | ok result => exact ⟨hr.1, h.came hr.2 hy⟩
    | error error => trivial
  | exhausted => trivial
  | waiting later => exact ⟨hr.1, hr.2.1, h.append hr.2.2 hy⟩

end Keeps

theorem Reaches.tell_more {plan : Plan α} {advance : Advance process.State α}
    (h : watch.Reaches host plan place state told advance) (hm : ∀ entry ∈ told, entry ∈ more)
    (ha : ∀ part id, (part, .asks id) ∈ more → (part, .asks id) ∈ told) :
    watch.Reaches host plan place state more advance := by
  obtain ⟨reached, news, after⟩ := advance
  cases reached with
  | ended outcome =>
    cases outcome with
    | ok result => exact ⟨h.1, fun part id hw => h.2 part id (hw.imp_left (ha part id))⟩
    | error error => trivial
  | exhausted => trivial
  | waiting later => exact ⟨h.1, h.2.1, h.2.2.tell_more hm ha⟩

theorem Reaches.of_start {plan : Plan α} {advance : Advance process.State α}
    (h : watch.Reaches host plan place (some s) told advance)
    (hw : ∀ id number part, ¬ watch.Waits place s id number part)
    (hh : ∀ join size member, ¬ watch.Holds place s join size member) :
    watch.Reaches host plan place none told advance := by
  obtain ⟨reached, news, after⟩ := advance
  cases reached with
  | ended outcome =>
    cases outcome with
    | ok result => exact ⟨h.1, fun part id hn => h.2 part id (.inl (wants_none.1 hn))⟩
    | error error => trivial
  | exhausted => trivial
  | waiting later => exact ⟨h.1, h.2.1, h.2.2.of_start hw hh⟩

end Watch

/-- A process with a plan and an account, and a watch by which it keeps the law. -/
structure Watchful (host : Host) (plan : Plan α) {process : Process α} (account : Account process)
    extends Watch process where
  suffix_of_waits : ∀ {place state id number part},
    Waits place state id number part → place <:+ part
  suffix_of_holds : ∀ {place state join size member},
    Holds place state join size member → place <:+ join
  large_of_holds : ∀ {place state join size member},
    Holds place state join size member → sweepLimit < size
  stands_of_stands : ∀ {state} {before after : Store}, Stands state before → Stands state after
  alert_mono : ∀ {place state} {wanted more : Place → PendingId → Prop},
    (∀ id number part, Waits place state id number part → more part id → wanted part id) →
    Alert wanted place state → Alert more place state
  waits_hear : ∀ {path place state id number part},
    Waits place (process.hear path state) id number part ↔ Waits place state id number part
  holds_hear : ∀ {path place state join size member},
    Holds place (process.hear path state) join size member ↔ Holds place state join size member
  stands_hear : ∀ {state store} path, Stands state store → Stands (process.hear path state) store
  /-- The part at the end of a path may want anything once it has heard. -/
  alert_hear : ∀ {place state wanted} path, Alert wanted place state →
    Alert (fun part id => wanted part id ∨ part = path.reverse ++ place) place
      (process.hear path state)
  leaves : ∀ {place state} {store : Store}, store.Sound host →
    (∀ id number part, Waits place state id number part → store.isReady host id = true ∨
      ∀ other, store.Occupied id number other → other = part) →
    store.Leaves host (place <:+ ·) (process.leave state store)
  leave_keeps : ∀ (state) (store : Store),
    { process.leave state store with seats := store.seats } = store
  acts : ∀ {place} {state : Option process.State} {store : Store}, store.Sound host →
    (∀ s, state = some s → toView.Rests host place s store) →
    store.Acts host (place <:+ ·) (plan.Asks host ·) (process.advance place state store).store
      (account.tell place state store)
  reaches : ∀ {place} {state : Option process.State} {store : Store}, store.Sound host →
    (∀ s, state = some s → toView.Rests host place s store) →
    toWatch.Reaches host plan place state (account.tell place state store)
      (process.advance place state store)
  waits : ∀ {place state} {store : Store}, Stands state store →
    toView.Asleep host place state store → ∃ id number part, Waits place state id number part
  /-- A failure is held back for an earlier member, which waits. -/
  behind : ∀ {place state join size member} {store : Store}, Stands state store →
    toView.Asleep host place state store → Holds place state join size member →
    ∃ earlier < member, ∃ id number part, Waits place state id number part ∧
      (earlier :: join) <:+ part

namespace Watchful

variable {plan : Plan α} {process : Process α} {account : Account process}
  (law : Watchful host plan account)

theorem heeds : law.toView.Heeds :=
  ⟨law.suffix_of_waits, law.alert_mono, law.alert_hear⟩

/-- What others do leaves a state at rest. -/
theorem rests_of_steps {place : Place} {state : process.State} {mine : Place → Prop}
    {begins : PendingId → Prop} {before after : Store} (h : law.Rests host place state before)
    (hs : before.Steps host mine begins after) (hm : ∀ part, place <:+ part → ¬ mine part) :
    law.Rests host place state after where
  stands := law.stands_of_stands h.stands
  seated := h.seated.of_steps hs fun _ _ _ hw => hm _ (law.suffix_of_waits hw)
  alert := hs.isReady_eq ▸ h.alert

theorem suffix_of_owes {place : Place} {state : process.State} {part : Place} {id : PendingId}
    (h : law.Owes place state part id) : place <:+ part := by
  rcases h with ⟨number, hw⟩ | ⟨join, size, member, hh, hp⟩
  · exact law.suffix_of_waits hw
  · exact (law.suffix_of_holds hh).trans ((List.suffix_cons member join).trans hp)

/-- A process that never waits. -/
def unwaiting (never : process.State → Empty)
    (acts : ∀ {place state} {store : Store}, store.Sound host →
      store.Acts host (place <:+ ·) (plan.Asks host ·) (process.advance place state store).store
        (account.tell place state store))
    (gives : ∀ {place state} {store : Store} {result}, store.Sound host →
      (process.advance place state store).reached = .ended (.ok result) →
      plan.Gives host result ∧ ∀ part id, (part, .asks id) ∉ account.tell place state store) :
    Watchful host plan account where
  Waits _ state := (never state).elim
  Idle state := (never state).elim
  Alert _ _ state := (never state).elim
  Stands state := (never state).elim
  Holds _ state := (never state).elim
  suffix_of_waits {_ state} := (never state).elim
  suffix_of_holds {_ state} := (never state).elim
  large_of_holds {_ state} := (never state).elim
  stands_of_stands {state} := (never state).elim
  alert_mono {_ state} := (never state).elim
  waits_hear {_ _ state} := (never state).elim
  holds_hear {_ _ state} := (never state).elim
  stands_hear {state} := (never state).elim
  alert_hear {_ state} := (never state).elim
  leaves {_ state} := (never state).elim
  leave_keeps state := (never state).elim
  acts h _ := acts h
  reaches {place state store} h _ := by
    cases hr : (process.advance place state store).reached with
    | ended outcome =>
      cases outcome with
      | ok result =>
        obtain ⟨hg, hn⟩ := gives h hr
        simp only [Watch.Reaches, hr]
        refine ⟨hg, ?_⟩
        rintro part id (hm | ⟨s, -⟩)
        · exact absurd hm (hn part id)
        · exact (never s).elim
      | error error => simp only [Watch.Reaches, hr]
    | exhausted => simp only [Watch.Reaches, hr]
    | waiting s => exact (never s).elim
  waits {_ state} := (never state).elim
  behind {_ state} := (never state).elim

/-- A process that does a single thing, and comes for nothing. -/
def act {action : Store → Except Error α × Store} {deeds : List Deed}
    (acts : ∀ {mine : Place → Prop} {place : Place} {store : Store}, store.Sound host → mine place →
      store.Acts host mine (plan.Asks host ·) (action store).2 (deeds.map (place, ·)))
    (gives : ∀ {store : Store} {result}, store.Sound host → (action store).1 = .ok result →
      plan.Gives host result)
    (quiet : ∀ id, .asks id ∉ deeds) : Watchful host plan (Account.act action deeds) :=
  unwaiting id (fun h => acts h List.suffix_rfl) fun {place state store result} h hr => by
    have hr : (action store).1 = .ok result := by simpa [Process.act] using hr
    refine ⟨gives h hr, fun part id hm => ?_⟩
    obtain ⟨_, hd, he⟩ := List.mem_map.1 hm
    cases he
    exact quiet id hd

def done (result : α) :
    Watchful host (.done result) (Account.act (fun store => (.ok result, store)) []) :=
  act (fun h _ => .refl h) (fun _ hr => by cases hr; rfl) nofun

def fail (error : Error) :
    Watchful host (.fail error : Plan α) (Account.act (fun store => (.error error, store)) []) :=
  act (fun h _ => .refl h) (fun _ hr => by cases hr) nofun

def exhausted : Watchful host (.exhausted : Plan α) Account.exhausted :=
  unwaiting id (fun h => .refl h) fun _ hr => by cases hr

def callInline (id : LambdaId) :
    Watchful host (.callInline id .done) (Account.act (fun store =>
      (.ok (host.inline id (store.callCount (.inline id))), store.record (.inline id)))
      [.calls (.inline id)]) :=
  act (fun h hm => Store.acts_record h _ hm)
    (fun {store _} _ hr => ⟨store.callCount (.inline id), (Except.ok.inj hr).symm⟩) (by simp)

def callBlock (id : LambdaId) (call : BlockCall) :
    Watchful host (.callBlock id call .done) (Account.act (fun store =>
      (.ok (host.block id (store.callCount (.block id)) call),
        store.record (.block id call.raw call.tags)))
      [.calls (.block id call.raw call.tags)]) :=
  act (fun h hm => Store.acts_record h _ hm)
    (fun {store _} _ hr => ⟨store.callCount (.block id), (Except.ok.inj hr).symm⟩) (by simp)

def compile (source : Text) (tags : Tags) :
    Watchful host (.compile source tags .done) (Account.act (fun store =>
      let (entry, cache) := store.cache.fetch source tags
      (entry.map CacheEntry.nodes, { store with cache })) [.compiles source tags]) :=
  act (fun h hm => Store.acts_fetch h source tags hm)
    (fun h hr => ⟨_, (h.cache.map_nodes_fetch source tags).symm.trans hr, rfl⟩) (by simp)

end Watchful

section Value
variable {id : PendingId} {place : Place} {store : Store}

/-- Whoever waits for a value has come for it. -/
def Watch.value (host : Host) (id : PendingId) : Watch (Process.value host id) where
  Waits place state awaited number part := awaited = id ∧ number = state ∧ part = place
  Idle _ := True
  Alert _ _ _ := True
  Stands _ _ := True
  Holds _ _ _ _ _ := False

variable {state : Option (Process.value host id).State} {told : Journal}

theorem value_wants {part : Place} {other : PendingId}
    (h : (Watch.value host id).Wants place state ((Account.value host id).tell place state store)
      part other) : part = place ∧ other = id := by
  rcases h with hm | ⟨s, -, ⟨_, rfl, -, rfl⟩ | ⟨_, _, _, hh, -⟩⟩
  · rcases List.mem_cons.1 hm with he | hm
    · cases he
      exact ⟨rfl, rfl⟩
    · rcases List.mem_append.1 hm with hm | hm <;> split at hm <;> simp at hm
  · exact ⟨rfl, rfl⟩
  · exact hh.elim

theorem value_ended {news : Bool} (hy : id ∈ store.yielded)
    (hw : ∀ part other, (Watch.value host id).Wants place state told part other → other = id) :
    (Watch.value host id).Reaches host (.await id .done) place state told
      ⟨.ended (host.pending id).result, news, store⟩ := by
  cases hv : (host.pending id).result with
  | ok v =>
    refine ⟨⟨v, hv, rfl⟩, fun part other h => ?_⟩
    rw [hw part other h]
    exact ⟨hy, v, hv⟩
  | error error => trivial

theorem value_waiting {number : Nat} (hr : store.isReady host id = false)
    (ho : store.Occupied id number place) (hm : (place, .asks id) ∈ told)
    (hw : ∀ part other, (Watch.value host id).Wants place state told part other →
      part = place ∧ other = id) :
    (Watch.value host id).Reaches host (.await id .done) place state told
      ⟨.waiting number, false, store⟩ := by
  refine ⟨⟨trivial, ?_, trivial⟩, fun _ => ⟨trivial, ?_⟩, ⟨fun part other h => ?_, ?_, nofun⟩⟩
  · rintro _ _ _ ⟨rfl, rfl, rfl⟩
    exact .inr ho
  · rintro _ _ _ ⟨rfl, -, -⟩
    exact hr
  · obtain ⟨rfl, rfl⟩ := hw part other h
    exact .inr (.inl ⟨number, rfl, rfl, rfl⟩)
  · rintro _ _ _ ⟨rfl, -, rfl⟩
    exact .inr hm

theorem value_advance (h : store.Sound host)
    (hrest : ∀ s, state = some s → (Watch.value host id).Rests host place s store) :
    store.Acts host (place <:+ ·) ((Plan.await id .done).Asks host ·)
      ((Process.value host id).advance place state store).store
      ((Account.value host id).tell place state store) ∧
    (Watch.value host id).Reaches host (.await id .done) place state
      ((Account.value host id).tell place state store)
      ((Process.value host id).advance place state store) := by
  have hw : ∀ part other, (Watch.value host id).Wants place state
      ((Account.value host id).tell place state store) part other → part = place ∧ other = id :=
    fun _ _ => value_wants
  have hb : store.Acts host (place <:+ ·) ((Plan.await id .done).Asks host ·) (store.begin id)
      ((place, .asks id) :: if id ∈ store.begun then [] else [(place, .begins id)]) :=
    Store.acts_begin h List.suffix_rfl (.inl rfl)
  have hready : (store.begin id).isReady host id = store.isReady host id := rfl
  have hyielded : id ∈ (store.begin id).yielded ↔ id ∈ store.yielded := Iff.rfl
  simp only [Process.value, Account.value, hready, hyielded] at hw ⊢
  by_cases hy : id ∈ store.yielded
  · simp only [hy, true_or, if_true] at hw ⊢
    exact ⟨hb.append (Store.acts_obtain hb.sound hy List.suffix_rfl),
      value_ended hy fun part other h => (hw part other h).2⟩
  by_cases hr : store.isReady host id = true
  · simp only [hy, hr, or_true, if_true, if_false] at hw ⊢
    refine ⟨hb.append (Store.acts_yield hb.sound hr List.suffix_rfl),
      value_ended ?_ fun part other h => (hw part other h).2⟩
    simp [Store.yield, Std.TreeSet.mem_insert]
  · have hr : (store.begin id).isReady host id = false := Bool.eq_false_iff.2 hr
    simp only [hy, hready ▸ hr, Bool.false_eq_true, or_self, if_false, List.append_nil] at hw ⊢
    cases state with
    | none =>
      have hseat : (store.begin id).Acts host (place <:+ ·) ((Plan.await id .done).Asks host ·)
          ((store.begin id).seat id place).2 [] := Store.acts_seat hb.sound hr place
      refine ⟨by simpa using hb.append hseat, ?_⟩
      exact value_waiting (hseat.isReady_eq ▸ hr) (Store.occupied_seat _ id place)
        (List.mem_cons_self ..) hw
    | some number =>
      refine ⟨hb, ?_⟩
      rcases (hrest number rfl).seated id number place ⟨rfl, rfl, rfl⟩ with hr' | ho
      · rw [← hready, hr] at hr'
        cases hr'
      · exact value_waiting hr ho (List.mem_cons_self ..) hw

def Watchful.value (host : Host) (id : PendingId) :
    Watchful host (.await id .done) (Account.value host id) where
  toWatch := .value host id
  suffix_of_waits h := h.2.2 ▸ List.suffix_rfl
  suffix_of_holds := nofun
  large_of_holds := nofun
  stands_of_stands _ := trivial
  alert_mono _ _ := trivial
  waits_hear := Iff.rfl
  holds_hear := Iff.rfl
  stands_hear _ _ := trivial
  alert_hear _ _ := trivial
  leaves {place state _} h hown :=
    Store.leaves_unseat h List.suffix_rfl (hown id state place ⟨rfl, rfl, rfl⟩)
  leave_keeps _ _ := rfl
  acts h hrest := (value_advance h hrest).1
  reaches h hrest := (value_advance h hrest).2
  waits {place state _} _ _ := ⟨id, state, place, rfl, rfl, rfl⟩
  behind := nofun

end Value

section Bind
variable {plan : Plan β} {next : β → Plan α} {process : Process β} {rest : β → Process α}
  {place : Place} {store : Store}

namespace Watch

def bind (host : Host) (plan : Plan β) (first : Watch process) (second : ∀ b, Watch (rest b)) :
    Watch (process.bind rest) where
  Waits place
    | .inl state => first.Waits place state
    | .inr ⟨b, state⟩ => (second b).Waits place state
  Idle
    | .inl state => first.Idle state
    | .inr ⟨b, state⟩ => (second b).Idle state
  Alert wanted place
    | .inl state => first.Alert wanted place state
    | .inr ⟨b, state⟩ => (second b).Alert wanted place state
  Stands
    | .inl state, store => first.Stands state store
    | .inr ⟨b, state⟩, store => plan.Gives host b ∧ (second b).Stands state store
  Holds place
    | .inl state => first.Holds place state
    | .inr ⟨b, state⟩ => (second b).Holds place state

variable {first : Watch process} {second : ∀ b, Watch (rest b)}

theorem rests_inl {state : process.State} :
    (Watch.bind host plan first second).Rests host place (.inl state) store ↔
      first.Rests host place state store :=
  ⟨fun h => ⟨h.stands, h.seated, h.alert⟩, fun h => ⟨h.stands, h.seated, h.alert⟩⟩

theorem rests_inr {b : β} {state : (rest b).State} :
    (Watch.bind host plan first second).Rests host place (.inr ⟨b, state⟩) store ↔
      plan.Gives host b ∧ (second b).Rests host place state store :=
  ⟨fun h => ⟨h.stands.1, h.stands.2, h.seated, h.alert⟩,
    fun h => ⟨⟨h.1, h.2.stands⟩, h.2.seated, h.2.alert⟩⟩

theorem owes_inl {s : process.State} {part : Place} {id : PendingId} :
    (Watch.bind host plan first second).Owes place (.inl s) part id ↔ first.Owes place s part id :=
  Iff.rfl

theorem owes_inr {b : β} {s : (rest b).State} {part : Place} {id : PendingId} :
    (Watch.bind host plan first second).Owes place (.inr ⟨b, s⟩) part id ↔
      (second b).Owes place s part id :=
  Iff.rfl

theorem wants_inl {state : Option process.State} {told : Journal} {part : Place} {id : PendingId} :
    (Watch.bind host plan first second).Wants place (state.map .inl) told part id ↔
      first.Wants place state told part id := by
  cases state with
  | none => exact wants_none.trans wants_none.symm
  | some s => exact wants_some.trans ((or_congr_right owes_inl).trans wants_some.symm)

theorem wants_inr {b : β} {s : (rest b).State} {told : Journal} {part : Place} {id : PendingId} :
    (Watch.bind host plan first second).Wants place (some (.inr ⟨b, s⟩)) told part id ↔
      (second b).Wants place (some s) told part id :=
  wants_some.trans ((or_congr_right owes_inr).trans wants_some.symm)

/-- The first process waits. -/
theorem Keeps.inl {state : Option process.State} {told : Journal} {later : process.State}
    (h : first.Keeps host place state told store later) :
    (Watch.bind host plan first second).Keeps host place (state.map .inl) told store (.inl later) where
  wanted part id hw := h.wanted part id (wants_inl.1 hw)
  waits id number part hw :=
    (h.waits id number part hw).imp_left fun ⟨s, hs, hw⟩ => ⟨.inl s, by rw [hs]; rfl, hw⟩
  holds join size member hh :=
    (h.holds join size member hh).imp_left fun ⟨s, hs, hh⟩ => ⟨.inl s, by rw [hs]; rfl, hh⟩

/-- An advance of the second process, when the first is over and all has come that it wanted. -/
theorem reaches_within {b : β} {state : Option (process.bind rest).State}
    {own : Option (rest b).State} {told more : Journal} {advance : Advance (rest b).State α}
    {news : Bool} (hb : plan.Gives host b)
    (hwants : ∀ part id, (Watch.bind host plan first second).Wants place state (told ++ more) part id →
      advance.store.Came host id ∨ (second b).Wants place own more part id)
    (hown : ∀ s, own = some s → state = some (.inr ⟨b, s⟩))
    (h : (second b).Reaches host (next b) place own more advance) :
    (Watch.bind host plan first second).Reaches host (plan.bind next) place state (told ++ more)
      (advance.within (.inr ⟨b, ·⟩) news) := by
  obtain ⟨reached, anews, after⟩ := advance
  cases reached with
  | ended outcome =>
    cases outcome with
    | ok result =>
      refine ⟨Plan.gives_bind.2 ⟨b, hb, h.1⟩, fun part id hw => ?_⟩
      exact (hwants part id hw).elim (fun hc => hc) (h.2 part id)
    | error error => trivial
  | exhausted => trivial
  | waiting later =>
    obtain ⟨hrests, hasleep, hkeeps⟩ := h
    refine ⟨rests_inr.2 ⟨hb, hrests⟩, fun hn => ?_, ⟨fun part id hw => ?_, ?_, ?_⟩⟩
    · have ha := hasleep (Bool.or_eq_false_iff.1 hn).2
      exact ⟨ha.idle, ha.not_ready⟩
    · exact (hwants part id hw).elim .inl (hkeeps.wanted part id)
    · intro id number part hw
      rcases hkeeps.waits id number part hw with ⟨s, hs, hw⟩ | hm
      · exact .inl ⟨_, hown s hs, hw⟩
      · exact .inr (List.mem_append_right _ hm)
    · intro join size member hh
      rcases hkeeps.holds join size member hh with ⟨s, hs, hh⟩ | hm
      · exact .inl ⟨_, hown s hs, hh⟩
      · exact .inr (List.mem_append_right _ hm)

end Watch

namespace Watchful

variable {account : Account process} {accounts : ∀ b, Account (rest b)}
  (law : Watchful host plan account) (laws : ∀ b, Watchful host (next b) (accounts b))

abbrev bindWatch : Watch (process.bind rest) :=
  .bind host plan law.toWatch fun b => (laws b).toWatch

theorem bind_first (h : store.Sound host) (state : Option process.State)
    (hrest : ∀ s, state = some s → law.Rests host place s store) :
    let advance := (process.bind rest).advance place (state.map .inl) store
    let told := (account.bind accounts).tell place (state.map .inl) store
    store.Acts host (place <:+ ·) ((plan.bind next).Asks host ·) advance.store told ∧
    (bindWatch law laws).Reaches host (plan.bind next) place (state.map .inl) told advance := by
  have ha := law.acts h hrest
  have hr := law.reaches h hrest
  have ha' := ha.mono (fun _ hp => hp) fun id hi => Plan.asks_bind (f := next).2 (.inl hi)
  rw [Account.tell_bind_inl, Lawful.advance_bind_inl]
  generalize process.advance place state store = advance at ha ha' hr
  generalize account.tell place state store = told at ha ha' hr
  obtain ⟨reached, news, after⟩ := advance
  cases reached with
  | ended outcome =>
    cases outcome with
    | ok b =>
      have hnone : ∀ s, (none : Option (rest b).State) = some s → (laws b).Rests host place s after :=
        nofun
      have hb := (laws b).acts ha.sound hnone
      have hown : ∀ s, (none : Option (rest b).State) = some s →
          state.map (Sum.inl (β := (b : β) × (rest b).State)) = some (.inr ⟨b, s⟩) := nofun
      refine ⟨ha'.append (hb.mono (fun _ hp => hp) fun id hi => Plan.asks_bind.2 (.inr ⟨b, hr.1, hi⟩)),
        Watch.reaches_within hr.1 (fun part id hw => ?_) hown ((laws b).reaches ha.sound hnone)⟩
      exact hw.append.imp (fun hw => (hr.2 part id (Watch.wants_inl.1 hw)).mono hb.yielded_mono) .inl
    | error error => exact ⟨by simpa using ha', trivial⟩
  | exhausted => exact ⟨by simpa using ha', trivial⟩
  | waiting later =>
    obtain ⟨hrests, hasleep, hkeeps⟩ := hr
    refine ⟨by simpa using ha', Watch.rests_inl.2 hrests, fun hn => ?_, ?_⟩
    · exact ⟨(hasleep hn).idle, (hasleep hn).not_ready⟩
    · simpa using hkeeps.inl

theorem bind_advance (h : store.Sound host) {state : Option (process.bind rest).State}
    (hrest : ∀ s, state = some s → (bindWatch law laws).Rests host place s store) :
    let advance := (process.bind rest).advance place state store
    let told := (account.bind accounts).tell place state store
    store.Acts host (place <:+ ·) ((plan.bind next).Asks host ·) advance.store told ∧
    (bindWatch law laws).Reaches host (plan.bind next) place state told advance := by
  rcases state with _ | s | ⟨b, s⟩
  · refine bind_first law laws h none ?_
    rintro _ ⟨⟩
  · refine bind_first law laws h (some s) ?_
    rintro _ ⟨⟩
    exact Watch.rests_inl.1 (hrest _ rfl)
  · obtain ⟨hb, hs⟩ := Watch.rests_inr.1 (hrest _ rfl)
    have hown : ∀ t, some s = some t → (laws b).Rests host place t store := by
      rintro _ ⟨⟩
      exact hs
    refine ⟨((laws b).acts h hown).mono (fun _ hp => hp) fun id hi =>
      Plan.asks_bind.2 (.inr ⟨b, hb, hi⟩), ?_⟩
    have hwants : ∀ part id, (bindWatch law laws).Wants place (some (.inr ⟨b, s⟩))
        ([] ++ (accounts b).tell place (some s) store) part id →
        ((rest b).advance place (some s) store).store.Came host id ∨
          (laws b).Wants place (some s) ((accounts b).tell place (some s) store) part id := by
      intro part id hw
      have hsecond := Watch.wants_inr.1 hw
      exact .inr hsecond
    refine Watch.reaches_within hb hwants ?_ ((laws b).reaches h hown)
    rintro _ ⟨⟩
    rfl

/-- A process that goes on with another keeps the law if both do. -/
def bind : Watchful host (plan.bind next) (account.bind accounts) where
  toWatch := bindWatch law laws
  suffix_of_waits {_ state _ _ _} h := by
    match state with
    | .inl _ => exact law.suffix_of_waits h
    | .inr ⟨b, _⟩ => exact (laws b).suffix_of_waits h
  suffix_of_holds {_ state _ _ _} h := by
    match state with
    | .inl _ => exact law.suffix_of_holds h
    | .inr ⟨b, _⟩ => exact (laws b).suffix_of_holds h
  large_of_holds {_ state _ _ _} h := by
    match state with
    | .inl _ => exact law.large_of_holds h
    | .inr ⟨b, _⟩ => exact (laws b).large_of_holds h
  stands_of_stands {state _ _} h := by
    match state with
    | .inl _ => exact law.stands_of_stands h
    | .inr ⟨b, _⟩ => exact ⟨h.1, (laws b).stands_of_stands h.2⟩
  alert_mono {_ state} _ _ hw h := by
    match state with
    | .inl _ => exact law.alert_mono hw h
    | .inr ⟨b, _⟩ => exact (laws b).alert_mono hw h
  waits_hear {_ _ state} _ _ _ := by
    match state with
    | .inl _ => exact law.waits_hear
    | .inr ⟨b, _⟩ => exact (laws b).waits_hear
  holds_hear {_ _ state} _ _ _ := by
    match state with
    | .inl _ => exact law.holds_hear
    | .inr ⟨b, _⟩ => exact (laws b).holds_hear
  stands_hear {state} _ path h := by
    match state with
    | .inl _ => exact law.stands_hear path h
    | .inr ⟨b, _⟩ => exact ⟨h.1, (laws b).stands_hear path h.2⟩
  alert_hear {_ state} _ path h := by
    match state with
    | .inl _ => exact law.alert_hear path h
    | .inr ⟨b, _⟩ => exact (laws b).alert_hear path h
  leaves {_ state} _ h hown := by
    match state with
    | .inl _ => exact law.leaves h hown
    | .inr ⟨b, _⟩ => exact (laws b).leaves h hown
  leave_keeps state store := by
    match state with
    | .inl s => exact law.leave_keeps s store
    | .inr ⟨b, s⟩ => exact (laws b).leave_keeps s store
  acts h hrest := (bind_advance law laws h hrest).1
  reaches h hrest := (bind_advance law laws h hrest).2
  waits {_ state _} hs ha := by
    match state with
    | .inl _ => exact law.waits hs ⟨ha.idle, ha.not_ready⟩
    | .inr ⟨b, _⟩ => exact (laws b).waits hs.2 ⟨ha.idle, ha.not_ready⟩
  behind {_ state _ _ _ _} hs ha hh := by
    match state with
    | .inl _ => exact law.behind hs ⟨ha.idle, ha.not_ready⟩ hh
    | .inr ⟨b, _⟩ => exact (laws b).behind hs.2 ⟨ha.idle, ha.not_ready⟩ hh

/-- The watch of a process is also one of the process whose end is news. -/
abbrev announcedWatch : Watch process.announced :=
  ⟨⟨law.Waits, law.Idle, law.Alert, law.Stands⟩, law.Holds⟩

theorem announced_reaches (h : store.Sound host) {state : Option process.State}
    (hrest : ∀ s, state = some s → law.Rests host place s store) :
    law.announcedWatch.Reaches host (.inner plan .done) place state
      (account.tell place state store) (process.announced.advance place state store) := by
  have hr := law.reaches h hrest
  simp only [Process.announced]
  generalize process.advance place state store = advance at hr
  obtain ⟨reached, news, after⟩ := advance
  cases reached with
  | ended outcome =>
    cases outcome with
    | ok result => exact ⟨Plan.gives_inner_done.2 hr.1, hr.2⟩
    | error error => trivial
  | exhausted => trivial
  | waiting later =>
    obtain ⟨hrests, hasleep, hkeeps⟩ := hr
    exact ⟨⟨hrests.stands, hrests.seated, hrests.alert⟩,
      fun hn => ⟨(hasleep hn).idle, (hasleep hn).not_ready⟩, hkeeps.wanted, hkeeps.waits, hkeeps.holds⟩

/-- That the end of a process is news changes nothing about its law. -/
def announced : Watchful host (.inner plan .done) account.announced where
  toWatch := law.announcedWatch
  suffix_of_waits := law.suffix_of_waits
  suffix_of_holds := law.suffix_of_holds
  large_of_holds := law.large_of_holds
  stands_of_stands := law.stands_of_stands
  alert_mono := law.alert_mono
  waits_hear := law.waits_hear
  holds_hear := law.holds_hear
  stands_hear := law.stands_hear
  alert_hear := law.alert_hear
  leaves := law.leaves
  leave_keeps := law.leave_keeps
  acts {place state store} h hrest := by
    have hstore : (process.announced.advance place state store).store =
        (process.advance place state store).store := by
      simp only [Process.announced]
      split <;> rfl
    rw [hstore]
    refine (law.acts h fun s e => ?_).mono (fun _ hp => hp) fun _ => Plan.asks_inner_done.2
    exact ⟨(hrest s e).stands, (hrest s e).seated, (hrest s e).alert⟩
  reaches h hrest := law.announced_reaches h fun s e =>
    ⟨(hrest s e).stands, (hrest s e).seated, (hrest s e).alert⟩
  waits hs ha := law.waits hs ⟨ha.idle, ha.not_ready⟩
  behind hs ha hh := law.behind hs ⟨ha.idle, ha.not_ready⟩ hh

end Watchful
end Bind

end Process
end Stencil
