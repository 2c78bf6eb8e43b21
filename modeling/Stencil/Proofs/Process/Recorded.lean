import Stencil.Proofs.Plan.Runs
import Stencil.Proofs.Process.Bind
import Stencil.Proofs.Process.Orderly

/-!
# Recorded processes

A process whose account is the whole truth about it. The deeds told of its advances, up to the one
in which it ends with a result, are those of a run of its plan to that result; and what an advance
does to the cache is to fetch what it tells to compile.
-/

namespace Stencil

variable {α β : Type} {host : Host}

namespace Journal

/-- What is compiled, in order. -/
def compiled (journal : Journal) : List (Text × Tags) :=
  journal.filterMap fun
    | (_, .compiles source tags) => some (source, tags)
    | _ => none

@[simp] theorem compiled_append {journal more : Journal} :
    (journal ++ more).compiled = journal.compiled ++ more.compiled :=
  List.filterMap_append

theorem mem_compiled {journal : Journal} {source : Text} {tags : Tags} :
    (source, tags) ∈ journal.compiled ↔ ∃ part, (part, .compiles source tags) ∈ journal := by
  rw [compiled, List.mem_filterMap]
  constructor
  · rintro ⟨⟨part, deed⟩, hm, hd⟩
    cases deed with
    | compiles _ _ =>
      cases hd
      exact ⟨part, hm⟩
    | _ => cases hd
  · rintro ⟨part, hm⟩
    exact ⟨_, hm, rfl⟩

end Journal

namespace Process

/-- Where a process stands, or that it has done nothing yet. -/
def Stood {σ : Type} (Stands : Place → σ → Journal → Prop) (place : Place) :
    Option σ → Journal → Prop
  | none, told => told = []
  | some s, told => Stands place s told

/-- How far an advance gets, with these deeds behind it. -/
def Records {σ : Type} (host : Host) (plan : Plan α) (Stands : Place → σ → Journal → Prop)
    (place : Place) (told : Journal) : Reached σ α → Prop
  | .ended (.ok result) => plan.Runs host place told result
  | .ended (.error _) | .exhausted => True
  | .waiting s => Stands place s told

/-- A process with a plan and an account, which tells all that is done. -/
structure Recorded (host : Host) (plan : Plan α) {process : Process α} (account : Account process)
    where
  /-- Where the process may stand when it has done these deeds. -/
  Stands : Place → process.State → Journal → Prop
  stands_hear : ∀ {place s told} path, Stands place s told → Stands place (process.hear path s) told
  within : ∀ {place state store part deed},
    (part, deed) ∈ account.tell place state store → place <:+ part
  leave_cache : ∀ s (store : Store), (process.leave s store).cache = store.cache
  cache_eq : ∀ place state store, (process.advance place state store).store.cache =
    store.cache.fetchAll (account.tell place state store).compiled
  records : ∀ {store : Store} {told} (place state), store.cache.Sound →
    Stood Stands place state told →
    Records host plan Stands place (told ++ account.tell place state store)
      (process.advance place state store).reached

namespace Recorded

/-- A process that never waits. -/
def unwaiting {plan : Plan α} {process : Process α} {account : Account process}
    (never : process.State → Empty)
    (within : ∀ {place state store part deed},
      (part, deed) ∈ account.tell place state store → place <:+ part)
    (cache_eq : ∀ place state store, (process.advance place state store).store.cache =
      store.cache.fetchAll (account.tell place state store).compiled)
    (runs : ∀ {place} {store : Store} {result}, store.cache.Sound →
      (process.advance place none store).reached = .ended (.ok result) →
      plan.Runs host place (account.tell place none store) result) :
    Recorded host plan account where
  Stands _ s := (never s).elim
  stands_hear {_ s} := (never s).elim
  within := within
  leave_cache s := (never s).elim
  cache_eq := cache_eq
  records {store told} place state hs ht := by
    cases state with
    | some s => exact (never s).elim
    | none =>
      obtain rfl : told = [] := ht
      rw [List.nil_append]
      cases hr : (process.advance place none store).reached with
      | ended outcome =>
        cases outcome with
        | ok result => exact runs hs hr
        | error error => trivial
      | exhausted => trivial
      | waiting s => exact (never s).elim

/-- A process that does a single thing. -/
def act {plan : Plan α} {action : Store → Except Error α × Store} {deeds : List Deed}
    (cache_eq : ∀ (place : Place) (store : Store), (action store).2.cache =
      store.cache.fetchAll (Journal.compiled (deeds.map (place, ·))))
    (runs : ∀ {place : Place} {store : Store} {result}, store.cache.Sound →
      (action store).1 = .ok result → plan.Runs host place (deeds.map (place, ·)) result) :
    Recorded host plan (Account.act action deeds) :=
  unwaiting id
    (fun hm => by
      obtain ⟨_, -, he⟩ := List.mem_map.1 hm
      cases he
      exact List.suffix_rfl)
    (fun place _ store => cache_eq place store)
    (fun {place store result} hs hr => runs hs (by simpa [Process.act] using hr))

def done (result : α) :
    Recorded host (.done result) (Account.act (fun store => (.ok result, store)) []) :=
  act (fun _ _ => rfl) fun _ hr => by
    cases hr
    exact ⟨rfl, rfl⟩

def fail (error : Error) :
    Recorded host (.fail error : Plan α) (Account.act (fun store => (.error error, store)) []) :=
  act (fun _ _ => rfl) fun _ hr => by cases hr

def exhausted : Recorded host (.exhausted : Plan α) Account.exhausted :=
  unwaiting id nofun (fun _ _ _ => rfl) fun _ hr => by cases hr

def callInline (id : LambdaId) :
    Recorded host (.callInline id .done) (Account.act (fun store =>
      (.ok (host.inline id (store.callCount (.inline id))), store.record (.inline id)))
      [.calls (.inline id)]) :=
  act (fun _ _ => rfl) fun {_ store _} _ hr => by
    cases hr
    exact ⟨[], store.callCount (.inline id), rfl, rfl, rfl⟩

def callBlock (id : LambdaId) (call : BlockCall) :
    Recorded host (.callBlock id call .done) (Account.act (fun store =>
      (.ok (host.block id (store.callCount (.block id)) call),
        store.record (.block id call.raw call.tags)))
      [.calls (.block id call.raw call.tags)]) :=
  act (fun _ _ => rfl) fun {_ store _} _ hr => by
    cases hr
    exact ⟨[], store.callCount (.block id), rfl, rfl, rfl⟩

def compile (source : Text) (tags : Tags) :
    Recorded host (.compile source tags .done) (Account.act (fun store =>
      let (entry, cache) := store.cache.fetch source tags
      (entry.map CacheEntry.nodes, { store with cache })) [.compiles source tags]) :=
  act (fun _ _ => rfl) fun {_ store nodes} hs hr => by
    have hn : Template.compile source tags = .ok nodes := by
      rw [← hs.map_nodes_fetch source tags]
      exact hr
    exact ⟨[], nodes, rfl, hn, rfl, rfl⟩

section Value
variable {place : Place} {store : Store} {id : PendingId} {seat : Option Nat}

/-- Whatever is told of a value, it is told of coming for it. -/
theorem of_mem_value {part : Place} {deed : Deed}
    (h : (part, deed) ∈ (Account.value host id).tell place seat store) :
    part = place ∧ deed.ComesFor id := by
  simp only [Account.value, List.mem_cons, List.mem_append] at h
  rcases h with h | h | h
  · cases h
    exact ⟨rfl, rfl⟩
  · split at h
    · cases h
    · cases List.mem_singleton.1 h
      exact ⟨rfl, rfl⟩
  · split at h
    · cases List.mem_singleton.1 h
      exact ⟨rfl, rfl⟩
    · cases h

def value (host : Host) (id : PendingId) :
    Recorded host (.await id .done) (Account.value host id) where
  Stands place _ told := ∀ part deed, (part, deed) ∈ told → part = place ∧ deed.ComesFor id
  stands_hear _ h := h
  within h := (of_mem_value h).1 ▸ List.suffix_rfl
  leave_cache _ _ := rfl
  cache_eq place seat store := by
    have hnone : ((Account.value host id).tell place seat store).compiled = [] := by
      refine List.filterMap_eq_nil_iff.2 ?_
      rintro ⟨part, deed⟩ hm
      have hc := (of_mem_value hm).2
      cases deed with
      | compiles => exact hc.elim
      | _ => rfl
    rw [hnone]
    simp only [Process.value]
    split
    · rfl
    · split
      · rfl
      · cases seat <;> rfl
  records {store told} place seat _ ht := by
    have htold : ∀ part deed, (part, deed) ∈ told → part = place ∧ deed.ComesFor id := by
      cases seat with
      | none =>
        obtain rfl : told = [] := ht
        exact fun _ _ hm => absurd hm List.not_mem_nil
      | some _ => exact ht
    have hall : ∀ part deed, (part, deed) ∈ told ++ (Account.value host id).tell place seat store →
        part = place ∧ deed.ComesFor id := fun part deed hm =>
      (List.mem_append.1 hm).elim (htold part deed) of_mem_value
    generalize told ++ (Account.value host id).tell place seat store = told' at hall
    have hended : Records host (.await id .done)
        (fun place (_ : Nat) told => ∀ part deed, (part, deed) ∈ told → part = place ∧ deed.ComesFor id)
        place told' (.ended (host.pending id).result) := by
      cases hr : (host.pending id).result with
      | ok v => exact ⟨told', [], v, (List.append_nil _).symm, hall, hr, rfl, rfl⟩
      | error error => trivial
    simp only [Process.value]
    split
    · exact hended
    · split
      · exact hended
      · cases seat <;> exact hall

end Value

section Bind
variable {plan : Plan β} {next : β → Plan α} {process : Process β} {rest : β → Process α}
  {account : Account process} {accounts : ∀ b, Account (rest b)} {place : Place} {store : Store}
  {told : Journal}

/-- Where one process stands that goes on with another. -/
def StandsBind (host : Host) (plan : Plan β) (First : Place → process.State → Journal → Prop)
    (Second : ∀ b, Place → (rest b).State → Journal → Prop) (place : Place) :
    (process.bind rest).State → Journal → Prop
  | .inl s, told => First place s told
  | .inr ⟨b, s⟩, told => ∃ front back, told = front ++ back ∧ plan.Runs host place front b ∧
    Second b place s back

variable (law : Recorded host plan account) (laws : ∀ b, Recorded host (next b) (accounts b))

include law laws in
theorem cache_bind_inl (state : Option process.State) :
    ((process.bind rest).advance place (state.map .inl) store).store.cache =
      store.cache.fetchAll ((account.bind accounts).tell place (state.map .inl) store).compiled := by
  rw [Account.tell_bind_inl, Lawful.advance_bind_inl, Journal.compiled_append, Cache.fetchAll_append,
    ← law.cache_eq place state store]
  generalize process.advance place state store = advance
  obtain ⟨reached, news, after⟩ := advance
  cases reached with
  | ended outcome =>
    cases outcome with
    | ok b => exact (laws b).cache_eq place none after
    | error error => rfl
  | exhausted | waiting => rfl

/-- An advance of the second process, when the first is over. -/
theorem records_within {b : β} {front back : Journal} {advance : Advance (rest b).State α}
    {news : Bool} (hb : plan.Runs host place front b)
    (h : Records host (next b) (laws b).Stands place back advance.reached) :
    Records host (plan.bind next)
      (StandsBind host plan law.Stands fun b => (laws b).Stands) place (front ++ back)
      (advance.within (.inr ⟨b, ·⟩) news : Advance (process.bind rest).State α).reached := by
  obtain ⟨reached, anews, after⟩ := advance
  cases reached with
  | ended outcome =>
    cases outcome with
    | ok result => exact Plan.runs_bind.2 ⟨front, back, b, rfl, hb, h⟩
    | error error => trivial
  | exhausted => trivial
  | waiting s => exact ⟨front, back, rfl, hb, h⟩

/-- The first process is not over, at the start of the advance. -/
theorem records_inl (hs : store.cache.Sound) (state : Option process.State)
    (ht : Stood law.Stands place state told) :
    Records host (plan.bind next) (StandsBind host plan law.Stands fun b => (laws b).Stands) place
      (told ++ (account.bind accounts).tell place (state.map .inl) store)
      ((process.bind rest).advance place (state.map .inl) store).reached := by
  have hr := law.records place state hs ht
  have hcache := law.cache_eq place state store
  rw [Account.tell_bind_inl, Lawful.advance_bind_inl, ← List.append_assoc]
  generalize process.advance place state store = advance at hr hcache
  generalize account.tell place state store = first at hr hcache
  obtain ⟨reached, news, after⟩ := advance
  cases reached with
  | ended outcome =>
    cases outcome with
    | ok b =>
      have hafter : after.cache.Sound := by
        simp only at hcache
        exact hcache ▸ hs.fetchAll _
      have hsecond := (laws b).records place none hafter rfl
      exact records_within law laws hr hsecond
    | error error => trivial
  | exhausted => trivial
  | waiting s => simpa [Records, StandsBind] using hr

/-- A process that goes on with another is recorded if both are. -/
def bind : Recorded host (plan.bind next) (account.bind accounts) where
  Stands := StandsBind host plan law.Stands fun b => (laws b).Stands
  stands_hear {place state told} path h := by
    rcases state with _ | ⟨b, _⟩
    · exact law.stands_hear path h
    · obtain ⟨front, back, rfl, hb, hs⟩ := h
      exact ⟨front, back, rfl, hb, (laws b).stands_hear path hs⟩
  within {place state store part deed} hm := by
    have hinl : ∀ state : Option process.State,
        (part, deed) ∈ (account.bind accounts).tell place (state.map .inl) store →
        place <:+ part := by
      intro state hm
      rw [Account.tell_bind_inl] at hm
      rcases List.mem_append.1 hm with hm | hm
      · exact law.within hm
      · split at hm
        · exact (laws _).within hm
        · cases hm
    rcases state with _ | s | ⟨b, s⟩
    · exact hinl none hm
    · exact hinl (some s) hm
    · exact (laws b).within hm
  leave_cache state store := by
    rcases state with s | ⟨b, s⟩
    · exact law.leave_cache s store
    · exact (laws b).leave_cache s store
  cache_eq place state store := by
    rcases state with _ | s | ⟨b, s⟩
    · exact cache_bind_inl law laws none
    · exact cache_bind_inl law laws (some s)
    · exact (laws b).cache_eq place (some s) store
  records {store told} place state hs ht := by
    rcases state with _ | s | ⟨b, s⟩
    · exact records_inl law laws hs none ht
    · exact records_inl law laws hs (some s) ht
    · obtain ⟨front, back, rfl, hb, hback⟩ := ht
      have hr := (laws b).records place (some s) hs hback
      rw [List.append_assoc]
      exact records_within law laws hb hr

/-- That the end of a process is news changes nothing about its record. -/
def announced : Recorded host (.inner plan .done) account.announced where
  Stands := law.Stands
  stands_hear := law.stands_hear
  within := law.within
  leave_cache := law.leave_cache
  cache_eq place state store := by
    have hstore : (process.announced.advance place state store).store =
        (process.advance place state store).store := by
      simp only [Process.announced]
      split <;> rfl
    rw [hstore]
    exact law.cache_eq place state store
  records {store told} place state hs ht := by
    have hr := law.records place state hs ht
    simp only [Process.announced]
    generalize process.advance place state store = advance at hr
    obtain ⟨reached, news, after⟩ := advance
    cases reached with
    | ended outcome =>
      cases outcome with
      | ok result => exact Plan.runs_inner_done.2 hr
      | error error => trivial
    | exhausted => trivial
    | waiting s => exact hr

end Bind

end Recorded
end Process
end Stencil
