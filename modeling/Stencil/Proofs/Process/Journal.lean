import Stencil.Process.Queue
import Stencil.Proofs.Store

/-!
# Journals

What a process does in one advance, told deed by deed beside the advance itself: which pending values
it comes for, begins and obtains, which lambdas it calls, what it compiles and which joins it goes
on with. An account of a process tells it from the same place, state and store that the advance
starts from. What is told agrees with what the store keeps of it.
-/

namespace Stencil

inductive Deed
  /-- Comes for a pending value, whether it is there or not. -/
  | asks (id : PendingId)
  /-- Is the first to come for it, so that its computation begins. -/
  | begins (id : PendingId)
  | obtains (id : PendingId) (result : Except Error Value)
  | calls (call : Call)
  | compiles (source : Text) (tags : Tags)
  /-- Goes on with a join of so many members. -/
  | joins (count : Nat)

/-- Deeds in their order, each with the place where it was done. -/
abbrev Journal := List (Place × Deed)

namespace Journal

def begun (journal : Journal) : List PendingId :=
  journal.filterMap fun
    | (_, .begins id) => some id
    | _ => none

/-- Who comes for which pending value. -/
def asked (journal : Journal) : List (Place × PendingId) :=
  journal.filterMap fun
    | (part, .asks id) => some (part, id)
    | _ => none

def calls (journal : Journal) : List Call :=
  journal.filterMap fun
    | (_, .calls call) => some call
    | _ => none

/-- What is done at a place and below. -/
def under (place : Place) (journal : Journal) : Journal :=
  journal.filter fun entry => place <:+ entry.1

variable {journal more : Journal} {id : PendingId} {place : Place}

theorem mem_under {part : Place} {deed : Deed} :
    (part, deed) ∈ journal.under place ↔ (part, deed) ∈ journal ∧ place <:+ part := by
  simp [under]

@[simp] theorem under_append :
    (journal ++ more).under place = journal.under place ++ more.under place :=
  List.filter_append ..

theorem under_eq_self (h : ∀ part deed, (part, deed) ∈ journal → place <:+ part) :
    journal.under place = journal :=
  List.filter_eq_self.2 fun entry he => by simpa using h entry.1 entry.2 he

theorem under_eq_nil (h : ∀ part deed, (part, deed) ∈ journal → ¬ place <:+ part) :
    journal.under place = [] :=
  List.filter_eq_nil_iff.2 fun entry he => by simpa using h entry.1 entry.2 he

@[simp] theorem begun_append : (journal ++ more).begun = journal.begun ++ more.begun :=
  List.filterMap_append

@[simp] theorem calls_append : (journal ++ more).calls = journal.calls ++ more.calls :=
  List.filterMap_append

theorem mem_begun : id ∈ journal.begun ↔ ∃ part, (part, .begins id) ∈ journal := by
  rw [begun, List.mem_filterMap]
  constructor
  · rintro ⟨⟨part, deed⟩, hm, hd⟩
    cases deed with
    | begins other =>
      obtain rfl := Option.some.inj hd
      exact ⟨part, hm⟩
    | _ => cases hd
  · rintro ⟨part, hm⟩
    exact ⟨_, hm, rfl⟩

theorem mem_asked {part : Place} : (part, id) ∈ journal.asked ↔ (part, .asks id) ∈ journal := by
  rw [asked, List.mem_filterMap]
  constructor
  · rintro ⟨⟨other, deed⟩, hm, hd⟩
    cases deed with
    | asks other =>
      cases hd
      exact hm
    | _ => cases hd
  · exact fun hm => ⟨_, hm, rfl⟩

/-- What is told agrees with what two stores, one before and one after, have kept of it. -/
structure Tells (host : Host) (before after : Store) (journal : Journal) : Prop where
  mem_begun_iff : ∀ id, id ∈ after.begun ↔ id ∈ before.begun ∨ id ∈ journal.begun
  not_mem_begun : ∀ id ∈ journal.begun, id ∉ before.begun
  nodup_begun : journal.begun.Nodup
  asks_of_begins : ∀ part id, (part, .begins id) ∈ journal → (part, .asks id) ∈ journal
  yielded_iff : ∀ id, id ∈ after.yielded ↔
    id ∈ before.yielded ∨ ∃ part result, (part, .obtains id result) ∈ journal
  obtained : ∀ part id result, (part, .obtains id result) ∈ journal →
    result = (host.pending id).result
  calls_eq : after.calls = journal.calls.reverse ++ before.calls
  cached : ∀ entry ∈ after.cache.entries, entry ∈ before.cache.entries ∨
    ∃ part, (part, .compiles entry.source entry.tags) ∈ journal

variable {host : Host} {before middle after : Store}

/-- Of what begins nothing. -/
theorem tells_of_begun_nil (hn : journal.begun = []) (hb : after.begun = before.begun)
    (hy : ∀ id, id ∈ after.yielded ↔
      id ∈ before.yielded ∨ ∃ part result, (part, .obtains id result) ∈ journal)
    (ho : ∀ part id result, (part, .obtains id result) ∈ journal → result = (host.pending id).result)
    (hc : after.calls = journal.calls.reverse ++ before.calls)
    (he : ∀ entry ∈ after.cache.entries, entry ∈ before.cache.entries ∨
      ∃ part, (part, .compiles entry.source entry.tags) ∈ journal) :
    Tells host before after journal where
  mem_begun_iff := by simp [hb, hn]
  not_mem_begun := by simp [hn]
  nodup_begun := by simp [hn]
  asks_of_begins part id hm := by
    have hb : id ∈ journal.begun := mem_begun.2 ⟨part, hm⟩
    simp [hn] at hb
  yielded_iff := hy
  obtained := ho
  calls_eq := hc
  cached := he

/-- Of what neither begins nor obtains anything. -/
theorem tells_of_quiet (hn : journal.begun = []) (hb : after.begun = before.begun)
    (ho : ∀ part id result, (part, .obtains id result) ∉ journal)
    (hy : after.yielded = before.yielded) (hc : after.calls = journal.calls.reverse ++ before.calls)
    (he : ∀ entry ∈ after.cache.entries, entry ∈ before.cache.entries ∨
      ∃ part, (part, .compiles entry.source entry.tags) ∈ journal) :
    Tells host before after journal :=
  tells_of_begun_nil hn hb (by simp [hy, ho]) (fun part id result h => absurd h (ho part id result))
    hc he

theorem tells_nil (host : Host) (store : Store) : Tells host store store [] :=
  tells_of_quiet rfl rfl nofun rfl rfl fun _ => .inl

theorem Tells.yielded_mono (h : Tells host before after journal) :
    ∀ id ∈ before.yielded, id ∈ after.yielded :=
  fun id hi => (h.yielded_iff id).2 (.inl hi)

theorem Tells.append (h : Tells host before middle journal) (h' : Tells host middle after more) :
    Tells host before after (journal ++ more) where
  mem_begun_iff id := by rw [h'.mem_begun_iff, h.mem_begun_iff, begun_append, List.mem_append, or_assoc]
  not_mem_begun id hi hb := by
    rw [begun_append, List.mem_append] at hi
    rcases hi with hi | hi
    · exact h.not_mem_begun id hi hb
    · exact h'.not_mem_begun id hi ((h.mem_begun_iff id).2 (.inl hb))
  nodup_begun := by
    rw [begun_append, List.nodup_append]
    refine ⟨h.nodup_begun, h'.nodup_begun, ?_⟩
    rintro id hi _ hi' rfl
    exact h'.not_mem_begun id hi' ((h.mem_begun_iff id).2 (.inr hi))
  asks_of_begins part id hb := by
    rw [List.mem_append] at hb ⊢
    exact hb.imp (h.asks_of_begins part id) (h'.asks_of_begins part id)
  yielded_iff id := by
    simp only [h'.yielded_iff, h.yielded_iff, List.mem_append, exists_or, or_assoc]
  obtained part id result ho :=
    (List.mem_append.1 ho).elim (h.obtained part id result) (h'.obtained part id result)
  calls_eq := by simp [h'.calls_eq, h.calls_eq]
  cached entry he := by
    rcases h'.cached entry he with he | ⟨part, hp⟩
    · exact (h.cached entry he).imp_right fun ⟨part, hp⟩ => ⟨part, List.mem_append_left _ hp⟩
    · exact .inr ⟨part, List.mem_append_right _ hp⟩

end Journal

namespace Store

/-- What a part of a run has done to the store, and told: `mine` are the places of the part, and
`asks` says what it may come for. -/
structure Acts (host : Host) (mine : Place → Prop) (asks : PendingId → Prop) (before after : Store)
    (journal : Journal) : Prop
    extends Steps host mine (fun _ => True) before after, journal.Tells host before after where
  within : ∀ part deed, (part, deed) ∈ journal → mine part
  asked : ∀ part id, (part, .asks id) ∈ journal → asks id

variable {host : Host} {mine others : Place → Prop} {asks more : PendingId → Prop}
  {before middle after store : Store} {journal later : Journal} {id : PendingId} {place : Place}

namespace Acts

theorem refl (h : store.Sound host) : Acts host mine asks store store [] where
  toSteps := .refl h
  toTells := Journal.tells_nil host store
  within := by simp
  asked := by simp

theorem append (h : Acts host mine asks before middle journal)
    (h' : Acts host mine asks middle after later) :
    Acts host mine asks before after (journal ++ later) where
  toSteps := h.toSteps.trans h'.toSteps
  toTells := h.toTells.append h'.toTells
  within part deed hm := (List.mem_append.1 hm).elim (h.within part deed) (h'.within part deed)
  asked part id hm := (List.mem_append.1 hm).elim (h.asked part id) (h'.asked part id)

theorem mono (h : Acts host mine asks before after journal)
    (hm : ∀ place, mine place → others place) (ha : ∀ id, asks id → more id) :
    Acts host others more before after journal where
  toSteps := h.toSteps.mono hm fun _ => id
  toTells := h.toTells
  within part deed hd := hm part (h.within part deed hd)
  asked part id hd := ha id (h.asked part id hd)

end Acts

/-- Whoever comes for a pending value begins it, unless it has been begun. -/
theorem acts_begin (h : store.Sound host) (hm : mine place) (ha : asks id) :
    Acts host mine asks store (store.begin id)
      ((place, .asks id) :: if id ∈ store.begun then [] else [(place, .begins id)]) := by
  have hsteps : store.Steps host mine (fun _ => True) (store.begin id) :=
    (steps_begin h id).mono (fun _ hp => hp) fun _ _ => trivial
  by_cases hb : id ∈ store.begun
  · rw [if_pos hb]
    refine { toSteps := hsteps, toTells := ?_, within := by simp [hm], asked := by simp [ha] }
    refine ⟨fun other => ?_, ?_, ?_, by simp, fun _ => ?_, by simp, rfl, fun _ => .inl⟩
    · simpa [mem_begun_begin, Journal.begun] using fun he : id = other => he ▸ hb
    all_goals simp [Journal.begun, begin]
  · rw [if_neg hb]
    refine { toSteps := hsteps, toTells := ?_, within := ?_, asked := by simp [ha] }
    · refine ⟨fun other => ?_, ?_, ?_, by simp, fun _ => ?_, by simp, rfl, fun _ => .inl⟩
      · simp [mem_begun_begin, Journal.begun, or_comm, eq_comm]
      all_goals simp [Journal.begun, begin, hb]
    · rintro part deed hd
      have hp : part = place := by
        rcases List.mem_cons.1 hd with hd | hd
        · exact congrArg Prod.fst hd
        · exact congrArg Prod.fst (List.mem_singleton.1 hd)
      exact hp ▸ hm

/-- What is there is obtained, and yielded for all who come later. -/
theorem acts_yield (h : store.Sound host) (hr : store.isReady host id = true) (hm : mine place) :
    Acts host mine asks store (store.yield id) [(place, .obtains id (host.pending id).result)] where
  toSteps := steps_yield h hr
  toTells := by
    refine Journal.tells_of_begun_nil rfl rfl (fun other => ?_) ?_ rfl fun _ => .inl
    · have hy : other ∈ (store.yield id).yielded ↔ id = other ∨ other ∈ store.yielded := by
        simp [yield, Std.TreeSet.mem_insert]
      simpa [or_comm, eq_comm] using hy
    · simp +contextual
  within := by simp [hm]
  asked := by simp

theorem acts_obtain (h : store.Sound host) (hy : id ∈ store.yielded) (hm : mine place) :
    Acts host mine asks store store [(place, .obtains id (host.pending id).result)] where
  toSteps := .refl h
  toTells := by
    refine Journal.tells_of_begun_nil rfl rfl (fun other => ?_) ?_ rfl fun _ => .inl
    · simpa using fun he : other = id => he ▸ hy
    · simp +contextual
  within := by simp [hm]
  asked := by simp

theorem acts_seat (h : store.Sound host) (hr : store.isReady host id = false) (place : Place) :
    Acts host mine asks store (store.seat id place).2 [] where
  toSteps := steps_seat h hr place
  toTells := Journal.tells_of_quiet rfl rfl (by simp) rfl rfl fun _ => .inl
  within := by simp
  asked := by simp

theorem acts_record (h : store.Sound host) (call : Call) (hm : mine place) :
    Acts host mine asks store (store.record call) [(place, .calls call)] where
  toSteps := steps_record h call
  toTells := Journal.tells_of_quiet rfl rfl (by simp) rfl rfl fun _ => .inl
  within := by simp [hm]
  asked := by simp

theorem acts_fetch (h : store.Sound host) (source : Text) (tags : Tags) (hm : mine place) :
    Acts host mine asks store { store with cache := (store.cache.fetch source tags).2 }
      [(place, .compiles source tags)] where
  toSteps := steps_fetch h source tags
  toTells := Journal.tells_of_quiet rfl rfl (by simp) rfl rfl fun entry he =>
    (Cache.mem_entries_fetch he).imp_right fun ⟨hs, ht⟩ => ⟨place, by simp [hs, ht]⟩
  within := by simp [hm]
  asked := by simp

theorem acts_join (h : store.Sound host) (count : Nat) (hm : mine place) :
    Acts host mine asks store store [(place, .joins count)] where
  toSteps := .refl h
  toTells := Journal.tells_of_quiet rfl rfl (by simp) rfl rfl fun _ => .inl
  within := by simp [hm]
  asked := by simp

/-- Nothing is told of seats that are given up. -/
theorem Leaves.acts (h : before.Leaves host mine after)
    (hkeeps : { after with seats := before.seats } = before) :
    Acts host mine asks before after [] where
  toSteps := h.toSteps.mono (fun _ hp => hp) fun _ => False.elim
  toTells := by
    obtain ⟨cache, begun, released, yielded, seats, calls, counts⟩ := before
    cases hkeeps
    exact Journal.tells_of_quiet rfl rfl (by simp) rfl rfl fun _ => .inl
  within := by simp
  asked := by simp

end Store

namespace Process

variable {α β : Type}

/-- Tells what an advance of a process does. -/
structure Account (process : Process α) where
  tell : Place → Option process.State → Store → Journal

namespace Account

/-- The account of a process that does nothing but these deeds. -/
def act (action : Store → Except Error α × Store) (deeds : List Deed) :
    Account (Process.act action) where
  tell place _ _ := deeds.map (place, ·)

def exhausted : Account (Process.exhausted : Process α) where
  tell _ _ _ := []

def value (host : Host) (id : PendingId) : Account (Process.value host id) where
  tell place _ store :=
    (place, .asks id) ::
      ((if id ∈ store.begun then [] else [(place, .begins id)]) ++
        if id ∈ store.yielded ∨ store.isReady host id = true then
          [(place, .obtains id (host.pending id).result)]
        else [])

/-- Leaves out whatever is done. -/
def silent {process : Process α} : Account process where
  tell _ _ _ := []

def announced {process : Process α} (account : Account process) : Account process.announced where
  tell := account.tell

/-- The second process comes in with the advance in which the first ends. -/
def bind {process : Process β} {rest : β → Process α} (account : Account process)
    (accounts : ∀ b, Account (rest b)) : Account (process.bind rest) where
  tell place state store :=
    match state with
    | some (.inr ⟨b, state⟩) => (accounts b).tell place (some state) store
    | state =>
      let first := process.advance place (state.bind Sum.getLeft?) store
      account.tell place (state.bind Sum.getLeft?) store ++
        match first.reached with
        | .ended (.ok b) => (accounts b).tell place none first.store
        | _ => []

/-- What is told from where the first process is not over. -/
theorem tell_bind_inl {process : Process β} {rest : β → Process α} (account : Account process)
    (accounts : ∀ b, Account (rest b)) (place : Place) (state : Option process.State) (store : Store) :
    (account.bind accounts).tell place (state.map .inl) store =
      account.tell place state store ++
        match (process.advance place state store).reached with
        | .ended (.ok b) => (accounts b).tell place none (process.advance place state store).store
        | _ => [] := by
  cases state <;> rfl

section Join
variable {count : Nat} {members : Fin count → Process β} (accounts : ∀ i, Account (members i))

/-- What the members do in a pass over them. -/
def pass (place : Place) : List (Sweep.Entry members) → Store → Journal
  | [], _ => []
  | .inl _ :: entries, store => pass place entries store
  | .inr ⟨i, state⟩ :: entries, store =>
    let turn := (members i).advance (i :: place) state store
    (accounts i).tell (i :: place) state store ++
      match turn.reached with
      | .ended (.ok _) | .waiting _ => pass place entries turn.store
      | .ended (.error _) | .exhausted => []

def sweep : Account (Process.sweep members) where
  tell place entries store :=
    (place, .joins count) :: pass accounts place (entries.getD (Sweep.fresh members)) store

/-- What the members do in their turns until one of them ends. -/
def stretch (place : Place) : (left patience : Nat) → Queue members → Store → Journal
  | left + 1, patience + 1, queue, store =>
    match queue.next? with
    | none => []
    | some (⟨i, state⟩, queue) =>
      let turn := (members i).advance (i :: place) state store
      (accounts i).tell (i :: place) state store ++
        match turn.reached with
        | .ended _ | .exhausted => []
        | .waiting state =>
          stretch place left (if turn.news then patience else patience + 1)
            (queue.putBack ⟨i, state⟩ turn.news) turn.store
  | _, _, _, _ => []

/-- What is so of every stretch, with what it tells: the turns are all taken or the patience is at an
end, no member has a turn, or the next one has its turn and ends, is exhausted or waits again. -/
theorem stretch_induction (place : Place)
    {motive : (left patience : Nat) → Queue members → (news : Bool) → Store → Journal →
      Advance (Queue members) (Queue members) → Prop}
    (spent : ∀ {left patience queue news store}, left = 0 ∨ patience = 0 →
      motive left patience queue news store [] ⟨.waiting queue, true, store⟩)
    (idle : ∀ {left patience queue news store}, queue.next? = none →
      motive left patience queue news store [] ⟨.waiting queue, news, store⟩)
    (put : ∀ {left patience queue news store i state rest outcome anews after results},
      queue.next? = some (⟨i, state⟩, rest) →
      (members i).advance (i :: place) state store = ⟨.ended outcome, anews, after⟩ →
      rest.results.put i outcome = .ok results →
      motive (left + 1) (patience + 1) queue news store ((accounts i).tell (i :: place) state store)
        ⟨.ended (.ok { rest with results }), news || anews, after⟩)
    (fails : ∀ {left patience queue news store i state rest outcome anews after error},
      queue.next? = some (⟨i, state⟩, rest) →
      (members i).advance (i :: place) state store = ⟨.ended outcome, anews, after⟩ →
      rest.results.put i outcome = .error error →
      motive (left + 1) (patience + 1) queue news store ((accounts i).tell (i :: place) state store)
        ⟨.ended (.error error), news || anews, leaveAll members rest.live after⟩)
    (exhausted : ∀ {left patience queue news store i state rest anews after},
      queue.next? = some (⟨i, state⟩, rest) →
      (members i).advance (i :: place) state store = ⟨.exhausted, anews, after⟩ →
      motive (left + 1) (patience + 1) queue news store ((accounts i).tell (i :: place) state store)
        ⟨.exhausted, news || anews, after⟩)
    (goes : ∀ {left patience queue news store i state rest s anews after told advance},
      queue.next? = some (⟨i, state⟩, rest) →
      (members i).advance (i :: place) state store = ⟨.waiting s, anews, after⟩ →
      motive left (if anews then patience else patience + 1) (rest.putBack ⟨i, s⟩ anews)
        (anews || news) after told advance →
      motive (left + 1) (patience + 1) queue news store
        ((accounts i).tell (i :: place) state store ++ told) advance)
    (left patience : Nat) (queue : Queue members) (news : Bool) (store : Store) :
    motive left patience queue news store (stretch accounts place left patience queue store)
      (queue.stretch place left patience news store) := by
  induction left generalizing patience queue news store with
  | zero => exact spent (.inl rfl)
  | succ left ih =>
    cases patience with
    | zero => exact spent (.inr rfl)
    | succ patience =>
      rcases hn : queue.next? with _ | ⟨⟨i, state⟩, rest⟩
      · simp only [stretch, Queue.stretch, hn]
        exact idle hn
      rcases ha : (members i).advance (i :: place) state store with ⟨reached, anews, after⟩
      simp only [stretch, Queue.stretch, hn, ha]
      cases reached with
      | ended outcome =>
        rw [List.append_nil]
        cases hp : rest.results.put i outcome with
        | ok results =>
          simp only [hp]
          exact put hn ha hp
        | error error =>
          simp only [hp]
          exact fails hn ha hp
      | exhausted =>
        rw [List.append_nil]
        exact exhausted hn ha
      | waiting s =>
        refine goes hn ha ?_
        cases anews with
        | true => exact ih patience _ true after
        | false => exact ih (patience + 1) _ news after

def stretches (place : Place) : (missing : Nat) → Queue members → Bool → Store → Journal
  | 0, _, _, _ => []
  | missing + 1, queue, news, store =>
    let advance := queue.stretch place (missing + 1) Queue.patience news store
    stretch accounts place (missing + 1) Queue.patience queue store ++
      match advance.reached with
      | .ended (.ok queue) => stretches place missing queue advance.news advance.store
      | _ => []

def queue : Account (Process.queue members) where
  tell place queue store :=
    let queue := queue.getD (.start members)
    (place, .joins count) :: stretches accounts place queue.results.missing queue false store

/-- The account of whichever process it is. -/
def ite {c : Prop} [d : Decidable c] {first second : Process α} (account : Account first)
    (other : Account second) : Account (if c then first else second) :=
  match d with
  | isTrue _ => account
  | isFalse _ => other

def join : Account (Process.join members) :=
  ite (sweep accounts) (queue accounts)

end Join
end Account
end Process
end Stencil
