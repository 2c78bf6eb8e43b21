import Stencil.Proofs.Process.Blind
import Stencil.Proofs.Process.Watchful

/-!
# Processes in tandem

Two processes that do the same as long as what they compile is known. From states that belong
together and from the same store, each advance of the one gets as far as that of the other, does the
same deeds and leaves the same store. What else the two would compile may differ in all that follows.
-/

namespace Stencil

namespace Journal

variable {known : Text → Tags → Prop} {ids : PendingId → Prop} {told more : Journal}

/-- Whatever is told to be compiled is known. -/
def Knows (known : Text → Tags → Prop) (journal : Journal) : Prop :=
  ∀ part source tags, (part, .compiles source tags) ∈ journal → known source tags

/-- Nothing is asked for but such values. -/
def AsksOnly (ids : PendingId → Prop) (journal : Journal) : Prop :=
  ∀ part id, (part, .asks id) ∈ journal → ids id

theorem Knows.left (h : (told ++ more).Knows known) : told.Knows known := fun part source tags hm =>
  h part source tags (List.mem_append_left _ hm)

theorem Knows.right (h : (told ++ more).Knows known) : more.Knows known := fun part source tags hm =>
  h part source tags (List.mem_append_right _ hm)

theorem asksOnly_nil : AsksOnly ids [] := fun _ _ hm => absurd hm List.not_mem_nil

theorem AsksOnly.append (h : told.AsksOnly ids) (h' : more.AsksOnly ids) :
    (told ++ more).AsksOnly ids := fun part id hm =>
  (List.mem_append.1 hm).elim (h part id) (h' part id)

end Journal

/-- Two advances that get equally far and leave the same store. -/
inductive Advance.Level {σ τ α β : Type} (R : α → β → Prop) (holds : σ → τ → Prop) :
    Advance σ α → Advance τ β → Prop
  | ok {a : α} {b : β} (h : R a b) (news : Bool) (store : Store) :
    Level R holds ⟨.ended (.ok a), news, store⟩ ⟨.ended (.ok b), news, store⟩
  | failed (error : Error) (news : Bool) (store : Store) :
    Level R holds ⟨.ended (.error error), news, store⟩ ⟨.ended (.error error), news, store⟩
  | exhausted (news : Bool) (store : Store) :
    Level R holds ⟨.exhausted, news, store⟩ ⟨.exhausted, news, store⟩
  | waiting {s : σ} {t : τ} (h : holds s t) (news : Bool) (store : Store) :
    Level R holds ⟨.waiting s, news, store⟩ ⟨.waiting t, news, store⟩

/-- Two advances that are level, with the same deeds, which ask for such values only. -/
structure Advance.InStep {σ τ α β : Type} (ids : PendingId → Prop) (R : α → β → Prop)
    (holds : σ → τ → Prop) (ahead : Advance σ α) (behind : Advance τ β) (told told' : Journal) :
    Prop where
  level : ahead.Level R holds behind
  told_eq : told' = told
  asks : told.AsksOnly ids

section
variable {σ τ σ' τ' α β : Type} {ids : PendingId → Prop} {R : α → β → Prop} {told told' : Journal}

theorem Advance.level_self {R : α → α → Prop} {holds : σ → σ → Prop} {advance : Advance σ α}
    (hR : ∀ a, advance.reached = .ended (.ok a) → R a a) (hh : ∀ s, holds s s) :
    advance.Level R holds advance := by
  obtain ⟨reached, news, after⟩ := advance
  cases reached with
  | ended outcome =>
    cases outcome with
    | ok a => exact .ok (hR a rfl) news after
    | error error => exact .failed error news after
  | exhausted => exact .exhausted news after
  | waiting s => exact .waiting (hh s) news after

/-- Where results are the same, two advances that are level end with one outcome, or neither ends. -/
theorem Advance.Level.cases_eq {holds : σ → τ → Prop} {ahead : Advance σ α} {behind : Advance τ α}
    (h : ahead.Level Eq holds behind) :
    (∃ outcome news store, ahead = ⟨.ended outcome, news, store⟩ ∧
      behind = ⟨.ended outcome, news, store⟩) ∨
    (∃ news store, ahead = ⟨.exhausted, news, store⟩ ∧ behind = ⟨.exhausted, news, store⟩) ∨
    ∃ s t news store, holds s t ∧ ahead = ⟨.waiting s, news, store⟩ ∧
      behind = ⟨.waiting t, news, store⟩ := by
  cases h with
  | ok hr =>
    subst hr
    exact .inl ⟨_, _, _, rfl, rfl⟩
  | failed error => exact .inl ⟨_, _, _, rfl, rfl⟩
  | exhausted => exact .inr (.inl ⟨_, _, rfl, rfl⟩)
  | waiting h => exact .inr (.inr ⟨_, _, _, _, h, rfl, rfl⟩)

/-- The advances of parts, after such deeds of the wholes. -/
theorem Advance.InStep.within {holds : σ → τ → Prop} {holds' : σ' → τ' → Prop} {ahead : Advance σ α}
    {behind : Advance τ β} (h : ahead.InStep ids R holds behind told told') {f : σ → σ'} {g : τ → τ'}
    (hfg : ∀ s t, holds s t → holds' (f s) (g t)) (news : Bool) {front : Journal}
    (hf : front.AsksOnly ids) :
    (ahead.within f news).InStep ids R holds' (behind.within g news) (front ++ told)
      (front ++ told') := by
  obtain ⟨hlevel, rfl, hasks⟩ := h
  refine ⟨?_, rfl, hf.append hasks⟩
  cases hlevel with
  | ok h => exact .ok h _ _
  | failed error => exact .failed error _ _
  | exhausted => exact .exhausted _ _
  | waiting h => exact .waiting (hfg _ _ h) _ _

end

namespace Process

variable {α β γ δ : Type} {host : Host} {known : Text → Tags → Prop} {ids : PendingId → Prop}

theorem Blind.sound {process : Process α} (h : process.Blind) (place : Place)
    (state : Option process.State) {store : Store} (hs : store.cache.Sound) :
    (process.advance place state store).store.cache.Sound := by
  obtain ⟨same, keys, hsame⟩ := h.advance place state store
  have hadvance : process.advance place state store = same.under (store.cache.fetchAll keys) :=
    hsame store.cache hs
  rw [hadvance]
  exact hs.fetchAll keys

/-- States of the two that belong together, and what is kept of them. -/
structure Tandem (known : Text → Tags → Prop) (ids : PendingId → Prop) (R : α → β → Prop)
    {first : Process α} {second : Process β} (account : Account first) (other : Account second)
    (S : first.State → second.State → Prop) : Prop where
  hear : ∀ path {s t}, S s t → S (first.hear path s) (second.hear path t)
  leave : ∀ {s t} (store : Store), S s t → second.leave t store = first.leave s store
  advance : ∀ place {s t} {store : Store}, store.cache.Sound → Option.Rel S s t →
    (account.tell place s store).Knows known →
    (first.advance place s store).InStep ids R S (second.advance place t store)
      (account.tell place s store) (other.tell place t store)

/-- The two do the same as long as what they compile is known, with results in a relation. -/
def InTandem (known : Text → Tags → Prop) (ids : PendingId → Prop) (R : α → β → Prop)
    {first : Process α} {second : Process β} (account : Account first) (other : Account second) :
    Prop :=
  ∃ S, Tandem known ids R account other S

theorem inTandem_self {R : α → α → Prop} {process : Process α} {account : Account process}
    (hR : ∀ place state (store : Store) a, store.cache.Sound →
      (account.tell place state store).Knows known →
      (process.advance place state store).reached = .ended (.ok a) → R a a)
    (hasks : ∀ place state store, (account.tell place state store).AsksOnly ids) :
    InTandem known ids R account account := by
  refine ⟨Eq, ⟨?_, ?_, ?_⟩⟩
  · rintro path s _ rfl
    rfl
  · rintro s _ store rfl
    rfl
  · intro place s t store hs hst hk
    obtain rfl : s = t := by
      cases hst with
      | none => rfl
      | some h => exact congrArg some h
    exact ⟨Advance.level_self (hR place s store · hs hk) fun _ => rfl, rfl, hasks place s store⟩

/-- What does a single thing and comes for nothing. -/
theorem inTandem_act {R : α → α → Prop} {action : Store → Except Error α × Store}
    {deeds : List Deed} (hR : ∀ (store : Store) a, store.cache.Sound →
      (∀ source tags, .compiles source tags ∈ deeds → known source tags) →
      (action store).1 = .ok a → R a a) (hasks : ∀ id, .asks id ∉ deeds) :
    InTandem known ids R (Account.act action deeds) (Account.act action deeds) := by
  refine inTandem_self (fun place _ store a hs hk hr => hR store a hs (fun source tags hd => ?_) ?_)
    fun place _ store part id hm => ?_
  · exact hk place source tags (List.mem_map_of_mem hd)
  · simpa [Process.act] using hr
  · obtain ⟨_, hd, he⟩ := List.mem_map.1 hm
    cases he
    exact absurd hd (hasks id)

theorem inTandem_exhausted {R : α → α → Prop} :
    InTandem known ids R (Account.exhausted : Account (Process.exhausted : Process α))
      Account.exhausted :=
  inTandem_self (fun _ _ _ _ _ _ hr => by cases hr) fun _ _ _ => Journal.asksOnly_nil

theorem inTandem_compile (source : Text) (tags : Tags) :
    InTandem known ids (fun nodes again => nodes = again ∧ known source tags ∧
        Template.compile source tags = .ok nodes)
      (Account.act (fun store =>
        let (entry, cache) := store.cache.fetch source tags
        (entry.map CacheEntry.nodes, { store with cache })) [.compiles source tags])
      (Account.act (fun store =>
        let (entry, cache) := store.cache.fetch source tags
        (entry.map CacheEntry.nodes, { store with cache })) [.compiles source tags]) := by
  refine inTandem_act (fun store nodes hs hk hr => ⟨rfl, hk _ _ (List.mem_singleton_self _), ?_⟩)
    fun id hd => by cases List.mem_singleton.1 hd
  rw [← hs.map_nodes_fetch source tags]
  exact hr

theorem inTandem_value {id : PendingId} (hid : ids id) :
    InTandem known ids (fun v w => v = w ∧ (host.pending id).result = .ok v)
      (Account.value host id) (Account.value host id) := by
  refine inTandem_self (fun place seat store v _ _ hr => ⟨rfl, ?_⟩)
    fun place seat store part other hm => ?_
  · simp only [Process.value] at hr
    split at hr
    · simpa using hr
    · split at hr
      · simpa using hr
      · split at hr <;> cases hr
  · simp only [Account.value, List.mem_cons, List.mem_append] at hm
    rcases hm with hm | hm | hm
    · cases hm
      exact hid
    · split at hm
      · cases hm
      · cases List.mem_singleton.1 hm
    · split at hm
      · cases List.mem_singleton.1 hm
      · cases hm

section Bind
variable {T : γ → δ → Prop} {R : α → β → Prop} {first : Process γ} {second : Process δ}
  {more : γ → Process α} {next : δ → Process β} {account : Account first} {other : Account second}
  {accounts : ∀ c, Account (more c)} {others : ∀ d, Account (next d)}

/-- The first parts are under way in both, or the second parts after results in a relation. -/
inductive BothWay (S : first.State → second.State → Prop) (T : γ → δ → Prop)
    (U : ∀ c d, (more c).State → (next d).State → Prop) :
    (first.bind more).State → (second.bind next).State → Prop
  | first {s : first.State} {t : second.State} (h : S s t) : BothWay S T U (.inl s) (.inl t)
  | second {c : γ} {d : δ} {s : (more c).State} {t : (next d).State} (hT : T c d) (h : U c d s t) :
    BothWay S T U (.inr ⟨c, s⟩) (.inr ⟨d, t⟩)

variable {S : first.State → second.State → Prop} {U : ∀ c d, (more c).State → (next d).State → Prop}

/-- The second parts come in with the advances in which the first end. -/
theorem Tandem.inStep_bind_inl (hb : first.Blind) (hS : Tandem known ids T account other S)
    (hU : ∀ c d, T c d → Tandem known ids R (accounts c) (others d) (U c d)) (place : Place)
    {s : Option first.State} {t : Option second.State} {store : Store} (hs : store.cache.Sound)
    (hst : Option.Rel S s t)
    (hk : ((account.bind accounts).tell place (s.map .inl) store).Knows known) :
    ((first.bind more).advance place (s.map .inl) store).InStep ids R (BothWay S T U)
      ((second.bind next).advance place (t.map .inl) store)
      ((account.bind accounts).tell place (s.map .inl) store)
      ((other.bind others).tell place (t.map .inl) store) := by
  rw [Account.tell_bind_inl] at hk
  rw [Account.tell_bind_inl, Account.tell_bind_inl, Lawful.advance_bind_inl, Lawful.advance_bind_inl]
  obtain ⟨hlevel, htold, hasks⟩ := hS.advance place hs hst hk.left
  have hsound := hb.sound place s hs
  rw [htold]
  generalize first.advance place s store = ahead at hk hlevel hsound
  generalize second.advance place t store = behind at hlevel
  cases hlevel with
  | ok hT =>
    exact ((hU _ _ hT).advance place hsound .none hk.right).within (fun _ _ => .second hT) _ hasks
  | failed error => exact ⟨.failed error _ _, rfl, hasks.append Journal.asksOnly_nil⟩
  | exhausted => exact ⟨.exhausted _ _, rfl, hasks.append Journal.asksOnly_nil⟩
  | waiting h => exact ⟨.waiting (.first h) _ _, rfl, hasks.append Journal.asksOnly_nil⟩

theorem Tandem.bind (hb : first.Blind) (hS : Tandem known ids T account other S)
    (hU : ∀ c d, T c d → Tandem known ids R (accounts c) (others d) (U c d)) :
    Tandem known ids R (account.bind accounts) (other.bind others) (BothWay S T U) where
  hear path _ _ h := by
    cases h with
    | first h => exact .first (hS.hear path h)
    | second hT h => exact .second hT ((hU _ _ hT).hear path h)
  leave store h := by
    cases h with
    | first h => exact hS.leave store h
    | second hT h => exact (hU _ _ hT).leave store h
  advance place s t store hs hst hk := by
    cases hst with
    | none => exact hS.inStep_bind_inl hb hU place hs .none hk
    | some h =>
      cases h with
      | first h => exact hS.inStep_bind_inl hb hU place hs (.some h) hk
      | second hT h =>
        exact ((hU _ _ hT).advance place hs (.some h) hk).within (fun _ _ => .second hT) false
          Journal.asksOnly_nil

theorem InTandem.bind (hb : first.Blind) (h : InTandem known ids T account other)
    (hnext : ∀ c d, T c d → InTandem known ids R (accounts c) (others d)) :
    InTandem known ids R (account.bind accounts) (other.bind others) := by
  obtain ⟨S, hS⟩ := h
  have hU : ∀ c d, ∃ U, T c d → Tandem known ids R (accounts c) (others d) U := by
    intro c d
    by_cases hT : T c d
    · obtain ⟨U, hU⟩ := hnext c d hT
      exact ⟨U, fun _ => hU⟩
    · exact ⟨fun _ _ => True, fun hT' => absurd hT' hT⟩
  choose U hU using hU
  exact ⟨_, hS.bind hb hU⟩

end Bind

end Process
end Stencil
