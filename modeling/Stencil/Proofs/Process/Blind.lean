import Stencil.Plan.Process
import Stencil.Proofs.Process.Bind
import Stencil.Proofs.Plan.Lawful

/-!
# What a process sees of the cache

A process cannot tell one sound cache from another. Whatever the cache holds, an advance asks it for
the same templates and is otherwise the same: what the cache lacks is compiled, and gives the same
nodes.
-/

namespace Stencil

namespace Cache

variable {γ δ : Type*} {under : γ → Cache → γ}

/-- A result that depends on the cache in nothing but the cache it leaves behind: it asks for the
same templates whatever the cache holds. -/
def Asks (under : γ → Cache → γ) (result : Cache → γ) : Prop :=
  ∃ same keys, ∀ cache : Cache, cache.Sound → result cache = under same (cache.fetchAll keys)

theorem asks_nothing {result : Cache → γ} (same : γ)
    (h : ∀ cache, result cache = under same cache) : Asks under result :=
  ⟨same, [], fun cache _ => h cache⟩

theorem Asks.map {result : Cache → γ} (h : Asks under result) (other : δ → Cache → δ) (f : γ → δ)
    (hf : ∀ same cache, f (under same cache) = other (f same) cache) :
    Asks other fun cache => f (result cache) := by
  obtain ⟨same, keys, hsame⟩ := h
  refine ⟨f same, keys, fun cache hs => ?_⟩
  simp only [hsame cache hs, hf]

/-- What comes last finds the cache that was left behind before. -/
theorem Asks.after {last : Cache → γ} (h : Asks under last) {whole : Cache → γ}
    (keys : List (Text × Tags))
    (hwhole : ∀ cache : Cache, cache.Sound → whole cache = last (cache.fetchAll keys)) :
    Asks under whole := by
  obtain ⟨same, more, hsame⟩ := h
  refine ⟨same, keys ++ more, fun cache hs => ?_⟩
  rw [hwhole cache hs, hsame _ (hs.fetchAll keys), fetchAll_append]

end Cache

open Cache (Asks asks_nothing)

/-- The store with another cache. -/
def Store.under (store : Store) (cache : Cache) : Store :=
  { store with cache }

variable {σ τ α β : Type} {host : Host}

/-- The same advance, with another cache in its store. -/
def Advance.under (advance : Advance σ α) (cache : Cache) : Advance σ α :=
  { advance with store := advance.store.under cache }

namespace Process

/-- A process that cannot tell one sound cache from another. -/
structure Blind (process : Process α) : Prop where
  advance : ∀ place state (store : Store),
    Asks Advance.under fun cache => process.advance place state (store.under cache)
  leave : ∀ state (store : Store) cache,
    process.leave state (store.under cache) = (process.leave state store).under cache

/-- What is done without the cache is the same under every cache. -/
theorem blind_act {action : Store → Except Error α × Store}
    (h : ∀ store cache, action (Store.under store cache) =
      ((action store).1, (action store).2.under cache)) : (Process.act action).Blind where
  advance _ _ store := by
    refine asks_nothing ⟨.ended (action store).1, false, (action store).2⟩ fun cache => ?_
    simp [Process.act, h store cache, Advance.under]
  leave state := state.elim

theorem blind_exhausted : (Process.exhausted : Process α).Blind where
  advance _ _ store := asks_nothing ⟨.exhausted, false, store⟩ fun _ => rfl
  leave state := state.elim

theorem blind_compile (source : Text) (tags : Tags) : (Process.act fun store =>
    let (entry, cache) := store.cache.fetch source tags
    (entry.map CacheEntry.nodes, { store with cache })).Blind where
  advance _ _ store := by
    refine ⟨⟨.ended (Template.compile source tags), false, store⟩, [(source, tags)], fun cache hs => ?_⟩
    rw [← hs.map_nodes_fetch source tags]
    rfl
  leave state := state.elim

theorem blind_value (id : PendingId) : (Process.value host id).Blind where
  advance place seat store := by
    refine asks_nothing ((Process.value host id).advance place seat store) fun cache => ?_
    have hyielded : ((store.under cache).begin id).yielded = (store.begin id).yielded := rfl
    have hready : ((store.under cache).begin id).isReady host = (store.begin id).isReady host := rfl
    simp only [Process.value, hyielded, hready]
    split
    · rfl
    · split
      · rfl
      · cases seat <;> rfl
  leave _ _ _ := rfl

namespace Blind

variable {process : Process β} {next : β → Process α}

theorem announced (h : process.Blind) : process.announced.Blind where
  advance place state store := by
    obtain ⟨⟨reached, news, after⟩, keys, hsame⟩ := h.advance place state store
    cases reached with
    | ended outcome =>
      refine ⟨⟨.ended outcome, true, after⟩, keys, fun cache hs => ?_⟩
      simp only [Process.announced, hsame cache hs, Advance.under]
    | exhausted =>
      refine ⟨⟨.exhausted, news, after⟩, keys, fun cache hs => ?_⟩
      simp only [Process.announced, hsame cache hs, Advance.under]
    | waiting later =>
      refine ⟨⟨.waiting later, news, after⟩, keys, fun cache hs => ?_⟩
      simp only [Process.announced, hsame cache hs, Advance.under]
  leave := h.leave

/-- Until the first process has ended it asks on its own. -/
theorem bind_first (h : process.Blind) (hnext : ∀ b, (next b).Blind) (place : Place)
    (state : Option process.State) (store : Store) : Asks Advance.under fun cache =>
      (process.bind next).advance place (state.map .inl) (store.under cache) := by
  obtain ⟨⟨reached, news, middle⟩, keys, hsame⟩ := h.advance place state store
  simp only [Lawful.advance_bind_inl]
  cases reached with
  | ended outcome =>
    cases outcome with
    | ok b =>
      have hsecond := ((hnext b).advance place none middle).map Advance.under
        (Advance.within (fun later => (.inr ⟨b, later⟩ : (process.bind next).State)) news)
        fun _ _ => rfl
      refine hsecond.after keys fun cache hs => ?_
      simp only [hsame cache hs, Advance.under]
      rfl
    | error error =>
      refine ⟨⟨.ended (.error error), news, middle⟩, keys, fun cache hs => ?_⟩
      simp only [hsame cache hs, Advance.under]
  | exhausted =>
    refine ⟨⟨.exhausted, news, middle⟩, keys, fun cache hs => ?_⟩
    simp only [hsame cache hs, Advance.under]
  | waiting later =>
    refine ⟨⟨.waiting (.inl later), news, middle⟩, keys, fun cache hs => ?_⟩
    simp only [hsame cache hs, Advance.under]

theorem bind (h : process.Blind) (hnext : ∀ b, (next b).Blind) : (process.bind next).Blind where
  advance place state store := by
    match state with
    | none => exact bind_first h hnext place none store
    | some (.inl earlier) => exact bind_first h hnext place (some earlier) store
    | some (.inr ⟨b, earlier⟩) =>
      exact ((hnext b).advance place (some earlier) store).map Advance.under
        (Advance.within (fun later => (.inr ⟨b, later⟩ : (process.bind next).State)) false)
        fun _ _ => rfl
  leave
    | .inl state => h.leave state
    | .inr ⟨b, state⟩ => (hnext b).leave state

end Blind

section Join
variable {count : Nat} {members : Fin count → Process β}

theorem leaveAll_under (h : ∀ i, (members i).Blind) (live : List (Member members)) (store : Store)
    (cache : Cache) :
    leaveAll members live (store.under cache) = (leaveAll members live store).under cache := by
  induction live generalizing store with
  | nil => rfl
  | cons member live ih =>
    simp only [leaveAll, List.foldl_cons, (h member.1).leave] at ih ⊢
    exact ih _

def Sweep.Pass.under (pass : Sweep.Pass members) (cache : Cache) : Sweep.Pass members :=
  { pass with store := pass.store.under cache }

/-- A pass asks for what its turns ask for. -/
theorem Sweep.asks_pass (h : ∀ i, (members i).Blind) (place : Place)
    (entries : List (Sweep.Entry members)) (store : Store) :
    Asks Sweep.Pass.under fun cache => Sweep.pass place entries (store.under cache) := by
  induction entries generalizing store with
  | nil => exact asks_nothing ⟨[], none, false, store⟩ fun _ => rfl
  | cons entry entries ih =>
    have hrest := fun (entry : Sweep.Entry members) (news : Bool) (store : Store) =>
      (ih store).map Sweep.Pass.under (·.after entry news) fun _ _ => rfl
    cases entry with
    | inl result => exact hrest (.inl result) false store
    | inr unfinished =>
      obtain ⟨i, state⟩ := unfinished
      obtain ⟨⟨reached, news, after⟩, keys, hsame⟩ := (h i).advance (i :: place) state store
      simp only [Sweep.pass]
      cases reached with
      | ended outcome =>
        cases outcome with
        | ok result =>
          refine (hrest (.inl result) news after).after keys fun cache hs => ?_
          simp only [hsame cache hs, Advance.under]
        | error error =>
          refine ⟨⟨entries, some (.failed error), news, after⟩, keys, fun cache hs => ?_⟩
          simp only [hsame cache hs, Advance.under, Sweep.Pass.under]
      | exhausted =>
        refine ⟨⟨entries, some .exhausted, news, after⟩, keys, fun cache hs => ?_⟩
        simp only [hsame cache hs, Advance.under, Sweep.Pass.under]
      | waiting later =>
        refine (hrest (.inr ⟨i, some later⟩) news after).after keys fun cache hs => ?_
        simp only [hsame cache hs, Advance.under]

theorem Sweep.asks_advance (h : ∀ i, (members i).Blind) (place : Place)
    (entries : List (Sweep.Entry members)) (store : Store) : Asks Advance.under fun cache =>
      (sweep members).advance place (some entries) (store.under cache) := by
  obtain ⟨⟨entries, halt, news, after⟩, keys, hsame⟩ := Sweep.asks_pass h place entries store
  simp only [Process.sweep, Option.getD_some]
  cases halt with
  | some halt =>
    cases halt with
    | exhausted =>
      refine ⟨⟨.exhausted, news, after⟩, keys, fun cache hs => ?_⟩
      simp only [hsame cache hs, Sweep.Pass.under, Advance.under]
    | failed error =>
      refine ⟨⟨.ended (.error error), news, leaveAll members (Sweep.live entries) after⟩, keys,
        fun cache hs => ?_⟩
      simp only [hsame cache hs, Sweep.Pass.under, Advance.under, leaveAll_under h]
  | none =>
    cases hr : entries.mapM Sum.getLeft? with
    | some results =>
      refine ⟨⟨.ended (.ok results), news, after⟩, keys, fun cache hs => ?_⟩
      simp only [hsame cache hs, Sweep.Pass.under, Advance.under, hr]
    | none =>
      refine ⟨⟨.waiting entries, news, after⟩, keys, fun cache hs => ?_⟩
      simp only [hsame cache hs, Sweep.Pass.under, Advance.under, hr]

theorem Blind.sweep (h : ∀ i, (members i).Blind) : (sweep members).Blind where
  advance place
    | none, store => Sweep.asks_advance h place (Sweep.fresh members) store
    | some entries, store => Sweep.asks_advance h place entries store
  leave entries := leaveAll_under h (Sweep.live entries)

namespace Queue

theorem asks_stretch (h : ∀ i, (members i).Blind) (place : Place) (left patience : Nat)
    (queue : Queue members) (news : Bool) (store : Store) :
    Asks Advance.under fun cache => stretch place left patience queue news (store.under cache) := by
  have hend : ∀ (queue : Queue members) (news : Bool) (store : Store), Asks Advance.under fun cache =>
      (⟨.waiting queue, news, store.under cache⟩ : Advance (Queue members) (Queue members)) :=
    fun queue news store => asks_nothing ⟨.waiting queue, news, store⟩ fun _ => rfl
  induction left generalizing patience queue news store with
  | zero => exact hend queue true store
  | succ left ih =>
    cases patience with
    | zero => exact hend queue true store
    | succ patience =>
      simp only [stretch]
      cases hn : queue.next? with
      | none => exact hend queue news store
      | some next =>
        obtain ⟨⟨i, state⟩, rest⟩ := next
        obtain ⟨⟨reached, more, after⟩, keys, hsame⟩ := (h i).advance (i :: place) state store
        match reached with
        | .ended outcome =>
          cases hput : rest.results.put i outcome with
          | ok results =>
            refine ⟨⟨.ended (.ok { rest with results }), news || more, after⟩, keys,
              fun cache hs => ?_⟩
            simp only [hsame cache hs, Advance.under, hput]
          | error error =>
            refine ⟨⟨.ended (.error error), news || more, leaveAll members rest.live after⟩, keys,
              fun cache hs => ?_⟩
            simp only [hsame cache hs, Advance.under, hput, leaveAll_under h]
        | .exhausted =>
          refine ⟨⟨.exhausted, news || more, after⟩, keys, fun cache hs => ?_⟩
          simp only [hsame cache hs, Advance.under]
        | .waiting later =>
          have hrest : Asks Advance.under fun cache =>
              if more then stretch place left patience (rest.putBack ⟨i, later⟩ more) true
                (after.under cache)
              else stretch place left (patience + 1) (rest.putBack ⟨i, later⟩ more) news
                (after.under cache) := by
            cases more with
            | true => exact ih patience _ true after
            | false => exact ih (patience + 1) _ news after
          refine hrest.after keys fun cache hs => ?_
          simp only [hsame cache hs, Advance.under]

theorem asks_stretches (h : ∀ i, (members i).Blind) (place : Place) (missing : Nat)
    (queue : Queue members) (news : Bool) (store : Store) :
    Asks Advance.under fun cache => stretches place missing queue news (store.under cache) := by
  induction missing generalizing queue news store with
  | zero =>
    exact asks_nothing ⟨.ended (.ok queue.results.delivered.toList), news, store⟩
      fun _ => rfl
  | succ missing ih =>
    obtain ⟨⟨reached, anews, after⟩, keys, hsame⟩ :=
      asks_stretch h place (missing + 1) patience queue news store
    simp only [stretches]
    cases reached with
    | ended outcome =>
      cases outcome with
      | ok later =>
        refine (ih later anews after).after keys fun cache hs => ?_
        simp only [hsame cache hs, Advance.under]
      | error error =>
        refine ⟨⟨.ended (.error error), anews, after⟩, keys, fun cache hs => ?_⟩
        simp only [hsame cache hs, Advance.under]
    | exhausted =>
      refine ⟨⟨.exhausted, anews, after⟩, keys, fun cache hs => ?_⟩
      simp only [hsame cache hs, Advance.under]
    | waiting later =>
      refine ⟨⟨.waiting later, anews, after⟩, keys, fun cache hs => ?_⟩
      simp only [hsame cache hs, Advance.under]

end Queue

theorem Blind.queue (h : ∀ i, (members i).Blind) : (Process.queue members).Blind where
  advance place _ store := Queue.asks_stretches h place _ _ false store
  leave queue := leaveAll_under h queue.live

theorem Blind.join (h : ∀ i, (members i).Blind) : (join members).Blind := by
  by_cases hc : count ≤ sweepLimit
  · rw [join_of_le hc]
    exact .sweep h
  · rw [join_of_lt (Nat.not_le.1 hc)]
    exact .queue h

end Join

end Process

open Process

/-- No plan can tell one sound cache from another, whatever its host. -/
theorem Plan.blind (host : Host) (plan : Plan α) : (plan.process host).Blind := by
  induction plan with
  | done result => exact blind_act fun _ _ => rfl
  | fail error => exact blind_act fun _ _ => rfl
  | exhausted => exact blind_exhausted
  | await id next ih => exact (blind_value id).bind ih
  | callInline id next ih => exact (blind_act fun _ _ => rfl).bind ih
  | callBlock id call next ih => exact (blind_act fun _ _ => rfl).bind ih
  | compile source tags next ih => exact (blind_compile source tags).bind ih
  | join count members next ihm ih => exact (Blind.join ihm).bind ih
  | inner plan next ihp ih => exact ihp.announced.bind ih

end Stencil
