import Stencil.Context
import Stencil.Proofs.Plan.Course

/-!
# Lookups

What a path finds, told without plans and without a bound on what pending values yield: the innermost
view that has the first key decides, every further key is looked up in the settled value so far, and
the pending values that stand on the way are begun and no others.
-/

namespace Stencil

variable {host : Host} {ready : PendingId → Prop}

/-- Only maps have keys, and this is none that has the key. -/
def Value.Lacks (key : Text) (v : Value) : Prop :=
  ∀ entries, v = .map entries → entries.lookup key = none

/-- What becomes of settling a value: the pending values that yield each other are begun in turn. -/
inductive Value.Awaited (host : Host) (ready : PendingId → Prop) :
    Value → List PendingId → Turnout Value → Prop
  | there {v : Value} (h : v.kind ≠ .pending) : Awaited host ready v [] (.result v)
  | held {id : PendingId} (h : ¬ ready id) : Awaited host ready (.pending id) [id] (.held id)
  | failure {id : PendingId} {error : Error} (h : ready id)
    (fails : (host.pending id).result = .error error) :
    Awaited host ready (.pending id) [id] (.failure error)
  | yields {id : PendingId} {v : Value} {ids : List PendingId} {turnout : Turnout Value}
    (h : ready id) (yields : (host.pending id).result = .ok v)
    (more : Awaited host ready v ids turnout) :
    Awaited host ready (.pending id) (id :: ids) turnout

/-- Where a value leads that stands at a prefix of a path, with the keys after it. -/
inductive Value.Leads (host : Host) (ready : PendingId → Prop) :
    Value → List Text → List PendingId → Turnout (Option Value) → Prop
  | stops {v : Value} {keys : List Text} {ids : List PendingId} {turnout : Turnout Value}
    {last : Turnout (Option Value)} (awaited : v.Awaited host ready ids turnout)
    (stops : turnout.Stops last) : Leads host ready v keys ids last
  | last {v settled : Value} {ids : List PendingId}
    (awaited : v.Awaited host ready ids (.result settled)) :
    Leads host ready v [] ids (.result (some settled))
  | absent {v settled : Value} {key : Text} {keys : List Text} {ids : List PendingId}
    (awaited : v.Awaited host ready ids (.result settled)) (lacks : settled.Lacks key) :
    Leads host ready v (key :: keys) ids (.result none)
  | inside {v next : Value} {entries : List (Text × Value)} {key : Text} {keys : List Text}
    {ids more : List PendingId} {turnout : Turnout (Option Value)}
    (awaited : v.Awaited host ready ids (.result (.map entries)))
    (has : entries.lookup key = some next) (leads : Leads host ready next keys more turnout) :
    Leads host ready v (key :: keys) (ids ++ more) turnout

/-- What a path finds in a context, and the pending values that are begun for it. -/
inductive Context.Locates (host : Host) (ready : PendingId → Prop) (context : Context) :
    KeyPath → List PendingId → Turnout (Option Value) → Prop
  | implicit : Locates host ready context .implicit [] (.result (some context.view))
  | empty : Locates host ready context (.keys []) [] (.result none)
  | absent {key : Text} {keys : List Text} (lacks : ∀ view ∈ context.views, view.Lacks key) :
    Locates host ready context (.keys (key :: keys)) [] (.result none)
  | innermost {key : Text} {keys : List Text} {inner outer : List Value}
    {entries : List (Text × Value)} {v : Value} {ids : List PendingId}
    {turnout : Turnout (Option Value)} (split : context.views = inner ++ .map entries :: outer)
    (lacks : ∀ view ∈ inner, view.Lacks key) (has : entries.lookup key = some v)
    (leads : v.Leads host ready keys ids turnout) :
    Locates host ready context (.keys (key :: keys)) ids turnout

namespace Value

variable {key : Text} {v : Value}

theorem get?_eq_none_iff : v.get? key = none ↔ v.Lacks key := by
  cases v <;> simp [get?, Lacks]

theorem get?_eq_some_iff {found : Value} :
    v.get? key = some found ↔ ∃ entries, v = .map entries ∧ entries.lookup key = some found := by
  cases v <;> simp [get?]

theorem onlyWaits_settle (fuel : Nat) (v : Value) : (v.settle fuel).OnlyWaits := by
  induction fuel generalizing v with
  | zero => cases v <;> trivial
  | succ fuel ih =>
    cases v with
    | pending id => exact fun next => ih next
    | _ => trivial

end Value

namespace Context

theorem onlyWaits_descend (fuel : Nat) (keys : List Text) (v : Value) :
    (descend fuel keys v).OnlyWaits := by
  induction keys generalizing v with
  | nil => trivial
  | cons key keys ih =>
    rw [descend]
    split
    · trivial
    · exact (Value.onlyWaits_settle fuel _).bind ih

theorem onlyWaits_lookup (fuel : Nat) (context : Context) (path : KeyPath) :
    (context.lookup fuel path).OnlyWaits := by
  rcases path with _ | _ | ⟨key, keys⟩
  · trivial
  · trivial
  · rw [lookup]
    split
    · trivial
    · exact (Value.onlyWaits_settle fuel _).bind fun v => onlyWaits_descend fuel keys v

end Context

namespace Value.Awaited

variable {v : Value} {ids more : List PendingId} {turnout : Turnout Value}

/-- With a bound that is large enough, settling goes its way. -/
theorem course (h : v.Awaited host ready ids turnout) {fuel : Nat} (enough : ids.length ≤ fuel) :
    (v.settle fuel).Course host ready ids turnout := by
  induction h generalizing fuel with
  | there hv =>
    rw [settle_of_kind_ne hv]
    exact .done _
  | held hr =>
    obtain ⟨fuel, rfl⟩ := Nat.exists_eq_add_one.2 (Nat.lt_of_lt_of_le Nat.one_pos enough)
    exact .held hr
  | failure hr fails =>
    obtain ⟨fuel, rfl⟩ := Nat.exists_eq_add_one.2 (Nat.lt_of_lt_of_le Nat.one_pos enough)
    exact .failure hr fails
  | yields hr hv _ ih =>
    rw [List.length_cons] at enough
    obtain ⟨fuel, rfl⟩ := Nat.exists_eq_add_one.2 (Nat.lt_of_lt_of_le (Nat.succ_pos _) enough)
    exact .await hr hv (ih (by omega))

/-- Settling goes no other way, unless the bound is reached. -/
theorem of_course {fuel : Nat} (h : (v.settle fuel).Course host ready ids turnout) :
    turnout = .exhausted ∨ v.Awaited host ready ids turnout := by
  induction fuel generalizing v ids with
  | zero =>
    cases v with
    | pending id =>
      cases h
      exact .inl rfl
    | _ =>
      cases h
      exact .inr (.there nofun)
  | succ fuel ih =>
    cases v with
    | pending id =>
      cases h with
      | held hr => exact .inr (.held hr)
      | failure hr fails => exact .inr (.failure hr fails)
      | await hr yields more => exact (ih more).imp_right (.yields hr yields)
    | _ =>
      cases h
      exact .inr (.there nofun)

theorem not_exhausted (h : v.Awaited host ready ids turnout) : turnout ≠ .exhausted := by
  induction h with
  | there | held | failure => nofun
  | yields _ _ _ ih => exact ih

theorem kind_ne {settled : Value} (h : v.Awaited host ready ids (.result settled)) :
    settled.kind ≠ .pending := by
  generalize ht : Turnout.result settled = turnout at h
  induction h with
  | there hv =>
    obtain rfl := Turnout.result.inj ht
    exact hv
  | yields _ _ _ ih => exact ih ht
  | _ => cases ht

/-- Settling fails just when a value that is begun fails, and with its failure. -/
theorem failure_iff (h : v.Awaited host ready ids turnout) (error : Error) :
    turnout = .failure error ↔
      ∃ id ∈ ids, ready id ∧ (host.pending id).result = .error error := by
  induction h with
  | there hv => simp
  | held hr => simp [hr]
  | failure hr fails => simp [hr, fails, eq_comm]
  | yields hr hv _ ih => simp [ih, hv]

end Value.Awaited

namespace Value.Leads

variable {v : Value} {keys : List Text} {ids : List PendingId} {turnout : Turnout (Option Value)}

theorem course (h : v.Leads host ready keys ids turnout) {fuel : Nat} (enough : ids.length ≤ fuel) :
    ((v.settle fuel).bind (Context.descend fuel keys)).Course host ready ids turnout := by
  induction h with
  | stops awaited stops => exact (awaited.course enough).bind_stops stops
  | @last v settled ids awaited =>
    have hrest : (Context.descend fuel [] settled).Course host ready [] (.result (some settled)) :=
      .done (some settled)
    simpa using (awaited.course enough).bind hrest
  | @absent v settled key keys ids awaited lacks =>
    have hrest : (Context.descend fuel (key :: keys) settled).Course host ready [] (.result none) := by
      rw [Context.descend, get?_eq_none_iff.2 lacks]
      exact .done none
    simpa using (awaited.course enough).bind hrest
  | @inside v next entries key keys ids more turnout awaited has leads ih =>
    rw [List.length_append] at enough
    refine (awaited.course (by omega)).bind ?_
    rw [Context.descend, get?_eq_some_iff.2 ⟨entries, rfl, has⟩]
    exact ih (by omega)

theorem of_course {fuel : Nat}
    (h : ((v.settle fuel).bind (Context.descend fuel keys)).Course host ready ids turnout) :
    turnout = .exhausted ∨ v.Leads host ready keys ids turnout := by
  induction keys generalizing v ids with
  | nil =>
    obtain ⟨settled, first, rest, hfirst, hrest, rfl⟩ | ⟨stopped, hstop, hs⟩ := Plan.Course.of_bind h
    · obtain hex | hawaited := Awaited.of_course hfirst
      · cases hex
      · cases hrest
        exact .inr (by simpa using Leads.last hawaited)
    · obtain rfl | hawaited := Awaited.of_course hstop
      · cases hs
        exact .inl rfl
      · exact .inr (.stops hawaited hs)
  | cons key keys ih =>
    obtain ⟨settled, first, rest, hfirst, hrest, rfl⟩ | ⟨stopped, hstop, hs⟩ := Plan.Course.of_bind h
    · obtain hex | hawaited := Awaited.of_course hfirst
      · cases hex
      · rw [Context.descend] at hrest
        split at hrest
        · rename_i hnone
          cases hrest
          exact .inr (by simpa using Leads.absent hawaited (get?_eq_none_iff.1 hnone))
        · rename_i next hsome
          obtain ⟨entries, rfl, has⟩ := get?_eq_some_iff.1 hsome
          exact (ih hrest).imp_right (.inside hawaited has)
    · obtain rfl | hawaited := Awaited.of_course hstop
      · cases hs
        exact .inl rfl
      · exact .inr (.stops hawaited hs)

theorem not_exhausted (h : v.Leads host ready keys ids turnout) : turnout ≠ .exhausted := by
  induction h with
  | stops awaited stops =>
    rintro rfl
    cases stops
    exact awaited.not_exhausted rfl
  | last | absent => nofun
  | inside _ _ _ ih => exact ih

theorem kind_ne {settled : Value} (h : v.Leads host ready keys ids (.result (some settled))) :
    settled.kind ≠ .pending := by
  generalize ht : Turnout.result (some settled) = turnout at h
  induction h with
  | stops _ stops =>
    subst ht
    cases stops
  | last awaited =>
    cases ht
    exact awaited.kind_ne
  | absent => cases ht
  | inside _ _ _ ih => exact ih ht

theorem failure_iff (h : v.Leads host ready keys ids turnout) (error : Error) :
    turnout = .failure error ↔
      ∃ id ∈ ids, ready id ∧ (host.pending id).result = .error error := by
  induction h with
  | stops awaited stops =>
    rw [← awaited.failure_iff]
    cases stops <;> simp
  | last awaited | absent awaited => simpa using awaited.failure_iff error
  | @inside _ _ _ _ _ ids more _ awaited _ _ ih =>
    have hnone : ¬ ∃ id ∈ ids, ready id ∧ (host.pending id).result = .error error :=
      fun hf => nomatch (awaited.failure_iff error).2 hf
    rw [ih]
    constructor
    · rintro ⟨id, hmem, hf⟩
      exact ⟨id, List.mem_append_right ids hmem, hf⟩
    · rintro ⟨id, hmem, hf⟩
      rcases List.mem_append.1 hmem with hmem | hmem
      · exact absurd ⟨id, hmem, hf⟩ hnone
      · exact ⟨id, hmem, hf⟩

end Value.Leads

namespace Context

variable {context : Context} {path : KeyPath} {key : Text}

theorem find?_eq_none_iff : context.find? key = none ↔ ∀ view ∈ context.views, view.Lacks key := by
  simp only [find?, List.findSome?_eq_none_iff, Value.get?_eq_none_iff]

theorem find?_eq_some_iff {v : Value} : context.find? key = some v ↔
    ∃ inner entries outer, context.views = inner ++ .map entries :: outer ∧
      (∀ view ∈ inner, view.Lacks key) ∧ entries.lookup key = some v := by
  rw [find?, List.findSome?_eq_some_iff]
  simp only [Value.get?_eq_none_iff, Value.get?_eq_some_iff]
  constructor
  · rintro ⟨inner, _, outer, split, ⟨entries, rfl, has⟩, lacks⟩
    exact ⟨inner, entries, outer, split, lacks, has⟩
  · rintro ⟨inner, entries, outer, split, lacks, has⟩
    exact ⟨inner, _, outer, split, ⟨entries, rfl, has⟩, lacks⟩

/-- A frame without the first key is passed over. -/
theorem lookup_push (fuel : Nat) {view : Value} (explicit : path ≠ .implicit)
    (lacks : ∀ key keys, path = .keys (key :: keys) → view.Lacks key) :
    (context.push view).lookup fuel path = context.lookup fuel path := by
  rcases path with _ | _ | ⟨key, keys⟩
  · exact absurd rfl explicit
  · rfl
  · have hview := Value.get?_eq_none_iff.2 (lacks key keys rfl)
    rw [lookup, lookup, find?_push, hview, Option.none_or]

namespace Locates

variable {ids more : List PendingId} {turnout other : Turnout (Option Value)}

theorem course (h : context.Locates host ready path ids turnout) {fuel : Nat}
    (enough : ids.length ≤ fuel) : (context.lookup fuel path).Course host ready ids turnout := by
  cases h with
  | implicit => exact .done _
  | empty => exact .done _
  | absent lacks =>
    rw [lookup, find?_eq_none_iff.2 lacks]
    exact .done none
  | innermost split lacks has leads =>
    rw [lookup, find?_eq_some_iff.2 ⟨_, _, _, split, lacks, has⟩]
    exact leads.course enough

theorem of_course {fuel : Nat} (h : (context.lookup fuel path).Course host ready ids turnout) :
    turnout = .exhausted ∨ context.Locates host ready path ids turnout := by
  rcases path with _ | _ | ⟨key, keys⟩
  · cases h
    exact .inr .implicit
  · cases h
    exact .inr .empty
  · rw [lookup] at h
    split at h
    · rename_i hnone
      cases h
      exact .inr (.absent (find?_eq_none_iff.1 hnone))
    · rename_i found hsome
      obtain ⟨inner, entries, outer, split, lacks, has⟩ := find?_eq_some_iff.1 hsome
      exact (Value.Leads.of_course h).imp_right (.innermost split lacks has)

/-- A path finds one thing. -/
theorem unique (h : context.Locates host ready path ids turnout)
    (ho : context.Locates host ready path more other) : ids = more ∧ turnout = other :=
  (h.course (Nat.le_max_left ids.length more.length)).unique (ho.course (Nat.le_max_right ..))

theorem not_exhausted (h : context.Locates host ready path ids turnout) : turnout ≠ .exhausted := by
  cases h with
  | implicit | empty | absent => nofun
  | innermost _ _ _ leads => exact leads.not_exhausted

theorem failure_iff (h : context.Locates host ready path ids turnout) (error : Error) :
    turnout = .failure error ↔
      ∃ id ∈ ids, ready id ∧ (host.pending id).result = .error error := by
  cases h with
  | implicit | empty | absent => simp
  | innermost _ _ _ leads => exact leads.failure_iff error

/-- What is found in settled frames is there. -/
theorem kind_ne {v : Value} (h : context.Locates host ready path ids (.result (some v)))
    (settled : ∀ view ∈ context.views, view.kind ≠ .pending) : v.kind ≠ .pending := by
  cases h with
  | implicit => exact settled _ (List.mem_cons_self ..)
  | innermost _ _ _ leads => exact leads.kind_ne

end Locates

/-- Lookups are exact. Every advance of a lookup gets as far as the path leads with the values that can
yield by then, and begins the values that stand on its way and no others; it is exhausted only where
more values stand there than the bound allows. What is found is one thing, there is a failure just when
a value on the way fails, and then this one, and from settled frames nothing pending is found. A frame
without the first key makes no difference. -/
theorem lookup_exact (host : Host) (fuel : Nat) (context : Context) (path : KeyPath) (place : Place) :
    (∀ store advance, Plan.Lives host (context.lookup fuel path) place store advance →
      (∃ ids turnout, context.Locates host (store.CanYield host) path ids turnout ∧
          turnout.Meets advance.reached ∧
          ∀ id, id ∈ advance.store.begun ↔ id ∈ store.begun ∨ id ∈ ids) ∨
        advance.reached = .exhausted ∧ ∀ ids turnout,
          context.Locates host (store.CanYield host) path ids turnout → fuel < ids.length) ∧
    (∀ (ready : PendingId → Prop) ids turnout, context.Locates host ready path ids turnout →
      (∀ more other, context.Locates host ready path more other → ids = more ∧ turnout = other) ∧
      (∀ error, turnout = .failure error ↔
        ∃ id ∈ ids, ready id ∧ (host.pending id).result = .error error) ∧
      ((∀ view ∈ context.views, view.kind ≠ .pending) →
        ∀ v, turnout = .result (some v) → v.kind ≠ .pending)) ∧
    ∀ view, path ≠ .implicit → (∀ key keys, path = .keys (key :: keys) → view.Lacks key) →
      (context.push view).lookup fuel path = context.lookup fuel path := by
  refine ⟨fun store advance hlives => ?_, fun ready ids turnout h => ⟨?_, ?_, ?_⟩, ?_⟩
  · have hwaits := onlyWaits_lookup fuel context path
    obtain ⟨ids, turnout, hcourse⟩ := @Plan.OnlyWaits.exists_course _ host _ hwaits (store.CanYield host)
    have hfollows := hlives.follows hwaits hcourse
    obtain rfl | hlocates := Locates.of_course hcourse
    · refine .inr ⟨hfollows.reached, fun more other hlocates => ?_⟩
      by_contra henough
      obtain ⟨-, rfl⟩ := (hlocates.course (Nat.le_of_not_lt henough)).unique hcourse
      exact hlocates.not_exhausted rfl
    · exact .inl ⟨ids, turnout, hlocates, hfollows.meets, hfollows.begun⟩
  · exact fun more other => h.unique
  · exact h.failure_iff
  · rintro settled v rfl
    exact h.kind_ne settled
  · exact fun view => lookup_push fuel

/-- A map that comes about, with an entry that comes about. -/
def awaitedHost : Host where
  pending
    | 0 => ⟨.ok (.map [(['b'], .pending 1)]), false⟩
    | 1 => ⟨.ok (.string ['x']), false⟩
    | _ => ⟨.error (.valueFailed []), false⟩
  inline _ _ := .null
  block _ _ _ := .value .null

/-- The path goes through both pending values, out of a frame without its first key. -/
theorem lookup_exact_awaited :
    let context := (Context.root (.map [(['a'], .pending 0)])).push (.map [(['b'], .pending 2)])
    let path := KeyPath.keys [['a'], ['b']]
    let advance := (context.lookup 2 path).advance awaitedHost [] .empty
    context.Locates awaitedHost (Store.empty.CanYield awaitedHost) path [0, 1]
        (.result (some (.string ['x']))) ∧
      (Turnout.result (some (.string ['x']))).Meets advance.reached ∧
      (∀ id, id ∈ advance.store.begun ↔ id = 0 ∨ id = 1) ∧
      (Value.string ['x']).kind ≠ .pending ∧
      context.lookup 2 path = (Context.root (.map [(['a'], .pending 0)])).lookup 2 path := by
  intro context path advance
  have hmap : Store.empty.CanYield awaitedHost 0 := .inr rfl
  have hentry : Store.empty.CanYield awaitedHost 1 := .inr rfl
  have hlocates : context.Locates awaitedHost (Store.empty.CanYield awaitedHost) path [0, 1]
      (.result (some (.string ['x']))) := by
    have hfirst : (Value.pending 0).Awaited awaitedHost (Store.empty.CanYield awaitedHost) [0] _ :=
      .yields hmap rfl (.there (by decide))
    have hsecond : (Value.pending 1).Awaited awaitedHost (Store.empty.CanYield awaitedHost) [1] _ :=
      .yields hentry rfl (.there (by decide))
    refine @Locates.innermost _ _ context _ _ [.map [(['b'], .pending 2)]] [] _ _ _ _ rfl ?_ rfl
      (.inside hfirst rfl (.last hsecond))
    simp [Value.Lacks]
  obtain ⟨hlives, hfound, -⟩ := lookup_exact awaitedHost 2 context path []
  obtain ⟨hunique, -, hthere⟩ := hfound _ _ _ hlocates
  obtain ⟨-, -, hpush⟩ := lookup_exact awaitedHost 2 (.root (.map [(['a'], .pending 0)])) path []
  obtain ⟨ids, turnout, hadvance, hmeets, hbegun⟩ | ⟨-, hlong⟩ := hlives _ advance (.start .empty)
  · obtain ⟨rfl, rfl⟩ := hunique _ _ hadvance
    refine ⟨hlocates, hmeets, fun id => ?_, hthere ?_ _ rfl, hpush _ (by simp [path]) ?_⟩
    · simpa [Store.empty] using hbegun id
    · rintro view hview
      obtain rfl | rfl : view = _ ∨ view = _ := by simpa [context, Context.views, push, root] using hview
      all_goals simp [Value.kind]
    · intro key keys hpath
      obtain ⟨rfl, -⟩ : ['a'] = key ∧ [['b']] = keys := by simpa [path] using hpath
      simp [Value.Lacks]
  · exact absurd (hlong _ _ hlocates) (by decide)

end Context
end Stencil
