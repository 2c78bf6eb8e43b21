import Stencil.Proofs.Plan.Failure
import Stencil.Proofs.Plan.Lawful
import Stencil.Proofs.Process.Bind
import Stencil.Proofs.Plan.Sheds

/-!
# Processes in step

A process tracks another when from stores that are alike the two get equally far at each advance, with
results in a relation, and leave stores that are alike. What tells such stores apart is only how far
values have come that are there anyway. Once it waits, a process that has no large join in it does
nothing more however often it is advanced, until something is released.
-/

namespace Stencil

variable {host : Host}

namespace Store

/-- Only what is ready has yielded, and for what is there from the start nobody waits. -/
structure Tidy (host : Host) (store : Store) : Prop where
  sound : store.cache.Sound
  yielded : ∀ id ∈ store.yielded, store.isReady host id = true
  seats : ∀ id, (host.pending id).manual = false → store.seatsOf id = .empty

/-- Stores that differ in nothing but how far values have come that are there from the start. -/
structure Alike (host : Host) (other store : Store) : Prop where
  tidy : store.Tidy host
  tidy' : other.Tidy host
  cache : other.cache = store.cache
  released : other.released = store.released
  yielded : ∀ id, (host.pending id).manual = true → (id ∈ other.yielded ↔ id ∈ store.yielded)
  seats : ∀ id, other.seatsOf id = store.seatsOf id

theorem tidy_empty (host : Host) : empty.Tidy host := by
  refine ⟨Cache.sound_empty, fun id h => ?_, fun id _ => ?_⟩
  · simp [empty] at h
  · simp [empty, seatsOf]

theorem seatsOf_yield_of_ne (store : Store) {id other : PendingId} (h : id ≠ other) :
    (store.yield id).seatsOf other = store.seatsOf other := by
  simp [yield, seatsOf, Std.TreeMap.getD_erase, h]

theorem mem_yielded_yield {store : Store} {id other : PendingId} :
    other ∈ (store.yield id).yielded ↔ id = other ∨ other ∈ store.yielded := by
  simp [yield, Std.TreeSet.mem_insert]

namespace Tidy

variable {store : Store} {id : PendingId}

theorem yield (h : store.Tidy host) (hr : store.isReady host id = true) :
    (store.yield id).Tidy host := by
  refine ⟨h.sound, fun other ho => ?_, fun other hm => ?_⟩
  · rcases mem_yielded_yield.1 ho with rfl | ho
    · exact hr
    · exact h.yielded other ho
  · by_cases he : id = other
    · rw [he, seatsOf_yield]
    · rw [seatsOf_yield_of_ne store he, h.seats other hm]

theorem begun (h : store.Tidy host) (begun : Std.TreeSet PendingId) :
    Tidy host { store with begun } :=
  { h with }

theorem setCache (h : store.Tidy host) {cache : Cache} (hs : cache.Sound) :
    Tidy host { store with cache } :=
  { h with sound := hs }

/-- Seats change hands only where somebody may have to wait. -/
theorem setSeats (h : store.Tidy host) (hm : (host.pending id).manual = true) (seats : Seats) :
    (store.setSeats id seats).Tidy host := by
  refine ⟨h.sound, h.yielded, fun other ho => ?_⟩
  have hne : id ≠ other := by
    rintro rfl
    rw [hm] at ho
    cases ho
  rw [seatsOf_setSeats, if_neg hne, h.seats other ho]

end Tidy

namespace Alike

variable {other store : Store} {id : PendingId}

theorem isReady_eq (h : other.Alike host store) : other.isReady host = store.isReady host := by
  funext id
  rw [isReady, isReady, h.released]

theorem symm (h : other.Alike host store) : store.Alike host other where
  tidy := h.tidy'
  tidy' := h.tidy
  cache := h.cache.symm
  released := h.released.symm
  yielded id hm := (h.yielded id hm).symm
  seats id := (h.seats id).symm

theorem begun (h : other.Alike host store) (begun' begun : Std.TreeSet PendingId) :
    Alike host { other with begun := begun' } { store with begun := begun } :=
  { h with tidy := h.tidy.begun begun, tidy' := h.tidy'.begun begun' }

/-- One has a value yield that is there from the start. -/
theorem yield_left (h : other.Alike host store) (hm : (host.pending id).manual = false) :
    (other.yield id).Alike host store where
  tidy := h.tidy
  tidy' := h.tidy'.yield (by simp [isReady, hm])
  cache := h.cache
  released := h.released
  yielded o ho := by
    have hne : id ≠ o := by
      rintro rfl
      rw [hm] at ho
      cases ho
    rw [mem_yielded_yield, or_iff_right hne, h.yielded o ho]
  seats o := by
    by_cases he : id = o
    · rw [← he, seatsOf_yield, h.tidy.seats id hm]
    · rw [seatsOf_yield_of_ne other he, h.seats o]

theorem yield (h : other.Alike host store) (hr : store.isReady host id = true) :
    (other.yield id).Alike host (store.yield id) where
  tidy := h.tidy.yield hr
  tidy' := h.tidy'.yield (h.isReady_eq ▸ hr)
  cache := h.cache
  released := h.released
  yielded o ho := by rw [mem_yielded_yield, mem_yielded_yield, h.yielded o ho]
  seats o := by
    by_cases he : id = o
    · rw [he, seatsOf_yield, seatsOf_yield]
    · rw [seatsOf_yield_of_ne other he, seatsOf_yield_of_ne store he, h.seats o]

theorem setSeats (h : other.Alike host store) (hm : (host.pending id).manual = true)
    (seats : Seats) : (other.setSeats id seats).Alike host (store.setSeats id seats) where
  tidy := h.tidy.setSeats hm seats
  tidy' := h.tidy'.setSeats hm seats
  cache := h.cache
  released := h.released
  yielded := h.yielded
  seats o := by rw [seatsOf_setSeats, seatsOf_setSeats, h.seats o]

theorem setCache (h : other.Alike host store) {cache : Cache} (hs : cache.Sound) :
    Alike host { other with cache } { store with cache } :=
  { h with tidy := h.tidy.setCache hs, tidy' := h.tidy'.setCache hs, cache := rfl }

end Alike
end Store

namespace Process

variable {δ γ β α τ σ : Type} {ready : PendingId → Bool}

/-- However often it is advanced, nothing comes about in a state of the process while just these
values are ready. -/
def Idles (host : Host) (ready : PendingId → Bool) (process : Process α) (state : process.State) :
    Prop :=
  ∀ place (store : Store), store.Tidy host → store.isReady host = ready →
    ∃ begun, process.advance place (some state) store = ⟨.waiting state, false, { store with begun }⟩

/-- Two advances that get equally far, where the second has not reached its bound. -/
inductive Abreast (host : Host) (ready : PendingId → Bool) (R : β → α → Prop)
    (holds : τ → σ → Prop) : Advance τ β → Advance σ α → Prop
  | exhausted {first : Advance τ β} {news : Bool} {store : Store} :
    Abreast host ready R holds first ⟨.exhausted, news, store⟩
  | ok {b : β} {a : α} {news' news : Bool} {other store : Store} (h : R b a)
    (hr : store.isReady host = ready) (alike : other.Alike host store) :
    Abreast host ready R holds ⟨.ended (.ok b), news', other⟩ ⟨.ended (.ok a), news, store⟩
  | failed (error : Error) {news' news : Bool} {other store : Store}
    (hr : store.isReady host = ready) (alike : other.Alike host store) :
    Abreast host ready R holds ⟨.ended (.error error), news', other⟩
      ⟨.ended (.error error), news, store⟩
  | waiting {state' : τ} {state : σ} {news' news : Bool} {other store : Store}
    (h : holds state' state) (hr : store.isReady host = ready) (alike : other.Alike host store) :
    Abreast host ready R holds ⟨.waiting state', news', other⟩ ⟨.waiting state, news, store⟩

/-- States of the two between advances, and what is kept of them; at most these values are ready. -/
structure Tracking (host : Host) (ready : PendingId → Bool) (first : Process β) (second : Process α)
    (R : β → α → Prop) (S : first.State → second.State → Prop) : Prop where
  hear : ∀ path {state' state}, S state' state → S (first.hear path state') (second.hear path state)
  leave : ∀ {state' state} {other store : Store}, S state' state → other.Alike host store →
    (first.leave state' other).Alike host (second.leave state store) ∧
      (second.leave state store).isReady host = store.isReady host
  advance : ∀ place {state' state} {other store : Store}, Option.Rel S state' state →
    other.Alike host store → (∀ id, store.isReady host id = true → ready id = true) →
    Abreast host (store.isReady host) R
      (fun state' state => S state' state ∧ first.Idles host (store.isReady host) state' ∧
        second.Idles host (store.isReady host) state)
      (first.advance place state' other) (second.advance place state store)

def Tracks (host : Host) (ready : PendingId → Bool) (first : Process β) (second : Process α)
    (R : β → α → Prop) : Prop :=
  ∃ S, Tracking host ready first second R S

variable {R : β → α → Prop}

theorem Abreast.imp {holds holds' : τ → σ → Prop} {ahead : Advance τ β} {behind : Advance σ α}
    (h : Abreast host ready R holds ahead behind) (hh : ∀ s' s, holds s' s → holds' s' s) :
    Abreast host ready R holds' ahead behind := by
  cases h with
  | exhausted => exact .exhausted
  | ok h hr hs => exact .ok h hr hs
  | failed error hr hs => exact .failed error hr hs
  | waiting h hr hs => exact .waiting (hh _ _ h) hr hs

/-- Two that keep in step and never wait. -/
def Swift (host : Host) (ready : PendingId → Bool) (first : Process β) (second : Process α)
    (R : β → α → Prop) : Prop :=
  ∀ place {other store : Store}, other.Alike host store →
    (∀ id, store.isReady host id = true → ready id = true) →
    Abreast host (store.isReady host) R (fun _ _ => False) (first.advance place none other)
      (second.advance place none store)

theorem Abreast.results {R' : β → α → Prop} {holds : τ → σ → Prop} {ahead : Advance τ β}
    {behind : Advance σ α} (h : Abreast host ready R holds ahead behind) (hR : ∀ b a, R b a → R' b a) :
    Abreast host ready R' holds ahead behind := by
  cases h with
  | exhausted => exact .exhausted
  | ok h hr hs => exact .ok (hR _ _ h) hr hs
  | failed error hr hs => exact .failed error hr hs
  | waiting h hr hs => exact .waiting h hr hs

theorem Tracks.imp {R' : β → α → Prop} {first : Process β} {second : Process α}
    (h : Tracks host ready first second R) (hR : ∀ b a, R b a → R' b a) :
    Tracks host ready first second R' := by
  obtain ⟨S, hS⟩ := h
  exact ⟨S, hS.hear, hS.leave, fun place _ _ _ _ hrel hs hle =>
    (hS.advance place hrel hs hle).results hR⟩

theorem Swift.imp {R' : β → α → Prop} {first : Process β} {second : Process α}
    (h : Swift host ready first second R) (hR : ∀ b a, R b a → R' b a) :
    Swift host ready first second R' :=
  fun place _ _ hs hle => (h place hs hle).results hR

theorem Swift.tracking {first : Process β} {second : Process α}
    (h : Swift host ready first second R) : Tracking host ready first second R fun _ _ => False := by
  refine ⟨fun _ _ _ => False.elim, False.elim, ?_⟩
  intro place state' state other store hrel hs hle
  cases hrel with
  | none => exact (h place hs hle).imp fun _ _ => False.elim
  | some h => exact h.elim

theorem Swift.tracks {first : Process β} {second : Process α} (h : Swift host ready first second R) :
    Tracks host ready first second R :=
  ⟨_, h.tracking⟩

theorem swift_ended {b : β} {a : α} (h : R b a) :
    Swift host ready (ended (.ok b)) (ended (.ok a)) R :=
  fun _ _ _ hs _ => .ok h rfl hs

theorem swift_failed (error : Error) :
    Swift host ready (ended (.error error) : Process β) (ended (.error error) : Process α) R :=
  fun _ _ _ hs _ => .failed error rfl hs

theorem swift_exhausted (first : Process β) :
    Swift host ready first (exhausted : Process α) R :=
  fun _ _ _ _ _ => .exhausted

theorem swift_compile (source : Text) (tags : Tags) :
    Swift host ready
      (act fun store =>
        let (entry, cache) := store.cache.fetch source tags
        (entry.map CacheEntry.nodes, { store with cache }))
      (act fun store =>
        let (entry, cache) := store.cache.fetch source tags
        (entry.map CacheEntry.nodes, { store with cache }))
      (fun nodes nodes' => nodes = nodes' ∧ Template.compile source tags = .ok nodes) := by
  intro place other store hs _
  have hnodes := hs.tidy.sound.map_nodes_fetch source tags
  have halike := hs.setCache (hs.tidy.sound.fetch source tags)
  simp only [act, hs.cache]
  rw [hnodes]
  cases hc : Template.compile source tags with
  | ok nodes => exact .ok ⟨rfl, rfl⟩ rfl halike
  | error error => exact .failed error rfl halike

section Value
variable {id : PendingId} {other store : Store}

/-- The store after a value has been asked for that is ready. -/
def asked (id : PendingId) (store : Store) : Store :=
  if id ∈ store.yielded then store.begin id else (store.begin id).yield id

theorem advance_value_of_ready (hr : store.isReady host id = true) (place : Place)
    (state : Option Nat) : ∃ news, (value host id).advance place state store =
      ⟨.ended (host.pending id).result, news, asked id store⟩ := by
  have hyielded : (store.begin id).yielded = store.yielded := rfl
  have hready : (store.begin id).isReady host id = true := hr
  by_cases hy : id ∈ store.yielded
  · exact ⟨false, by simp only [value, asked, hyielded, hy, if_true]⟩
  · exact ⟨true, by simp only [value, asked, hyielded, hy, hready, if_true, if_false]⟩

theorem alike_asked_left (hs : other.Alike host store) (hm : (host.pending id).manual = false) :
    (asked id other).Alike host store := by
  have hb : (other.begin id).Alike host store := hs.begun _ store.begun
  rw [asked]
  split
  · exact hb
  · exact hb.yield_left hm

theorem alike_asked (hs : other.Alike host store) (hr : store.isReady host id = true) :
    (asked id other).Alike host (asked id store) := by
  have hb : (other.begin id).Alike host (store.begin id) := hs.begun _ _
  cases hm : (host.pending id).manual with
  | true =>
    have hy := hs.yielded id hm
    by_cases ho : id ∈ store.yielded
    · simpa only [asked, hy, ho, if_true] using hb
    · simpa only [asked, hy, ho, if_false] using hb.yield hr
  | false =>
    -- it may have been asked for before in one store and not in the other
    exact (alike_asked_left (alike_asked_left hs hm).symm hm).symm

/-- Both have the value when it is ready. -/
theorem abreast_value {holds : Nat → Nat → Prop} (hs : other.Alike host store)
    (hr : store.isReady host id = true) (hready : ready id = true) (place : Place)
    (state' state : Option Nat) : Abreast host (store.isReady host)
      (fun v v' => v = v' ∧ (host.pending id).result = .ok v ∧ ready id = true) holds
      ((value host id).advance place state' other) ((value host id).advance place state store) := by
  have hr' : other.isReady host id = true := hs.isReady_eq ▸ hr
  obtain ⟨news', hfirst⟩ := advance_value_of_ready hr' place state'
  obtain ⟨news, hsecond⟩ := advance_value_of_ready hr place state
  have hafter : (asked id store).isReady host = store.isReady host := by
    rw [asked]
    split <;> rfl
  rw [hfirst, hsecond]
  cases hv : (host.pending id).result with
  | ok v => exact .ok ⟨rfl, rfl, hready⟩ hafter (alike_asked hs hr)
  | error error => exact .failed error hafter (alike_asked hs hr)

theorem swift_value (hm : (host.pending id).manual = false) :
    Swift host ready (value host id) (value host id)
      (fun v v' => v = v' ∧ (host.pending id).result = .ok v ∧ ready id = true) := by
  intro place other store hs hle
  have hr : store.isReady host id = true := by simp [Store.isReady, hm]
  exact abreast_value hs hr (hle id hr) place none none

theorem manual_of_not_ready (hr : store.isReady host id = false) : (host.pending id).manual = true := by
  cases hm : (host.pending id).manual with
  | true => rfl
  | false => simp [Store.isReady, hm] at hr

theorem advance_value_of_not_ready (hs : store.Tidy host) (hr : store.isReady host id = false)
    (place : Place) (state : Option Nat) : (value host id).advance place state store =
      match state with
      | some number => ⟨.waiting number, false, store.begin id⟩
      | none => ⟨.waiting (store.seatsOf id).next, false,
          (store.begin id).setSeats id ((store.seatsOf id).take place)⟩ := by
  have hy : id ∉ (store.begin id).yielded := by
    intro hy
    rw [hs.yielded id hy] at hr
    cases hr
  have hready : (store.begin id).isReady host id = false := hr
  simp only [value, hy, hready, if_false, Bool.false_eq_true]
  cases state <;> rfl

theorem idles_value (hr : ready id = false) (number : Nat) :
    (value host id).Idles host ready number := by
  intro place store hs hready
  rw [← hready] at hr
  exact ⟨_, advance_value_of_not_ready hs hr place (some number)⟩

theorem tracks_value (host : Host) (ready : PendingId → Bool) (id : PendingId) :
    Tracks host ready (value host id) (value host id)
      (fun v v' => v = v' ∧ (host.pending id).result = .ok v ∧ ready id = true) := by
  refine ⟨fun n' n => n' = n ∧ (host.pending id).manual = true, ⟨fun _ _ _ h => h, ?_, ?_⟩⟩
  · rintro n _ other store ⟨rfl, hm⟩ hs
    refine ⟨?_, rfl⟩
    simp only [value, Store.unseat, hs.seats]
    exact hs.setSeats hm _
  · intro place state' state other store hstate hs hle
    cases hr : store.isReady host id with
    | true => exact abreast_value hs hr (hle id hr) place state' state
    | false =>
      have hr' : other.isReady host id = false := hs.isReady_eq ▸ hr
      have hm := manual_of_not_ready hr
      have hb : (other.begin id).Alike host (store.begin id) := hs.begun _ _
      have hfirst := advance_value_of_not_ready hs.tidy' hr' place state'
      have hsecond := advance_value_of_not_ready hs.tidy hr place state
      rw [hfirst, hsecond]
      cases hstate with
      | some h =>
        obtain ⟨rfl, -⟩ := h
        exact .waiting ⟨⟨rfl, hm⟩, idles_value hr _, idles_value hr _⟩ rfl hb
      | none =>
        simp only [hs.seats]
        exact .waiting ⟨⟨rfl, hm⟩, idles_value hr _, idles_value hr _⟩ rfl (hb.setSeats hm _)

end Value

section Bind
variable {first : Process δ} {second : Process γ} {more : δ → Process β} {next : γ → Process α}

theorem Abreast.within_left {τ' : Type} {holds : τ → σ → Prop} {holds' : τ' → σ → Prop}
    {ahead : Advance τ β} {behind : Advance σ α} (h : Abreast host ready R holds ahead behind)
    {f : τ → τ'} (hf : ∀ s' s, holds s' s → holds' (f s') s) (news : Bool) :
    Abreast host ready R holds' (ahead.within f news) behind := by
  cases h with
  | exhausted => exact .exhausted
  | ok h hr hs => exact .ok h hr hs
  | failed error hr hs => exact .failed error hr hs
  | waiting h hr hs => exact .waiting (hf _ _ h) hr hs

theorem Abreast.within_right {σ' : Type} {holds : τ → σ → Prop} {holds' : τ → σ' → Prop}
    {ahead : Advance τ β} {behind : Advance σ α} (h : Abreast host ready R holds ahead behind)
    {g : σ → σ'} (hg : ∀ s' s, holds s' s → holds' s' (g s)) (news : Bool) :
    Abreast host ready R holds' ahead (behind.within g news) := by
  cases h with
  | exhausted => exact .exhausted
  | ok h hr hs => exact .ok h hr hs
  | failed error hr hs => exact .failed error hr hs
  | waiting h hr hs => exact .waiting (hg _ _ h) hr hs

theorem Abreast.within {τ' σ' : Type} {holds : τ → σ → Prop} {holds' : τ' → σ' → Prop}
    {ahead : Advance τ β} {behind : Advance σ α} (h : Abreast host ready R holds ahead behind)
    {f : τ → τ'} {g : σ → σ'} (hfg : ∀ s' s, holds s' s → holds' (f s') (g s)) (news' news : Bool) :
    Abreast host ready R holds' (ahead.within f news') (behind.within g news) := by
  have hleft : Abreast host ready R (fun t' s => ∃ s', t' = f s' ∧ holds s' s)
      (ahead.within f news') behind := h.within_left (fun s' _ hs => ⟨s', rfl, hs⟩) news'
  refine hleft.within_right ?_ news
  rintro _ s ⟨s', rfl, hs⟩
  exact hfg s' s hs

theorem Swift.bind {T : δ → γ → Prop} (h : Swift host ready first second T)
    (hnext : ∀ d c, T d c → Swift host ready (more d) (next c) R) :
    Swift host ready (first.bind more) (second.bind next) R := by
  intro place other store hs hle
  have ha := h place hs hle
  have hfirst : (first.bind more).advance place none other = _ := Lawful.advance_bind_inl none
  have hsecond : (second.bind next).advance place none store = _ := Lawful.advance_bind_inl none
  rw [hfirst, hsecond]
  generalize first.advance place none other = ahead at ha
  generalize second.advance place none store = behind at ha
  cases ha with
  | exhausted => exact .exhausted
  | ok hT hr hs =>
    rw [← hr] at hle ⊢
    exact (hnext _ _ hT place hs hle).within (fun _ _ => False.elim) _ _
  | failed error hr hs => exact .failed error hr hs
  | waiting h => exact h.elim

/-- The first parts are under way in both, or the second parts after results in a relation. -/
inductive BothAt (S : first.State → second.State → Prop) (T : δ → γ → Prop)
    (U : ∀ d c, (more d).State → (next c).State → Prop) :
    (first.bind more).State → (second.bind next).State → Prop
  | first {s' : first.State} {s : second.State} (h : S s' s) : BothAt S T U (.inl s') (.inl s)
  | second {d : δ} {c : γ} {t' : (more d).State} {t : (next c).State} (hT : T d c) (h : U d c t' t) :
    BothAt S T U (.inr ⟨d, t'⟩) (.inr ⟨c, t⟩)

theorem idles_inl {s : first.State} (h : first.Idles host ready s) :
    (first.bind more).Idles host ready (.inl s) := by
  intro place store hs hr
  obtain ⟨begun, ha⟩ := h place store hs hr
  refine ⟨begun, ?_⟩
  simp only [bind, Option.bind_some, Sum.getLeft?_inl, ha]

theorem idles_inr {d : δ} {t : (more d).State} (h : (more d).Idles host ready t) :
    (first.bind more).Idles host ready (.inr ⟨d, t⟩) := by
  intro place store hs hr
  obtain ⟨begun, ha⟩ := h place store hs hr
  refine ⟨begun, ?_⟩
  simp only [bind, ha]
  rfl

section Both
variable {T : δ → γ → Prop} {S : first.State → second.State → Prop}
  {U : ∀ d c, (more d).State → (next c).State → Prop}

/-- An advance of the second parts, after results in a relation. -/
theorem abreast_second {d : δ} {c : γ} {state' : Option (more d).State}
    {state : Option (next c).State} {other store : Store}
    (hU : Tracking host ready (more d) (next c) R (U d c)) (hT : T d c)
    (hrel : Option.Rel (U d c) state' state) (hs : other.Alike host store)
    (hle : ∀ id, store.isReady host id = true → ready id = true) (place : Place) (news' news : Bool) :
    Abreast host (store.isReady host) R
      (fun s' s => BothAt S T U s' s ∧ (first.bind more).Idles host (store.isReady host) s' ∧
        (second.bind next).Idles host (store.isReady host) s)
      (((more d).advance place state' other).within (.inr ⟨d, ·⟩) news')
      (((next c).advance place state store).within (.inr ⟨c, ·⟩) news) := by
  refine (hU.advance place hrel hs hle).within ?_ news' news
  exact fun t' t ht => ⟨.second hT ht.1, idles_inr ht.2.1, idles_inr ht.2.2⟩

/-- An advance of the first parts, and of the second parts in the same turn if they have ended. -/
theorem abreast_first {state' : Option first.State} {state : Option second.State}
    {other store : Store} (hS : Tracking host ready first second T S)
    (hU : ∀ d c, T d c → Tracking host ready (more d) (next c) R (U d c))
    (hrel : Option.Rel S state' state) (hs : other.Alike host store)
    (hle : ∀ id, store.isReady host id = true → ready id = true) (place : Place) :
    Abreast host (store.isReady host) R
      (fun s' s => BothAt S T U s' s ∧ (first.bind more).Idles host (store.isReady host) s' ∧
        (second.bind next).Idles host (store.isReady host) s)
      ((first.bind more).advance place (state'.map .inl) other)
      ((second.bind next).advance place (state.map .inl) store) := by
  have ha := hS.advance place hrel hs hle
  rw [Lawful.advance_bind_inl, Lawful.advance_bind_inl]
  generalize first.advance place state' other = ahead at ha
  generalize second.advance place state store = behind at ha
  cases ha with
  | exhausted => exact .exhausted
  | ok hT hr hs =>
    rw [← hr] at hle ⊢
    exact abreast_second (hU _ _ hT) hT .none hs hle place _ _
  | failed error hr hs => exact .failed error hr hs
  | waiting h hr hs => exact .waiting ⟨.first h.1, idles_inl h.2.1, idles_inl h.2.2⟩ hr hs

theorem Tracking.bind (hS : Tracking host ready first second T S)
    (hU : ∀ d c, T d c → Tracking host ready (more d) (next c) R (U d c)) :
    Tracking host ready (first.bind more) (second.bind next) R (BothAt S T U) where
  hear path s' s h := by
    cases h with
    | first h => exact .first (hS.hear path h)
    | second hT h => exact .second hT ((hU _ _ hT).hear path h)
  leave h hs := by
    cases h with
    | first h => exact hS.leave h hs
    | second hT h => exact (hU _ _ hT).leave h hs
  advance place _ _ _ _ hrel hs hle := by
    cases hrel with
    | none => exact abreast_first hS hU .none hs hle place
    | some h =>
      cases h with
      | first h => exact abreast_first hS hU (.some h) hs hle place
      | second hT h => exact abreast_second (hU _ _ hT) hT (.some h) hs hle place _ _

end Both

theorem Tracks.bind {T : δ → γ → Prop} (h : Tracks host ready first second T)
    (hnext : ∀ d c, T d c → Tracks host ready (more d) (next c) R) :
    Tracks host ready (first.bind more) (second.bind next) R := by
  obtain ⟨S, hS⟩ := h
  have hU : ∀ d c, ∃ U, T d c → Tracking host ready (more d) (next c) R U := by
    intro d c
    by_cases hT : T d c
    · obtain ⟨U, hU⟩ := hnext d c hT
      exact ⟨U, fun _ => hU⟩
    · exact ⟨fun _ _ => True, fun hT' => absurd hT' hT⟩
  choose U hU using hU
  exact ⟨BothAt S T U, hS.bind hU⟩

end Bind

section Ends
variable {first : Process δ} {more : δ → Process β} {second : Process α} {B : δ → Prop}

/-- The first advance of a process ends it, and does nothing that tells. -/
def Ends (host : Host) (first : Process δ) (B : δ → Prop) : Prop :=
  ∀ place {other store : Store}, other.Alike host store → ∃ d news after,
    first.advance place none other = ⟨.ended (.ok d), news, after⟩ ∧ B d ∧ after.Alike host store

theorem ends_ended {d : δ} (h : B d) : (ended (.ok d)).Ends host B :=
  fun _ _ _ hs => ⟨d, false, _, rfl, h, hs⟩

theorem ends_value {id : PendingId} {v : Value} (hm : (host.pending id).manual = false)
    (hr : (host.pending id).result = .ok v) : (value host id).Ends host (· = v) := by
  intro place other store hs
  have hready : other.isReady host id = true := by simp [Store.isReady, hm]
  obtain ⟨news, ha⟩ := advance_value_of_ready hready place none
  refine ⟨v, news, asked id other, hr ▸ ha, rfl, ?_⟩
  exact alike_asked_left hs hm

theorem Ends.bind {B' : β → Prop} (h : first.Ends host B)
    (hmore : ∀ d, B d → (more d).Ends host B') : (first.bind more).Ends host B' := by
  intro place other store hs
  obtain ⟨d, news, after, ha, hB, hafter⟩ := h place hs
  obtain ⟨b, later, last, hb, hB', hlast⟩ := hmore d hB place hafter
  refine ⟨b, news || later, last, ?_, hB', hlast⟩
  rw [bind_advance_of_ok ha, hb]
  rfl

theorem Swift.after (h : first.Ends host B)
    (hmore : ∀ d, B d → Swift host ready (more d) second R) :
    Swift host ready (first.bind more) second R := by
  intro place other store hs hle
  obtain ⟨d, news, after, ha, hB, hafter⟩ := h place hs
  rw [bind_advance_of_ok ha]
  exact (hmore d hB place hafter hle).within_left (fun _ _ => False.elim) news

/-- What ends at once has passed when the second process has its first advance. -/
theorem Tracks.after (h : first.Ends host B)
    (hmore : ∀ d, B d → Tracks host ready (more d) second R) :
    Tracks host ready (first.bind more) second R := by
  have hU : ∀ d, ∃ U, B d → Tracking host ready (more d) second R U := by
    intro d
    by_cases hB : B d
    · obtain ⟨U, hU⟩ := hmore d hB
      exact ⟨U, fun _ => hU⟩
    · exact ⟨fun _ _ => True, fun hB' => absurd hB' hB⟩
  choose U hU using hU
  refine ⟨fun s' s => ∃ d t, B d ∧ s' = .inr ⟨d, t⟩ ∧ U d t s, ⟨?_, ?_, ?_⟩⟩
  · rintro path _ s ⟨d, t, hB, rfl, h⟩
    exact ⟨d, _, hB, rfl, (hU d hB).hear path h⟩
  · rintro _ s other store ⟨d, t, hB, rfl, h⟩ hs
    exact (hU d hB).leave h hs
  · intro place state' state other store hrel hs hle
    cases hrel with
    | none =>
      obtain ⟨d, news, after, ha, hB, hafter⟩ := h place hs
      rw [bind_advance_of_ok ha]
      refine ((hU d hB).advance place .none hafter hle).within_left ?_ news
      exact fun t s ht => ⟨⟨d, t, hB, rfl, ht.1⟩, idles_inr ht.2.1, ht.2.2⟩
    | some h =>
      obtain ⟨d, t, hB, rfl, h⟩ := h
      refine ((hU d hB).advance place (.some h) hs hle).within_left ?_ false
      exact fun t s ht => ⟨⟨d, t, hB, rfl, ht.1⟩, idles_inr ht.2.1, ht.2.2⟩

end Ends

end Process
end Stencil
