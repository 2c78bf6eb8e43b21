import Stencil.Proofs.Direct.Process
import Stencil.Proofs.Process.Tracks

/-!
# Joins in step

A sweep tracks another whose members its own members track. Where each member ends at once a join does
so too, however many there are. So the process of a plan tracks that of the plan it sheds to, as long
as the second comes to no large join.
-/

namespace Stencil

variable {host : Host}

namespace Process

variable {δ γ β α : Type} {count : Nat} {ready : PendingId → Bool}

section Ends
variable {members : Fin count → Process δ} {B : Fin count → δ → Prop} {other store : Store}

/-- A pass over members that all end at once. -/
theorem pass_ends (h : ∀ i, (members i).Ends host (B i)) (place : Place) (is : List (Fin count))
    (hs : other.Alike host store) : ∃ ds news after,
      Sweep.pass place (is.map fun i => (.inr ⟨i, none⟩ : Sweep.Entry members)) other =
        ⟨ds.map .inl, none, news, after⟩ ∧ List.Forall₂ B is ds ∧ after.Alike host store := by
  induction is generalizing other with
  | nil => exact ⟨[], false, other, rfl, .nil, hs⟩
  | cons i is ih =>
    obtain ⟨d, news, after, ha, hB, hafter⟩ := h i (i :: place) hs
    obtain ⟨ds, later, last, hpass, hBs, hlast⟩ := ih hafter
    refine ⟨d :: ds, news || later, last, ?_, .cons hB hBs, hlast⟩
    simp only [List.map_cons, Sweep.pass, ha, hpass]
    rfl

theorem ends_sweep (h : ∀ i, (members i).Ends host (B i)) :
    (sweep members).Ends host (List.Forall₂ B (List.finRange count)) := by
  intro place other store hs
  obtain ⟨ds, news, after, hpass, hB, hafter⟩ := pass_ends h place (List.finRange count) hs
  refine ⟨ds, news, after, ?_, hB, hafter⟩
  simp only [sweep, Option.getD_none, Sweep.fresh, hpass, mapM_getLeft?_inl]

/-- Each member in the queue has one turn, and ends. -/
theorem stretches_ends (h : ∀ i, (members i).Ends host (B i)) (place : Place)
    (is : List (Fin count)) {queue : Queue members} (news : Bool) (hq : Unwaited is queue)
    (hs : other.Alike host store) : ∃ ds later after,
      Queue.stretches place is.length queue news other =
        ⟨.ended (.ok (queue.results.delivered.toList ++ ds)), later, after⟩ ∧
      List.Forall₂ B is ds ∧ after.Alike host store := by
  induction is generalizing queue news other with
  | nil => exact ⟨[], news, other, by simp [Queue.stretches], .nil, hs⟩
  | cons i is ih =>
    obtain ⟨rest, hnext, -, -, hok⟩ := hq.next?
    obtain ⟨d, turn, after, ha, hB, hafter⟩ := h i (i :: place) hs
    obtain ⟨results, hput, hdelivered, hrest⟩ := hok d
    obtain ⟨ds, later, last, hstretches, hBs, hlast⟩ := ih (news || turn) hrest hafter
    refine ⟨d :: ds, later, last, ?_, .cons hB hBs, hlast⟩
    simp only [List.length_cons, Queue.stretches, Queue.stretch, Queue.patience, hnext, ha, hput,
      hstretches, hdelivered]
    simp

theorem ends_queue (h : ∀ i, (members i).Ends host (B i)) :
    (Process.queue members).Ends host (List.Forall₂ B (List.finRange count)) := by
  intro place other store hs
  have hmissing : (Queue.start members).results.missing = (List.finRange count).length := by
    simp [Queue.start, Results.missing_empty]
  obtain ⟨ds, later, after, hstretches, hB, hafter⟩ :=
    stretches_ends h place (List.finRange count) false (unwaited_start members) hs
  refine ⟨ds, later, after, ?_, hB, hafter⟩
  simp only [Process.queue, Option.getD_none, hmissing, hstretches]
  rfl

theorem ends_join (h : ∀ i, (members i).Ends host (B i)) :
    (join members).Ends host (List.Forall₂ B (List.finRange count)) := by
  by_cases hc : count ≤ sweepLimit
  · rw [join_of_le hc]
    exact ends_sweep h
  · rw [join_of_lt (Nat.not_le.1 hc)]
    exact ends_queue h

end Ends

/-- Lists of the same length, item by item in relations that depend on a third list. -/
inductive Along {ι ξ υ : Type*} (P : ι → ξ → υ → Prop) : List ι → List ξ → List υ → Prop
  | nil : Along P [] [] []
  | cons {i : ι} {x : ξ} {y : υ} {is : List ι} {xs : List ξ} {ys : List υ} (h : P i x y)
    (hs : Along P is xs ys) : Along P (i :: is) (x :: xs) (y :: ys)

namespace Along

variable {ι ξ υ ξ' υ' : Type*} {P : ι → ξ → υ → Prop} {Q : ι → ξ' → υ' → Prop} {is : List ι}
  {xs : List ξ} {ys : List υ}

theorem map (h : Along P is xs ys) {f : ξ → ξ'} {g : υ → υ'}
    (hfg : ∀ i x y, P i x y → Q i (f x) (g y)) : Along Q is (xs.map f) (ys.map g) := by
  induction h with
  | nil => exact .nil
  | cons h _ ih => exact .cons (hfg _ _ _ h) ih

theorem imp {Q : ι → ξ → υ → Prop} (h : Along P is xs ys) (hPQ : ∀ i x y, P i x y → Q i x y) :
    Along Q is xs ys := by
  simpa using h.map (f := id) (g := id) hPQ

theorem forall₂ {R : ξ → υ → Prop} (h : Along P is xs ys) (hR : ∀ i x y, P i x y → R x y) :
    List.Forall₂ R xs ys := by
  induction h with
  | nil => exact .nil
  | cons h _ ih => exact .cons (hR _ _ _ h) ih

theorem forall₂_right {R : ι → υ → Prop} (h : Along P is xs ys) (hR : ∀ i x y, P i x y → R i y) :
    List.Forall₂ R is ys := by
  induction h with
  | nil => exact .nil
  | cons h _ ih => exact .cons (hR _ _ _ h) ih

end Along

section Sweep
variable {first : Fin count → Process δ} {second : Fin count → Process γ}
  {T : Fin count → δ → γ → Prop} {S : ∀ i, (first i).State → (second i).State → Prop}

/-- Two entries of the same member: two results, or two states. -/
inductive EntryAt (T : Fin count → δ → γ → Prop) (S : ∀ i, (first i).State → (second i).State → Prop)
    (i : Fin count) : Sweep.Entry first → Sweep.Entry second → Prop
  | result {d : δ} {c : γ} (h : T i d c) : EntryAt T S i (.inl d) (.inl c)
  | member {s' : Option (first i).State} {s : Option (second i).State} (h : Option.Rel (S i) s' s) :
    EntryAt T S i (.inr ⟨i, s'⟩) (.inr ⟨i, s⟩)

/-- Two entries of the same member after it has been passed, with states from which nothing comes
about. -/
inductive PassedAt (host : Host) (ready : PendingId → Bool) (T : Fin count → δ → γ → Prop)
    (S : ∀ i, (first i).State → (second i).State → Prop) (i : Fin count) :
    Sweep.Entry first → Sweep.Entry second → Prop
  | result {d : δ} {c : γ} (h : T i d c) : PassedAt host ready T S i (.inl d) (.inl c)
  | member {s' : (first i).State} {s : (second i).State} (h : S i s' s)
    (hs' : (first i).Idles host ready s') (hs : (second i).Idles host ready s) :
    PassedAt host ready T S i (.inr ⟨i, some s'⟩) (.inr ⟨i, some s⟩)

theorem PassedAt.entryAt {i : Fin count} {entry' : Sweep.Entry first} {entry : Sweep.Entry second}
    (h : PassedAt host ready T S i entry' entry) : EntryAt T S i entry' entry := by
  cases h with
  | result h => exact .result h
  | member h => exact .member (.some h)

/-- Two passes that get equally far. -/
inductive PassAt (host : Host) (ready : PendingId → Bool) (T : Fin count → δ → γ → Prop)
    (S : ∀ i, (first i).State → (second i).State → Prop) (is : List (Fin count)) :
    Sweep.Pass first → Sweep.Pass second → Prop
  | exhausted {pass' : Sweep.Pass first} {entries : List (Sweep.Entry second)} {news : Bool}
    {store : Store} : PassAt host ready T S is pass' ⟨entries, some .exhausted, news, store⟩
  | failed (error : Error) {entries' : List (Sweep.Entry first)} {entries : List (Sweep.Entry second)}
    {news' news : Bool} {other store : Store}
    (h : List.Forall₂ (fun entry' entry => ∃ i, EntryAt T S i entry' entry) entries' entries)
    (hr : store.isReady host = ready) (alike : other.Alike host store) :
    PassAt host ready T S is ⟨entries', some (.failed error), news', other⟩
      ⟨entries, some (.failed error), news, store⟩
  | through {entries' : List (Sweep.Entry first)} {entries : List (Sweep.Entry second)}
    {news' news : Bool} {other store : Store} (h : Along (PassedAt host ready T S) is entries' entries)
    (hr : store.isReady host = ready) (alike : other.Alike host store) :
    PassAt host ready T S is ⟨entries', none, news', other⟩ ⟨entries, none, news, store⟩

theorem PassAt.after {i : Fin count} {is : List (Fin count)} {pass' : Sweep.Pass first}
    {pass : Sweep.Pass second} {entry' : Sweep.Entry first} {entry : Sweep.Entry second}
    (h : PassAt host ready T S is pass' pass) (he : PassedAt host ready T S i entry' entry)
    (news' news : Bool) :
    PassAt host ready T S (i :: is) (pass'.after entry' news') (pass.after entry news) := by
  cases h with
  | exhausted => exact .exhausted
  | failed error h hr hs => exact .failed error (.cons ⟨i, he.entryAt⟩ h) hr hs
  | through h hr hs => exact .through (.cons he h) hr hs

/-- By induction on the members: one that fails or reaches its bound does so in both passes. -/
theorem pass_at (hS : ∀ i, Tracking host ready (first i) (second i) (T i) (S i)) (place : Place)
    {is : List (Fin count)} {entries' : List (Sweep.Entry first)} {entries : List (Sweep.Entry second)}
    (h : Along (EntryAt T S) is entries' entries) {other store : Store} (hs : other.Alike host store)
    (hle : ∀ id, store.isReady host id = true → ready id = true) :
    PassAt host (store.isReady host) T S is (Sweep.pass place entries' other)
      (Sweep.pass place entries store) := by
  induction h generalizing other store with
  | nil => exact .through .nil rfl hs
  | @cons i _ _ _ _ _ he hrest ih =>
    cases he with
    | result h => exact (ih hs hle).after (.result h) false false
    | member h =>
      have ha := (hS i).advance (i :: place) h hs hle
      simp only [Sweep.pass]
      generalize (first i).advance (i :: place) _ other = ahead at ha
      generalize (second i).advance (i :: place) _ store = behind at ha
      cases ha with
      | exhausted => exact .exhausted
      | failed error hr hs => exact .failed error (hrest.forall₂ fun i _ _ he => ⟨i, he⟩) hr hs
      | ok hT hr hs =>
        rw [← hr] at hle ⊢
        exact (ih hs hle).after (.result hT) _ _
      | waiting h hr hs =>
        rw [← hr] at hle h ⊢
        exact (ih hs hle).after (.member h.1 h.2.1 h.2.2) _ _

theorem leaveAll_alike (hS : ∀ i, Tracking host ready (first i) (second i) (T i) (S i))
    {entries' : List (Sweep.Entry first)} {entries : List (Sweep.Entry second)}
    (h : List.Forall₂ (fun entry' entry => ∃ i, EntryAt T S i entry' entry) entries' entries)
    {other store : Store} (hs : other.Alike host store) :
    (leaveAll first (Sweep.live entries') other).Alike host
        (leaveAll second (Sweep.live entries) store) ∧
      (leaveAll second (Sweep.live entries) store).isReady host = store.isReady host := by
  induction h generalizing other store with
  | nil => exact ⟨hs, rfl⟩
  | cons he _ ih =>
    obtain ⟨i, he⟩ := he
    cases he with
    | result => exact ih hs
    | member h =>
      cases h with
      | none => exact ih hs
      | some h =>
        obtain ⟨hleft, hr⟩ := (hS i).leave h hs
        obtain ⟨hall, hr'⟩ := ih hleft
        exact ⟨hall, hr'.trans hr⟩

theorem along_fresh (first : Fin count → Process δ) (second : Fin count → Process γ)
    (T : Fin count → δ → γ → Prop) (S : ∀ i, (first i).State → (second i).State → Prop)
    (is : List (Fin count)) : Along (EntryAt T S) is
      (is.map fun i => (.inr ⟨i, none⟩ : Sweep.Entry first))
      (is.map fun i => (.inr ⟨i, none⟩ : Sweep.Entry second)) := by
  induction is with
  | nil => exact .nil
  | cons i is ih => exact .cons (.member .none) ih

/-- Either all have their results in both passes, or in neither. -/
theorem results_of_passed {is : List (Fin count)} {entries' : List (Sweep.Entry first)}
    {entries : List (Sweep.Entry second)} (h : Along (PassedAt host ready T S) is entries' entries) :
    (∃ ds cs, entries'.mapM Sum.getLeft? = some ds ∧ entries.mapM Sum.getLeft? = some cs ∧
      Along T is ds cs) ∨
    (entries'.mapM Sum.getLeft? = none ∧ entries.mapM Sum.getLeft? = none) := by
  induction h with
  | nil => exact .inl ⟨[], [], rfl, rfl, .nil⟩
  | cons he _ ih =>
    cases he with
    | member => exact .inr ⟨rfl, rfl⟩
    | result hT =>
      rcases ih with ⟨ds, cs, hds, hcs, hall⟩ | ⟨hds, hcs⟩
      · exact .inl ⟨_ :: ds, _ :: cs, by simp [hds], by simp [hcs], .cons hT hall⟩
      · exact .inr ⟨by simp [hds], by simp [hcs]⟩

section Idle
variable {members : Fin count → Process β}

/-- A result, or a state from which nothing comes about. -/
inductive IdleEntry (host : Host) (ready : PendingId → Bool) : Sweep.Entry members → Prop
  | result (b : β) : IdleEntry host ready (.inl b)
  | member {i : Fin count} {s : (members i).State} (h : (members i).Idles host ready s) :
    IdleEntry host ready (.inr ⟨i, some s⟩)

theorem pass_idle {entries : List (Sweep.Entry members)}
    (h : ∀ entry ∈ entries, IdleEntry host ready entry) (place : Place) {store : Store}
    (hs : store.Tidy host) (hr : store.isReady host = ready) :
    ∃ begun, Sweep.pass place entries store = ⟨entries, none, false, { store with begun }⟩ := by
  induction entries generalizing store with
  | nil => exact ⟨store.begun, rfl⟩
  | cons entry entries ih =>
    rw [List.forall_mem_cons] at h
    cases h.1 with
    | result b =>
      obtain ⟨begun, hpass⟩ := ih h.2 hs hr
      exact ⟨begun, by simp only [Sweep.pass, hpass]; rfl⟩
    | @member i s hi =>
      obtain ⟨turn, ha⟩ := hi (i :: place) store hs hr
      obtain ⟨begun, hpass⟩ := ih h.2 (hs.begun turn) hr
      exact ⟨begun, by simp only [Sweep.pass, ha, hpass]; rfl⟩

theorem idles_sweep {entries : List (Sweep.Entry members)}
    (h : ∀ entry ∈ entries, IdleEntry host ready entry)
    (hwaits : entries.mapM Sum.getLeft? = none) : (sweep members).Idles host ready entries := by
  intro place store hs hr
  obtain ⟨begun, hpass⟩ := pass_idle h place hs hr
  exact ⟨begun, by simp only [sweep, Option.getD_some, hpass, hwaits]⟩

end Idle

theorem idles_of_passed {is : List (Fin count)} {entries' : List (Sweep.Entry first)}
    {entries : List (Sweep.Entry second)} (h : Along (PassedAt host ready T S) is entries' entries)
    (hwaits' : entries'.mapM Sum.getLeft? = none) (hwaits : entries.mapM Sum.getLeft? = none) :
    (sweep first).Idles host ready entries' ∧ (sweep second).Idles host ready entries := by
  have hboth : ∀ entry' entry, (∃ i, PassedAt host ready T S i entry' entry) →
      IdleEntry host ready entry' ∧ IdleEntry host ready entry := by
    rintro entry' entry ⟨i, hp⟩
    cases hp with
    | result => exact ⟨.result _, .result _⟩
    | member _ hs' hs => exact ⟨.member hs', .member hs⟩
  have hall := h.forall₂ (R := fun entry' entry => ∃ i, PassedAt host ready T S i entry' entry)
    fun i _ _ hp => ⟨i, hp⟩
  refine ⟨idles_sweep (fun entry' he => ?_) hwaits', idles_sweep (fun entry he => ?_) hwaits⟩
  · obtain ⟨entry, -, hp⟩ := exists_of_mem_of_forall₂ hall he
    exact (hboth _ _ hp).1
  · obtain ⟨entry', -, hp⟩ := exists_of_mem_of_forall₂ hall.flip he
    exact (hboth _ _ hp).2

theorem EntryAt.hear (hS : ∀ i, Tracking host ready (first i) (second i) (T i) (S i)) {i : Fin count}
    {s' : Option (first i).State} {s : Option (second i).State} (h : Option.Rel (S i) s' s)
    (number : Nat) (path : List Nat) : EntryAt T S i
      (.inr ⟨i, if i = number then s'.map ((first i).hear path) else s'⟩)
      (.inr ⟨i, if i = number then s.map ((second i).hear path) else s⟩) := by
  by_cases hi : (i : Nat) = number
  · rw [if_pos hi, if_pos hi]
    cases h with
    | none => exact .member .none
    | some h => exact .member (.some ((hS i).hear path h))
  · rw [if_neg hi, if_neg hi]
    exact .member h

/-- What an advance of a sweep comes to after its pass. -/
theorem advance_sweep {members : Fin count → Process β} {place : Place}
    {state : Option (List (Sweep.Entry members))} {store : Store} {pass : Sweep.Pass members}
    (h : Sweep.pass place (state.getD (Sweep.fresh members)) store = pass) :
    (sweep members).advance place state store =
      match pass.halt with
      | some .exhausted => ⟨.exhausted, pass.news, pass.store⟩
      | some (.failed error) =>
        ⟨.ended (.error error), pass.news, leaveAll members (Sweep.live pass.entries) pass.store⟩
      | none =>
        match pass.entries.mapM Sum.getLeft? with
        | some results => ⟨.ended (.ok results), pass.news, pass.store⟩
        | none => ⟨.waiting pass.entries, pass.news, pass.store⟩ := by
  subst h
  rfl

/-- Two sweeps get equally far, with all their results or with states from which nothing comes
about. -/
theorem sweep_at (hS : ∀ i, Tracking host ready (first i) (second i) (T i) (S i)) (place : Place)
    (state' : Option (List (Sweep.Entry first))) (state : Option (List (Sweep.Entry second)))
    (hentries : Along (EntryAt T S) (List.finRange count) (state'.getD (Sweep.fresh first))
      (state.getD (Sweep.fresh second))) {other store : Store} (hs : other.Alike host store)
    (hle : ∀ id, store.isReady host id = true → ready id = true) :
    Abreast host (store.isReady host) (Along T (List.finRange count))
      (fun entries' entries =>
        Along (PassedAt host (store.isReady host) T S) (List.finRange count) entries' entries ∧
          entries'.mapM Sum.getLeft? = none ∧ entries.mapM Sum.getLeft? = none)
      ((sweep first).advance place state' other) ((sweep second).advance place state store) := by
  have hpass := pass_at hS place hentries hs hle
  obtain ⟨pass', hfirst⟩ : ∃ pass', Sweep.pass place (state'.getD (Sweep.fresh first)) other = pass' :=
    ⟨_, rfl⟩
  obtain ⟨pass, hsecond⟩ : ∃ pass, Sweep.pass place (state.getD (Sweep.fresh second)) store = pass :=
    ⟨_, rfl⟩
  have hahead := advance_sweep hfirst
  have hbehind := advance_sweep hsecond
  rw [hfirst, hsecond] at hpass
  rw [hahead, hbehind]
  cases hpass with
  | exhausted => exact .exhausted
  | failed error h hr hs =>
    obtain ⟨hleft, hr'⟩ := leaveAll_alike hS h hs
    exact .failed error (hr'.trans hr) hleft
  | through h hr hs =>
    rcases results_of_passed h with ⟨ds, cs, hds, hcs, hall⟩ | ⟨hds, hcs⟩
    · simp only [hds, hcs]
      exact .ok hall hr hs
    · simp only [hds, hcs]
      exact .waiting ⟨h, hds, hcs⟩ hr hs

theorem tracks_sweep (h : ∀ i, Tracks host ready (first i) (second i) (T i)) :
    Tracks host ready (sweep first) (sweep second) (Along T (List.finRange count)) := by
  choose S hS using h
  refine ⟨fun entries' entries => Along (EntryAt T S) (List.finRange count) entries' entries,
    ⟨?_, ?_, ?_⟩⟩
  · intro path entries' entries h
    cases path with
    | nil => exact h
    | cons number path =>
      refine h.map fun i entry' entry he => ?_
      cases he with
      | result hT => exact .result hT
      | member h => exact EntryAt.hear hS h number path
  · intro entries' entries other store h hs
    exact leaveAll_alike hS (h.forall₂ fun i _ _ he => ⟨i, he⟩) hs
  · intro place state' state other store hrel hs hle
    have hentries : Along (EntryAt T S) (List.finRange count)
        (state'.getD (Sweep.fresh first)) (state.getD (Sweep.fresh second)) := by
      cases hrel with
      | none => exact along_fresh first second T S (List.finRange count)
      | some h => exact h
    refine (sweep_at hS place state' state hentries hs hle).imp ?_
    rintro entries' entries ⟨h, hds, hcs⟩
    exact ⟨h.imp fun _ _ _ => PassedAt.entryAt, idles_of_passed h hds hcs⟩

/-- Where no member ever waits, all have their results after a pass. -/
theorem results_of_never {is : List (Fin count)} {entries' : List (Sweep.Entry first)}
    {entries : List (Sweep.Entry second)}
    (h : Along (PassedAt host ready T fun _ _ _ => False) is entries' entries) :
    ∃ ds, entries'.mapM Sum.getLeft? = some ds := by
  induction h with
  | nil => exact ⟨[], rfl⟩
  | cons he _ ih =>
    obtain ⟨ds, hds⟩ := ih
    cases he with
    | @result d _ _ => exact ⟨d :: ds, by simp [hds]⟩
    | member h => exact h.elim

theorem swift_sweep (h : ∀ i, Swift host ready (first i) (second i) (T i)) :
    Swift host ready (sweep first) (sweep second) (Along T (List.finRange count)) := by
  intro place other store hs hle
  have hS : ∀ i, Tracking host ready (first i) (second i) (T i) fun _ _ => False :=
    fun i => (h i).tracking
  have hentries := along_fresh first second T (fun _ _ _ => False) (List.finRange count)
  refine (sweep_at hS place none none hentries hs hle).imp ?_
  rintro entries' entries ⟨hpassed, hnone, -⟩
  obtain ⟨ds, hds⟩ := results_of_never hpassed
  rw [hds] at hnone
  cases hnone

/-- The members of both in their order, each with one turn that ends it. -/
theorem stretches_swift (h : ∀ i, Swift host ready (first i) (second i) (T i)) (place : Place)
    (is : List (Fin count)) {queue' : Queue first} {queue : Queue second} (news' news : Bool)
    (hq' : Unwaited is queue') (hq : Unwaited is queue)
    {other store : Store} (hs : other.Alike host store)
    (hle : ∀ id, store.isReady host id = true → ready id = true) :
    Abreast host (store.isReady host)
      (fun ds cs => ∃ ds' cs', ds = queue'.results.delivered.toList ++ ds' ∧
        cs = queue.results.delivered.toList ++ cs' ∧ Along T is ds' cs') (fun _ _ => False)
      (Queue.stretches place is.length queue' news' other)
      (Queue.stretches place is.length queue news store) := by
  induction is generalizing queue' queue news' news other store with
  | nil => exact .ok ⟨[], [], by simp, by simp, .nil⟩ rfl hs
  | cons i is ih =>
    obtain ⟨rest', hnext', hlive', herror', hok'⟩ := hq'.next?
    obtain ⟨rest, hnext, hlive, herror, hok⟩ := hq.next?
    have ha := h i (i :: place) hs hle
    simp only [List.length_cons, Queue.stretches, Queue.stretch, Queue.patience, hnext', hnext]
    generalize (first i).advance (i :: place) none other = ahead at ha
    generalize (second i).advance (i :: place) none store = behind at ha
    cases ha with
    | exhausted => exact .exhausted
    | failed error hr hs =>
      simp only [herror', herror, hlive', hlive]
      exact .failed error hr hs
    | @ok d c _ _ _ _ hT hr hs =>
      obtain ⟨results', hput', hdelivered', hrest'⟩ := hok' d
      obtain ⟨results, hput, hdelivered, hrest⟩ := hok c
      simp only [hput', hput]
      rw [← hr] at hle ⊢
      refine (ih _ _ hrest' hrest hs hle).results ?_
      rintro ds cs ⟨ds', cs', rfl, rfl, hall⟩
      exact ⟨d :: ds', c :: cs', by simp [hdelivered'], by simp [hdelivered], .cons hT hall⟩
    | waiting h => exact h.elim

theorem swift_queue (h : ∀ i, Swift host ready (first i) (second i) (T i)) :
    Swift host ready (Process.queue first) (Process.queue second) (Along T (List.finRange count)) := by
  intro place other store hs hle
  have hmissing : ∀ {ξ : Type} (members : Fin count → Process ξ),
      (Queue.start members).results.missing = (List.finRange count).length := by
    intro ξ members
    simp [Queue.start, Results.missing_empty]
  have hall := stretches_swift h place (List.finRange count) false false
    (unwaited_start first) (unwaited_start second) hs hle
  simp only [Process.queue, Option.getD_none, hmissing]
  refine hall.results ?_
  rintro ds cs ⟨ds', cs', rfl, rfl, h⟩
  exact h

theorem swift_join (h : ∀ i, Swift host ready (first i) (second i) (T i)) :
    Swift host ready (join first) (join second) (Along T (List.finRange count)) := by
  by_cases hc : count ≤ sweepLimit
  · rw [join_of_le hc, join_of_le hc]
    exact swift_sweep h
  · rw [join_of_lt (Nat.not_le.1 hc), join_of_lt (Nat.not_le.1 hc)]
    exact swift_queue h

end Sweep

end Process

namespace Plan.Sheds

open Process (Along Ends Swift Tracks)

variable {β α : Type} {R : β → α → Prop} {plan : Plan β} {other : Plan α}
  {ready : PendingId → Bool}

theorem forall₂_ofFn {δ γ : Type} {S : δ → γ → Prop} {count : Nat} {results : Fin count → γ}
    {ds : List δ} (h : List.Forall₂ (fun i d => S d (results i)) (List.finRange count) ds) :
    List.Forall₂ S ds (List.ofFn results) := by
  rw [List.ofFn_eq_map, List.forall₂_map_right_iff]
  exact h.flip

/-- What sheds to a plan that is done ends at once. -/
theorem ends {a : α} (h : Sheds host R plan (.done a)) : (plan.process host).Ends host (R · a) := by
  generalize hp : Plan.done a = other at h
  induction h with
  | done h =>
    cases hp
    exact Process.ends_ended h
  | fail | exhausted | await | compile | join => cases hp
  | @shed _ _ _ _ v _ _ hm hr _ ih =>
    refine (Process.ends_value hm hr).bind fun w hw => ?_
    subst hw
    exact ih hp
  | @shedJoin β α δ γ R S count members results more plan _ _ ihmembers ih =>
    refine (Process.ends_join fun i => ihmembers i rfl).bind fun ds hds => ?_
    exact ih ds (forall₂_ofFn hds) hp

/-- Where the second plan asks for no value that may have to wait, neither process waits. The results
are those that the prospects of the second plan tell. -/
theorem swift (h : Sheds host R plan other)
    (hm : ∀ id, other.Begins host ready id → (host.pending id).manual = false) :
    Swift host ready (plan.process host) (other.process host)
      fun b a => R b a ∧ other.result? host ready = some a := by
  induction h with
  | done h => exact Process.swift_ended ⟨h, rfl⟩
  | fail error => exact Process.swift_failed error
  | exhausted plan => exact Process.swift_exhausted _
  | @await _ _ _ id more next _ ih =>
    refine (Process.swift_value (hm id (.inl rfl))).bind fun v v' hv => ?_
    obtain ⟨rfl, hr, hready⟩ := hv
    refine (ih v hr fun other hb => hm other (.inr ⟨hready, v, hr, hb⟩)).imp fun b a hab => ?_
    exact ⟨hab.1, by simp [result?, hready, hr, hab.2]⟩
  | @compile _ _ _ source tags more next _ ih =>
    refine (Process.swift_compile source tags).bind fun nodes nodes' hn => ?_
    obtain ⟨rfl, hn⟩ := hn
    refine (ih nodes hn fun id hb => hm id ⟨nodes, hn, hb⟩).imp fun b a hab => ?_
    exact ⟨hab.1, by simp [result?, hn, hab.2]⟩
  | @join _ _ _ _ _ S count members others more next _ _ ihmembers ih =>
    have hmembers := fun i => ihmembers i fun id hb => hm id (.inl ⟨i, hb⟩)
    refine (Process.swift_join hmembers).bind fun ds cs hs => ?_
    have hresults : ((List.finRange count).mapM fun i => (others i).result? host ready) = some cs :=
      mapM_eq_some_iff.2 (hs.forall₂_right fun _ _ _ h => h.2)
    have hds : List.Forall₂ S ds cs := hs.forall₂ fun _ _ _ h => h.1
    refine (ih ds cs hds fun id hb => hm id (.inr ⟨cs, hresults, hb⟩)).imp fun b a hab => ?_
    exact ⟨hab.1, by simp [result?, hresults, hab.2]⟩
  | shed hmanual hr _ ih =>
    refine Swift.after (Process.ends_value hmanual hr) fun w hw => ?_
    subst hw
    exact ih hm
  | @shedJoin β α δ γ R S count members results more plan hmembers _ _ ih =>
    refine Swift.after (Process.ends_join fun i => (hmembers i).ends) fun ds hds => ?_
    exact ih ds (forall₂_ofFn hds) hm

/-- As long as no member of a large join asks the second plan for a value that may have to wait, the
process of the first keeps in step with its process. -/
theorem tracks (h : Sheds host R plan other) (hq : ¬ other.Stalls host ready) :
    Tracks host ready (plan.process host) (other.process host)
      fun b a => R b a ∧ other.result? host ready = some a := by
  induction h with
  | done h => exact (Process.swift_ended ⟨h, rfl⟩).tracks
  | fail error => exact (Process.swift_failed error).tracks
  | exhausted plan => exact (Process.swift_exhausted _).tracks
  | @await _ _ _ id more next _ ih =>
    refine (Process.tracks_value host ready id).bind fun v v' hv => ?_
    obtain ⟨rfl, hr, hready⟩ := hv
    refine (ih v hr fun hq' => hq ⟨hready, v, hr, hq'⟩).imp fun b a hab => ?_
    exact ⟨hab.1, by simp [result?, hready, hr, hab.2]⟩
  | @compile _ _ _ source tags more next _ ih =>
    refine (Process.swift_compile source tags).tracks.bind fun nodes nodes' hn => ?_
    obtain ⟨rfl, hn⟩ := hn
    refine (ih nodes hn fun hq' => hq ⟨nodes, hn, hq'⟩).imp fun b a hab => ?_
    exact ⟨hab.1, by simp [result?, hn, hab.2]⟩
  | @join _ _ _ _ _ S count members others more next hsheds _ ihmembers ih =>
    have hjoin : Tracks host ready (Process.join fun i => (members i).process host)
        (Process.join fun i => (others i).process host)
        (Along (fun i d c => S d c ∧ (others i).result? host ready = some c)
          (List.finRange count)) := by
      by_cases hcount : count ≤ Process.sweepLimit
      · rw [Process.join_of_le hcount, Process.join_of_le hcount]
        exact Process.tracks_sweep fun i => ihmembers i fun hq' => hq (.inr (.inl ⟨i, hq'⟩))
      · -- the members of a large join do not wait
        refine (Process.swift_join fun i => (hsheds i).swift fun id hb => ?_).tracks
        by_contra hm
        exact hq (.inl ⟨Nat.not_le.1 hcount, i, id, hb, by simpa using hm⟩)
    refine hjoin.bind fun ds cs hs => ?_
    have hresults : ((List.finRange count).mapM fun i => (others i).result? host ready) = some cs :=
      mapM_eq_some_iff.2 (hs.forall₂_right fun _ _ _ h => h.2)
    have hds : List.Forall₂ S ds cs := hs.forall₂ fun _ _ _ h => h.1
    refine (ih ds cs hds fun hq' => hq (.inr (.inr ⟨cs, hresults, hq'⟩))).imp fun b a hab => ?_
    exact ⟨hab.1, by simp [result?, hresults, hab.2]⟩
  | shed hm hr _ ih =>
    refine Tracks.after (Process.ends_value hm hr) fun w hw => ?_
    subst hw
    exact ih hq
  | @shedJoin β α δ γ R S count members results more plan hmembers _ _ ih =>
    refine Tracks.after (Process.ends_join fun i => (hmembers i).ends) fun ds hds => ?_
    exact ih ds (forall₂_ofFn hds) hq

end Plan.Sheds
end Stencil
