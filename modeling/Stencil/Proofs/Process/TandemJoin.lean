import Stencil.Proofs.Process.Orderly
import Stencil.Proofs.Process.Tandem

/-!
# Joins in tandem

A join is in tandem with another if their members are. The two pass over their members, or give them
their turns, one for one.
-/

namespace Stencil

open Journal (asksOnly_nil)

namespace Process

variable {β : Type} {count : Nat} {known : Text → Tags → Prop} {ids : PendingId → Prop}
  {first second : Fin count → Process β} {accounts : ∀ i, Account (first i)}
  {others : ∀ i, Account (second i)} {S : ∀ i, (first i).State → (second i).State → Prop}
  {place : Place} {store : Store}

section Sweep
open Sweep

namespace Sweep

/-- Two entries of one member: its result, or states that belong together. -/
inductive Paired (S : ∀ i, (first i).State → (second i).State → Prop) :
    Entry first → Entry second → Prop
  | result (result : β) : Paired S (.inl result) (.inl result)
  | member {i : Fin count} {s : Option (first i).State} {t : Option (second i).State}
    (h : Option.Rel (S i) s t) : Paired S (.inr ⟨i, s⟩) (.inr ⟨i, t⟩)

/-- Two passes that get equally far. -/
inductive Pass.Level (S : ∀ i, (first i).State → (second i).State → Prop) :
    Pass first → Pass second → Prop
  | mk {entries : List (Entry first)} {again : List (Entry second)}
    (h : List.Forall₂ (Paired S) entries again) (halt : Option Halt) (news : Bool) (store : Store) :
    Level S ⟨entries, halt, news, store⟩ ⟨again, halt, news, store⟩

theorem Pass.Level.after {pass : Pass first} {other : Pass second} {entry : Entry first}
    {again : Entry second} (h : pass.Level S other) (he : Paired S entry again) (news : Bool) :
    (pass.after entry news).Level S (other.after again news) := by
  cases h with
  | mk h => exact .mk (.cons he h) _ _ _

variable {entries : List (Entry first)} {again : List (Entry second)}

theorem pass_level (hb : ∀ i, (first i).Blind)
    (hS : ∀ i, Tandem known ids Eq (accounts i) (others i) (S i))
    (h : List.Forall₂ (Paired S) entries again) (hs : store.cache.Sound)
    (hk : (Account.pass accounts place entries store).Knows known) :
    (pass place entries store).Level S (pass place again store) ∧
      Account.pass others place again store = Account.pass accounts place entries store ∧
      (Account.pass accounts place entries store).AsksOnly ids := by
  induction h generalizing store with
  | nil => exact ⟨.mk .nil _ _ _, rfl, asksOnly_nil⟩
  | cons he hrest ih =>
    cases he with
    | result result =>
      obtain ⟨hpass, htold, hasks⟩ := ih hs hk
      exact ⟨hpass.after (.result result) false, htold, hasks⟩
    | @member i s t hst =>
      simp only [Account.pass] at hk
      obtain ⟨hlevel, htold, hasks⟩ := (hS i).advance (i :: place) hs hst hk.left
      have hsound := (hb i).sound (i :: place) s hs
      simp only [Account.pass, pass, htold]
      generalize (first i).advance (i :: place) s store = ahead at hk hlevel hsound
      generalize (second i).advance (i :: place) t store = behind at hlevel
      cases hlevel with
      | ok hr =>
        obtain ⟨hpass, hmore, hasks'⟩ := ih hsound hk.right
        exact ⟨hpass.after (hr ▸ .result _) _, congrArg _ hmore, hasks.append hasks'⟩
      | failed error => exact ⟨.mk hrest _ _ _, rfl, hasks.append asksOnly_nil⟩
      | exhausted => exact ⟨.mk hrest _ _ _, rfl, hasks.append asksOnly_nil⟩
      | waiting hst =>
        obtain ⟨hpass, hmore, hasks'⟩ := ih hsound hk.right
        exact ⟨hpass.after (.member (.some hst)) _, congrArg _ hmore, hasks.append hasks'⟩

theorem leaveAll_paired (hS : ∀ i, Tandem known ids Eq (accounts i) (others i) (S i))
    (h : List.Forall₂ (Paired S) entries again) (store : Store) :
    leaveAll second (live again) store = leaveAll first (live entries) store := by
  induction h generalizing store with
  | nil => rfl
  | cons he _ ih =>
    cases he with
    | result => exact ih store
    | member hst =>
      cases hst with
      | none => exact ih store
      | some hst =>
        change leaveAll second _ ((second _).leave _ store) =
          leaveAll first _ ((first _).leave _ store)
        rw [(hS _).leave store hst]
        exact ih _

theorem results_paired (h : List.Forall₂ (Paired S) entries again) :
    again.mapM Sum.getLeft? = entries.mapM Sum.getLeft? := by
  induction h with
  | nil => rfl
  | cons he _ ih =>
    cases he with
    | result result => simp [ih]
    | member => rfl

theorem paired_fresh (first second : Fin count → Process β)
    (S : ∀ i, (first i).State → (second i).State → Prop) :
    List.Forall₂ (Paired S) (fresh first) (fresh second) := by
  unfold fresh
  induction List.finRange count with
  | nil => exact .nil
  | cons i is ih => exact .cons (.member .none) ih

theorem paired_hear (hS : ∀ i, Tandem known ids Eq (accounts i) (others i) (S i)) (path : List Nat)
    (h : List.Forall₂ (Paired S) entries again) :
    List.Forall₂ (Paired S) (hear path entries) (hear path again) := by
  cases path with
  | nil => exact h
  | cons number path =>
    refine List.forall₂_map_left_iff.2 (List.forall₂_map_right_iff.2 (h.imp fun _ _ he => ?_))
    cases he with
    | result result => exact .result result
    | @member i _ _ hst =>
      refine .member ?_
      by_cases hi : (i : Nat) = number
      · simp only [hi, if_true]
        cases hst with
        | none => exact .none
        | some hst => exact .some ((hS i).hear path hst)
      · simp only [hi, if_false]
        exact hst

end Sweep

theorem inTandem_sweep (hb : ∀ i, (first i).Blind)
    (h : ∀ i, InTandem known ids Eq (accounts i) (others i)) :
    InTandem known ids Eq (Account.sweep accounts) (Account.sweep others) := by
  choose S hS using h
  refine ⟨List.Forall₂ (Paired S), ⟨fun path _ _ h => paired_hear hS path h,
    fun store h => leaveAll_paired hS h store, ?_⟩⟩
  intro place (entries : Option (List (Entry first))) (again : Option (List (Entry second))) store hs
    hst hk
  have hpaired : List.Forall₂ (Paired S) (entries.getD (fresh first)) (again.getD (fresh second)) := by
    cases hst with
    | none => exact paired_fresh first second S
    | some h => exact h
  have hjoin : Journal.AsksOnly ids [(place, .joins count)] := by simp [Journal.AsksOnly]
  have hknown : (Account.pass accounts place (entries.getD (fresh first)) store).Knows known :=
    fun part source tags hm => hk part source tags (List.mem_cons_of_mem _ hm)
  obtain ⟨hlevel, htold, hasks⟩ := pass_level hb hS hpaired hs hknown
  refine ⟨?_, congrArg _ htold, hjoin.append hasks⟩
  simp only [Process.sweep]
  generalize pass place (entries.getD (fresh first)) store = ahead at hlevel
  generalize pass place (again.getD (fresh second)) store = behind at hlevel
  cases hlevel with
  | mk h halt news after =>
    cases halt with
    | some halt =>
      cases halt with
      | exhausted => exact .exhausted _ _
      | failed error =>
        simp only [leaveAll_paired hS h]
        exact .failed error _ _
    | none =>
      simp only [results_paired h]
      split
      · exact .ok rfl _ _
      · exact .waiting h _ _

end Sweep

section Queue
open Queue

namespace Queue

/-- Two queues with the same turns and results, where states of those who wait belong together. -/
structure Paired (S : ∀ i, (first i).State → (second i).State → Prop) (queue : Queue first)
    (again : Queue second) : Prop where
  turns : again.turns = queue.turns
  past : again.past = queue.past
  results : again.results = queue.results
  waiting : ∀ i, Option.Rel (S i) (queue.waiting.get? i) (again.waiting.get? i)

variable {queue : Queue first} {again : Queue second}

theorem paired_start (first second : Fin count → Process β)
    (S : ∀ i, (first i).State → (second i).State → Prop) : Paired S (start first) (start second) :=
  ⟨rfl, rfl, rfl, fun _ => by simp [start]⟩

/-- It is the same member's turn in both. -/
theorem Paired.next? (h : Paired S queue again) :
    (queue.next? = none ∧ again.next? = none) ∨
    ∃ i s t rest others, queue.next? = some (⟨i, s⟩, rest) ∧ again.next? = some (⟨i, t⟩, others) ∧
      Option.Rel (S i) s t ∧ Paired S rest others := by
  unfold Queue.next?
  rw [h.turns]
  cases queue.turns.next? with
  | none => exact .inl ⟨rfl, rfl⟩
  | some turn =>
    obtain ⟨i, turns⟩ := turn
    refine .inr ⟨i, _, _, _, _, rfl, rfl, h.waiting i, rfl, h.past, h.results, fun j => ?_⟩
    by_cases hj : j = i
    · subst j
      simp
    · simpa [Std.DTreeMap.get?_erase, compare_ne_eq hj] using h.waiting j

theorem Paired.putBack (h : Paired S queue again) {i : Fin count} {s : (first i).State}
    {t : (second i).State} (hst : S i s t) (news : Bool) :
    Paired S (queue.putBack ⟨i, s⟩ news) (again.putBack ⟨i, t⟩ news) where
  turns := by simp only [Queue.putBack, h.turns]
  past := congrArg (i :: ·) h.past
  results := h.results
  waiting j := by
    by_cases hj : j = i
    · subst j
      rw [get?_waiting_putBack, get?_waiting_putBack]
      exact .some hst
    · rw [get?_waiting_putBack_of_ne hj, get?_waiting_putBack_of_ne hj]
      exact h.waiting j

theorem Paired.leaveAll (hS : ∀ i, Tandem known ids Eq (accounts i) (others i) (S i))
    (h : Paired S queue again) (store : Store) :
    leaveAll second again.live store = leaveAll first queue.live store := by
  unfold live
  rw [h.past]
  induction queue.past.eraseDups generalizing store with
  | nil => rfl
  | cons i is ih =>
    have hi := h.waiting i
    simp only [List.filterMap_cons]
    generalize queue.waiting.get? i = s at hi
    generalize again.waiting.get? i = t at hi
    cases hi with
    | none => exact ih store
    | some hst =>
      change Process.leaveAll second _ ((second _).leave _ store) =
        Process.leaveAll first _ ((first _).leave _ store)
      rw [(hS _).leave store hst]
      exact ih _

theorem Paired.mem_iff (h : Paired S queue again) (i : Fin count) :
    i ∈ again.waiting ↔ i ∈ queue.waiting := by
  rw [Std.DTreeMap.mem_iff_isSome_get?, Std.DTreeMap.mem_iff_isSome_get?]
  have hi := h.waiting i
  generalize queue.waiting.get? i = s at hi
  generalize again.waiting.get? i = t at hi
  cases hi <;> rfl

theorem Paired.hear (hS : ∀ i, Tandem known ids Eq (accounts i) (others i) (S i)) (path : List Nat)
    (h : Paired S queue again) : Paired S (queue.hear path) (again.hear path) := by
  cases path with
  | nil => exact h
  | cons number path =>
    by_cases hn : number < count
    · by_cases hi : (⟨number, hn⟩ : Fin count) ∈ queue.waiting
      · have hi' := (h.mem_iff _).2 hi
        simp only [Queue.hear, hn, hi, hi', dif_pos, if_true]
        refine ⟨by rw [h.turns], h.past, h.results, fun j => ?_⟩
        have hj := h.waiting j
        by_cases he : j = ⟨number, hn⟩
        · subst j
          simp only [Std.DTreeMap.get?_modify_self]
          generalize queue.waiting.get? ⟨number, hn⟩ = s at hj
          generalize again.waiting.get? ⟨number, hn⟩ = t at hj
          cases hj with
          | none => exact .none
          | some hst => exact .some ((hS _).hear path hst)
        · simpa [Std.DTreeMap.get?_modify, compare_ne_eq he] using hj
      · have hi' := mt (h.mem_iff _).1 hi
        simpa only [Queue.hear, hn, hi, hi', dif_pos, if_false] using h
    · simpa only [Queue.hear, hn, dif_neg, not_false_eq_true] using h

/-- One turn after the other; the accounts tell of them in this order. -/
theorem stretch_inStep (hb : ∀ i, (first i).Blind)
    (hS : ∀ i, Tandem known ids Eq (accounts i) (others i) (S i)) (turns patience : Nat) (news : Bool)
    (h : Paired S queue again) (hs : store.cache.Sound)
    (hk : (Account.stretch accounts place turns patience queue store).Knows known) :
    (stretch place turns patience queue news store).InStep ids (Paired S) (Paired S)
      (stretch place turns patience again news store)
      (Account.stretch accounts place turns patience queue store)
      (Account.stretch others place turns patience again store) := by
  induction turns generalizing patience queue again news store with
  | zero => exact ⟨.waiting h _ _, rfl, asksOnly_nil⟩
  | succ turns ih =>
    cases patience with
    | zero => exact ⟨.waiting h _ _, rfl, asksOnly_nil⟩
    | succ patience =>
      rcases h.next? with ⟨hn, hn'⟩ | ⟨i, s, t, rest, later, hn, hn', hst, hrest⟩
      · simp only [stretch, Account.stretch, hn, hn']
        exact ⟨.waiting h _ _, rfl, asksOnly_nil⟩
      simp only [Account.stretch, hn] at hk
      obtain ⟨hlevel, htold, hasks⟩ := (hS i).advance (i :: place) hs hst hk.left
      have hsound := (hb i).sound (i :: place) s hs
      simp only [stretch, Account.stretch, hn, hn', htold]
      generalize (first i).advance (i :: place) s store = ahead at hk hlevel hsound
      generalize (second i).advance (i :: place) t store = behind at hlevel
      obtain ⟨outcome, anews, after, rfl, rfl⟩ | ⟨anews, after, rfl, rfl⟩ |
        ⟨s, t, anews, after, hst, rfl, rfl⟩ := hlevel.cases_eq
      · simp only [hrest.results]
        split
        · exact ⟨.ok ⟨hrest.turns, hrest.past, rfl, hrest.waiting⟩ _ _, rfl,
            hasks.append asksOnly_nil⟩
        · rw [hrest.leaveAll hS]
          exact ⟨.failed _ _ _, rfl, hasks.append asksOnly_nil⟩
      · exact ⟨.exhausted _ _, rfl, hasks.append asksOnly_nil⟩
      · cases anews with
        | true =>
          obtain ⟨hlevel, htold, hasks'⟩ := ih patience true (hrest.putBack hst true) hsound hk.right
          exact ⟨hlevel, congrArg _ htold, hasks.append hasks'⟩
        | false =>
          obtain ⟨hlevel, htold, hasks'⟩ :=
            ih (patience + 1) news (hrest.putBack hst false) hsound hk.right
          exact ⟨hlevel, congrArg _ htold, hasks.append hasks'⟩

theorem stretches_inStep (hb : ∀ i, (first i).Blind)
    (hS : ∀ i, Tandem known ids Eq (accounts i) (others i) (S i)) (missing : Nat) (news : Bool)
    (h : Paired S queue again) (hs : store.cache.Sound)
    (hk : (Account.stretches accounts place missing queue news store).Knows known) :
    (stretches place missing queue news store).InStep ids Eq (Paired S)
      (stretches place missing again news store)
      (Account.stretches accounts place missing queue news store)
      (Account.stretches others place missing again news store) := by
  induction missing generalizing queue again news store with
  | zero =>
    simp only [stretches, Account.stretches, h.results]
    exact ⟨.ok rfl _ _, rfl, asksOnly_nil⟩
  | succ missing ih =>
    simp only [Account.stretches] at hk
    obtain ⟨hlevel, htold, hasks⟩ := stretch_inStep hb hS (missing + 1) patience news h hs hk.left
    have hsound : (stretch place (missing + 1) patience queue news store).store.cache.Sound := by
      obtain ⟨same, keys, hsame⟩ := asks_stretch hb place (missing + 1) patience queue news store
      have hadvance := hsame store.cache hs
      rw [show stretch place (missing + 1) patience queue news store = _ from hadvance]
      exact hs.fetchAll keys
    simp only [stretches, Account.stretches, htold]
    generalize stretch place (missing + 1) patience queue news store = ahead at hk hlevel hsound
    generalize stretch place (missing + 1) patience again news store = behind at hlevel
    cases hlevel with
    | ok hr =>
      obtain ⟨hlevel, htold, hasks'⟩ := ih _ hr hsound hk.right
      exact ⟨hlevel, congrArg _ htold, hasks.append hasks'⟩
    | failed error => exact ⟨.failed _ _ _, rfl, hasks.append asksOnly_nil⟩
    | exhausted => exact ⟨.exhausted _ _, rfl, hasks.append asksOnly_nil⟩
    | waiting hst => exact ⟨.waiting hst _ _, rfl, hasks.append asksOnly_nil⟩

end Queue

theorem inTandem_queue (hb : ∀ i, (first i).Blind)
    (h : ∀ i, InTandem known ids Eq (accounts i) (others i)) :
    InTandem known ids Eq (Account.queue accounts) (Account.queue others) := by
  choose S hS using h
  refine ⟨Paired S, ⟨fun path _ _ h => h.hear hS path, fun store h => h.leaveAll hS store, ?_⟩⟩
  intro place (queue : Option (Queue first)) (again : Option (Queue second)) store hs hst hk
  have hpaired : Paired S (queue.getD (.start first)) (again.getD (.start second)) := by
    cases hst with
    | none => exact paired_start first second S
    | some h => exact h
  have hjoin : Journal.AsksOnly ids [(place, .joins count)] := by simp [Journal.AsksOnly]
  have hknown : (Account.stretches accounts place (queue.getD (.start first)).results.missing
      (queue.getD (.start first)) false store).Knows known :=
    fun part source tags hm => hk part source tags (List.mem_cons_of_mem _ hm)
  obtain ⟨hlevel, htold, hasks⟩ := stretches_inStep hb hS _ false hpaired hs hknown
  simp only [Process.queue, Account.queue, hpaired.results]
  exact ⟨hlevel, congrArg _ htold, hjoin.append hasks⟩

end Queue

theorem InTandem.ite {α : Type} {R : α → α → Prop} {c : Prop} [d : Decidable c]
    {first second more next : Process α} {account : Account first} {other : Account second}
    {account' : Account more} {other' : Account next} (h : InTandem known ids R account account')
    (h' : InTandem known ids R other other') :
    InTandem known ids R (Account.ite account other : Account (if c then first else second))
      (Account.ite account' other' : Account (if c then more else next)) := by
  cases d with
  | isTrue => exact h
  | isFalse => exact h'

theorem inTandem_join (hb : ∀ i, (first i).Blind)
    (h : ∀ i, InTandem known ids Eq (accounts i) (others i)) :
    InTandem known ids Eq (Account.join accounts) (Account.join others) :=
  .ite (inTandem_sweep hb h) (inTandem_queue hb h)

end Process
end Stencil
