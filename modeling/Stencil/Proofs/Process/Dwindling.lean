import Mathlib.Algebra.BigOperators.Fin
import Mathlib.Algebra.Order.BigOperators.Group.Finset
import Stencil.Proofs.Process.WatchfulJoin

/-!
# Processes with only so much to do

A process dwindles if there is a measure of what is left to do in each of its states that no advance
raises and that every advance with news lowers. So it cannot have news more often than the measure
says, however it is taken up and left, and it reaches no bound on the way.
-/

namespace Stencil

/-- What is left to do after an advance, in a measure of the states that it can get to. -/
def Reached.remains {σ α : Type} (left : σ → Nat) : Reached σ α → Nat
  | .waiting state => left state
  | .ended _ | .exhausted => 0

/-- The advance reaches no bound and leaves no more than there was to do, and less if it has news. -/
structure Advance.Lowers {σ α : Type} (left : σ → Nat) (before : Nat) (advance : Advance σ α) :
    Prop where
  bounded : advance.reached ≠ .exhausted
  le : advance.reached.remains left ≤ before
  lt : advance.news = true → advance.reached.remains left < before

section
variable {σ α : Type} {left : σ → Nat} {before : Nat} {news : Bool} {store : Store}

/-- Nothing is left when it is over. -/
theorem Advance.lowers_ended {outcome : Except Error α} (h : news = true → 0 < before) :
    (⟨.ended outcome, news, store⟩ : Advance σ α).Lowers left before :=
  ⟨by simp, Nat.zero_le _, h⟩

theorem Advance.lowers_waiting {state : σ} (hle : left state ≤ before)
    (hlt : news = true → left state < before) :
    (⟨.waiting state, news, store⟩ : Advance σ α).Lowers left before :=
  ⟨by simp, hle, hlt⟩

end

namespace Process

variable {α β : Type} {host : Host}

/-- The measure goes down as the process is advanced, from a weight on. -/
structure Watchful.Lowers {plan : Plan α} {process : Process α} {account : Account process}
    (law : Watchful host plan account) (weight : Nat) (left : process.State → Nat) : Prop where
  left_le : ∀ {state store}, law.Stands state store → left state ≤ weight
  advance : ∀ {place state} {store : Store}, store.Sound host →
    (∀ s, state = some s → law.Rests host place s store) →
    (process.advance place state store).Lowers left (state.elim weight left)

/-- The process has at most so much to do. -/
def Watchful.Dwindles {plan : Plan α} {process : Process α} {account : Account process}
    (law : Watchful host plan account) (weight : Nat) : Prop :=
  ∃ left, law.Lowers weight left

namespace Watchful

section
variable {plan : Plan α} {process : Process α} {account : Account process}
  {law : Watchful host plan account} {weight more : Nat}

theorem Dwindles.mono (h : law.Dwindles weight) (hle : weight ≤ more) : law.Dwindles more := by
  obtain ⟨left, hl⟩ := h
  refine ⟨left, fun hs => (hl.left_le hs).trans hle, fun {place state store} hs hrest => ?_⟩
  have hadvance : (process.advance place state store).Lowers left (state.elim weight left) :=
    hl.advance hs hrest
  have hbefore : state.elim weight left ≤ state.elim more left := by
    cases state with
    | none => exact hle
    | some s => exact le_rfl
  exact ⟨hadvance.bounded, hadvance.le.trans hbefore, fun hn => (hadvance.lt hn).trans_le hbefore⟩

end

/-- What does a single thing has no news. -/
theorem dwindles_act {plan : Plan α} {action : Store → Except Error α × Store}
    {account : Account (Process.act action)} (law : Watchful host plan account) : law.Dwindles 0 :=
  ⟨Empty.elim, fun {state} => state.elim, fun _ _ => Advance.lowers_ended (by simp)⟩

/-- A value is news once at most. -/
theorem dwindles_value (id : PendingId) : (Watchful.value host id).Dwindles 1 := by
  refine ⟨fun _ => 1, fun _ => le_rfl, fun {place state store} _ _ => ?_⟩
  have hbefore : (state.elim 1 fun _ => 1) = 1 := by cases state <;> rfl
  rw [hbefore]
  simp only [Process.value]
  split
  · exact Advance.lowers_ended (by simp)
  · split
    · exact Advance.lowers_ended fun _ => Nat.zero_lt_one
    · split
      · exact Advance.lowers_waiting le_rfl (by simp)
      · exact Advance.lowers_waiting le_rfl (by simp)

section Bind
variable {plan : Plan β} {next : β → Plan α} {process : Process β} {rest : β → Process α}
  {account : Account process} {accounts : ∀ b, Account (rest b)} {law : Watchful host plan account}
  {laws : ∀ b, Watchful host (next b) (accounts b)} {weight more : Nat}
  {first : process.State → Nat} {second : ∀ b, (rest b).State → Nat}

/-- Until the first process is over, all of the second is still to do. -/
def bindLeft (more : Nat) (first : process.State → Nat) (second : ∀ b, (rest b).State → Nat) :
    (process.bind rest).State → Nat
  | .inl s => first s + more
  | .inr ⟨b, s⟩ => second b s

theorem lowers_within {b : β} {advance : Advance (rest b).State α} {news : Bool} {before own : Nat}
    (h : advance.Lowers (second b) own) (hle : own ≤ before) (hlt : news = true → own < before) :
    (advance.within (.inr ⟨b, ·⟩) news : Advance (process.bind rest).State α).Lowers
      (bindLeft more first second) before := by
  obtain ⟨reached, anews, after⟩ := advance
  have hremains : (Advance.within (.inr ⟨b, ·⟩) news ⟨reached, anews, after⟩ :
      Advance (process.bind rest).State α).reached.remains (bindLeft more first second) =
        reached.remains (second b) := by
    cases reached <;> rfl
  refine ⟨?_, hremains ▸ h.le.trans hle, fun hn => ?_⟩
  · cases reached with
    | exhausted => exact absurd rfl h.bounded
    | ended | waiting => simp [Advance.within]
  · rw [hremains]
    rcases Bool.or_eq_true_iff.1 hn with hn | hn
    · exact h.le.trans_lt (hlt hn)
    · exact (h.lt hn).trans_le hle

theorem lowers_bind_first (hfirst : law.Lowers weight first)
    (hsecond : ∀ b, plan.Gives host b → (laws b).Lowers more (second b)) {place : Place}
    {store : Store} (hs : store.Sound host) (state : Option process.State)
    (hrest : ∀ s, state = some s → law.Rests host place s store) :
    ((process.bind rest).advance place (state.map .inl) store).Lowers (bindLeft more first second)
      (state.elim weight first + more) := by
  have hadvance := hfirst.advance hs hrest
  have hreach := law.reaches hs hrest
  have hsound := (law.acts hs hrest).sound
  rw [Lawful.advance_bind_inl]
  generalize process.advance place state store = advance at hadvance hreach hsound
  generalize account.tell place state store = told at hreach
  generalize state.elim weight first = before at hadvance
  obtain ⟨reached, news, after⟩ := advance
  cases reached with
  | ended outcome =>
    have hlt : news = true → more < before + more := fun hn =>
      Nat.lt_add_of_pos_left (hadvance.lt hn)
    cases outcome with
    | ok b =>
      exact lowers_within ((hsecond b hreach.1).advance hsound (by simp)) (Nat.le_add_left ..) hlt
    | error error => exact Advance.lowers_ended fun hn => (Nat.zero_le _).trans_lt (hlt hn)
  | exhausted => exact absurd rfl hadvance.bounded
  | waiting s =>
    exact Advance.lowers_waiting (Nat.add_le_add_right hadvance.le more)
      fun hn => Nat.add_lt_add_right (hadvance.lt hn) more

/-- What a process has to do and what follows has to do, together. -/
theorem Dwindles.bind (hfirst : law.Dwindles weight)
    (hsecond : ∀ b, plan.Gives host b → (laws b).Dwindles more) :
    (law.bind laws).Dwindles (weight + more) := by
  obtain ⟨first, hfirst⟩ := hfirst
  choose! second hsecond using hsecond
  refine ⟨bindLeft more first second, fun {state store} hstands => ?_,
    fun {place state store} hs hrest => ?_⟩
  · rcases state with s | ⟨b, s⟩
    · exact Nat.add_le_add_right (hfirst.left_le hstands) more
    · exact ((hsecond b hstands.1).left_le hstands.2).trans (Nat.le_add_left ..)
  · rcases state with _ | s | ⟨b, s⟩
    · exact lowers_bind_first hfirst hsecond hs none (by simp)
    · refine lowers_bind_first hfirst hsecond hs (some s) ?_
      rintro _ ⟨⟩
      exact Watch.rests_inl.1 (hrest _ rfl)
    · obtain ⟨hb, hown⟩ := Watch.rests_inr.1 (hrest _ rfl)
      have hsome : ∀ t, some s = some t → (laws b).Rests host place t store := by
        rintro _ ⟨⟩
        exact hown
      exact lowers_within ((hsecond b hb).advance hs hsome) le_rfl (by simp)

end Bind

end Watchful

section Join
variable {count : Nat} {plans : Fin count → Plan β} {members : Fin count → Process β}
  {accounts : ∀ i, Account (members i)} {laws : ∀ i, Watchful host (plans i) (accounts i)}
  {own : Fin count → Nat} {left : ∀ i, (members i).State → Nat} {place : Place} {store : Store}

section Sweep
open Sweep

namespace Sweep

/-- What is left to do for an entry. -/
def entryLeft (own : Fin count → Nat) (left : ∀ i, (members i).State → Nat) : Entry members → Nat
  | .inl _ => 0
  | .inr ⟨i, state⟩ => state.elim (own i) (left i)

def entriesLeft (own : Fin count → Nat) (left : ∀ i, (members i).State → Nat)
    (entries : List (Entry members)) : Nat :=
  (entries.map (entryLeft own left)).sum

theorem entriesLeft_fresh : entriesLeft own left (fresh members) = ∑ i, own i := by
  rw [entriesLeft, fresh, List.map_map, Fin.sum_univ_def]
  rfl

/-- What is left to do after a pass. One that has been halted leaves nothing. -/
def Pass.remains (own : Fin count → Nat) (left : ∀ i, (members i).State → Nat)
    (pass : Pass members) : Nat :=
  if pass.halt = none then entriesLeft own left pass.entries else 0

/-- The pass reaches no bound and leaves no more than there was to do, and less if it has news. -/
structure Pass.Lowers (own : Fin count → Nat) (left : ∀ i, (members i).State → Nat) (before : Nat)
    (pass : Pass members) : Prop where
  bounded : pass.halt ≠ some .exhausted
  le : pass.remains own left ≤ before
  lt : pass.news = true → pass.remains own left < before

/-- One more entry in front of a pass over the rest. -/
theorem Pass.Lowers.after {pass : Pass members} {before first : Nat} {entry : Entry members}
    {news : Bool} (h : pass.Lowers own left before) (hle : entryLeft own left entry ≤ first)
    (hlt : news = true → entryLeft own left entry < first) :
    (pass.after entry news).Lowers own left (first + before) := by
  have hremains : (pass.after entry news).remains own left ≤
      entryLeft own left entry + pass.remains own left := by
    change (if pass.halt = none then entriesLeft own left (entry :: pass.entries) else 0) ≤
      entryLeft own left entry + if pass.halt = none then entriesLeft own left pass.entries else 0
    split
    · exact List.sum_cons.le
    · exact Nat.zero_le _
  refine ⟨h.bounded, hremains.trans (Nat.add_le_add hle h.le), fun hn => ?_⟩
  rcases Bool.or_eq_true_iff.1 hn with hn | hn
  · exact hremains.trans_lt (Nat.add_lt_add_of_lt_of_le (hlt hn) h.le)
  · exact hremains.trans_lt (Nat.add_lt_add_of_le_of_lt hle (h.lt hn))

theorem pass_lowers (h : ∀ i, (laws i).Lowers (own i) (left i)) {is : List (Fin count)}
    (hd : is.Nodup) {entries : List (Entry members)} (hs : store.Sound host)
    (he : List.Forall₂ (Fits laws place store) is entries) :
    (pass place entries store).Lowers own left (entriesLeft own left entries) := by
  induction is generalizing entries store with
  | nil =>
    cases he
    exact ⟨by simp [pass], le_rfl, by simp [pass]⟩
  | cons i is ih =>
    obtain ⟨hnot, hd'⟩ := List.nodup_cons.1 hd
    cases he with
    | @cons _ entry _ entries hi his =>
    have hsum : entriesLeft own left (entry :: entries) =
        entryLeft own left entry + entriesLeft own left entries := List.sum_cons
    rw [hsum]
    rcases entry with result | ⟨j, state⟩
    · exact (ih hd' hs his).after le_rfl (by simp)
    · obtain ⟨rfl, hstate⟩ := hi
      have hacts := (laws j).acts hs hstate
      have hturn := (h j).advance hs hstate
      change Pass.Lowers own left (state.elim (own j) (left j) + _) _
      simp only [pass]
      generalize (members j).advance (j :: place) state store = turn at hacts hturn
      generalize state.elim (own j) (left j) = before at hturn
      obtain ⟨reached, news, after⟩ := turn
      have hafter : List.Forall₂ (Fits laws place after) is entries :=
        fits_of_steps his hacts.toSteps fun k hk part hp hp' =>
          hnot (Fin.ext (eq_of_cons_suffix hp hp') ▸ hk)
      have hrest := ih hd' hacts.sound hafter
      cases reached with
      | ended outcome =>
        cases outcome with
        | ok result => exact hrest.after hturn.le hturn.lt
        | error error =>
          exact ⟨by simp, Nat.zero_le _, fun hn => Nat.add_pos_left (hturn.lt hn) _⟩
      | exhausted => exact absurd rfl hturn.bounded
      | waiting s => exact hrest.after hturn.le hturn.lt

theorem entriesLeft_le (h : ∀ i, (laws i).Lowers (own i) (left i)) {Came : Fin count → β → Prop}
    {is : List (Fin count)} {entries : List (Entry members)}
    (he : List.Forall₂ (Known Came fun i s => (laws i).Stands s store) is entries) :
    entriesLeft own left entries ≤ (is.map own).sum := by
  induction he with
  | nil => exact le_rfl
  | @cons i entry is entries hi _ ih =>
    refine Nat.add_le_add ?_ ih
    match entry with
    | .inl _ => exact Nat.zero_le _
    | .inr ⟨j, none⟩ => exact hi.1 ▸ le_rfl
    | .inr ⟨j, some s⟩ =>
      obtain ⟨rfl, hs⟩ := hi
      exact (h j).left_le (hs s rfl)

end Sweep

theorem sweep_lowers (h : ∀ i, (laws i).Lowers (own i) (left i)) (hs : store.Sound host)
    {state : Option (List (Entry members))}
    (hrest : ∀ s, state = some s → (Watch.sweep laws).Rests host place s store) :
    ((Process.sweep members).advance place state store).Lowers (entriesLeft own left)
      (state.elim (∑ i, own i) (entriesLeft own left)) := by
  have hpass := pass_lowers h (List.nodup_finRange count) hs (sweep_fits hrest)
  have hbefore : entriesLeft own left (state.getD (fresh members)) =
      state.elim (∑ i, own i) (entriesLeft own left) := by
    cases state with
    | none => exact entriesLeft_fresh
    | some entries => rfl
  rw [hbefore] at hpass
  generalize state.elim (∑ i, own i) (entriesLeft own left) = before at hpass
  dsimp only [Process.sweep]
  generalize pass place (state.getD (fresh members)) store = pass at hpass
  obtain ⟨entries, halt, news, after⟩ := pass
  cases halt with
  | none =>
    dsimp only
    cases entries.mapM Sum.getLeft? with
    | some results =>
      exact Advance.lowers_ended fun hn => (Nat.zero_le _).trans_lt (hpass.lt hn)
    | none => exact Advance.lowers_waiting hpass.le hpass.lt
  | some halt =>
    cases halt with
    | exhausted => exact absurd rfl hpass.bounded
    | failed error => exact Advance.lowers_ended hpass.lt

theorem Watchful.lowers_sweep (h : ∀ i, (laws i).Lowers (own i) (left i)) :
    (Watchful.sweep laws).Lowers (∑ i, own i) (entriesLeft own left) :=
  ⟨fun hs => (entriesLeft_le h hs.1).trans_eq (Fin.sum_univ_def own).symm,
    fun hs hrest => sweep_lowers h hs hrest⟩

end Sweep

section Queue
open Queue

namespace Queue

variable {queue rest later : Queue members} {i : Fin count} {state : Option (members i).State}

/-- What is left to do for a member. -/
def memberLeft (own : Fin count → Nat) (left : ∀ i, (members i).State → Nat)
    (queue : Queue members) (i : Fin count) : Nat :=
  match queue.results.outcomes[(i : Nat)]? with
  | some none => (queue.waiting.get? i).elim (own i) (left i)
  | _ => 0

/-- What is left to do for the members, and the turns to come. -/
def queueLeft (own : Fin count → Nat) (left : ∀ i, (members i).State → Nat)
    (queue : Queue members) : Nat :=
  ∑ i, memberLeft own left queue i + queue.turns.toList.length

theorem queueLeft_le (hd : queue.turns.toList.Nodup)
    (h : ∀ i s, queue.waiting.get? i = some s → left i s ≤ own i) :
    queueLeft own left queue ≤ ∑ i, own i + count := by
  refine Nat.add_le_add (Finset.sum_le_sum fun i _ => ?_) (by simpa using hd.length_le_card)
  rw [memberLeft]
  split
  · cases hw : queue.waiting.get? i with
    | none => exact le_rfl
    | some s => exact h i s hw
  · exact Nat.zero_le _

theorem queueLeft_start_le : queueLeft own left (start members) ≤ ∑ i, own i + count := by
  refine queueLeft_le ?_ fun i s hi => ?_
  · simpa [start] using List.nodup_finRange count
  · simp [start] at hi

section Turn
variable (hn : queue.next? = some (⟨i, state⟩, rest))
include hn

theorem length_turns_of_next? :
    queue.turns.toList.length = rest.turns.toList.length + 1 := by
  rw [toList_turns_of_next? hn, List.length_cons]

theorem memberLeft_of_next? (hresults : rest.results = queue.results)
    (hmissing : rest.results.outcomes[(i : Nat)]? = some none) :
    memberLeft own left queue i = state.elim (own i) (left i) := by
  rw [memberLeft, ← hresults, hmissing, get?_of_next? hn]

variable (hresults : rest.results = queue.results)
  (hmissing : rest.results.outcomes[(i : Nat)]? = some none)
include hresults hmissing

/-- The member has had its turn, and waits. -/
theorem memberLeft_putBack {s : (members i).State} {news : Bool} (j : Fin count) :
    memberLeft own left (rest.putBack ⟨i, s⟩ news) j =
      if j = i then left i s else memberLeft own left queue j := by
  have hsame : (rest.putBack ⟨i, s⟩ news).results = rest.results := rfl
  split
  · rename_i hj
    subst j
    rw [memberLeft, hsame, hmissing, get?_waiting_putBack rest ⟨i, s⟩ news]
    rfl
  · rename_i hj
    rw [memberLeft, hsame, hresults, get?_waiting_putBack_of_ne hj, get?_waiting_of_next? hn hj]
    rfl

theorem queueLeft_putBack_lt {s : (members i).State} {news : Bool}
    (hle : left i s ≤ state.elim (own i) (left i))
    (hlt : news = true → left i s < state.elim (own i) (left i)) :
    queueLeft own left (rest.putBack ⟨i, s⟩ news) < queueLeft own left queue := by
  rw [← memberLeft_of_next? hn hresults hmissing] at hle hlt
  have hall : ∀ j ∈ Finset.univ,
      memberLeft own left (rest.putBack ⟨i, s⟩ news) j ≤ memberLeft own left queue j := by
    intro j _
    rw [memberLeft_putBack hn hresults hmissing]
    split
    · rename_i hj
      exact hj ▸ hle
    · exact le_rfl
  rw [queueLeft, queueLeft, length_turns_of_next? hn]
  cases news with
  | false => exact Nat.add_lt_add_of_le_of_lt (Finset.sum_le_sum hall) (Nat.lt_succ_self _)
  | true =>
    rw [toList_turns_putBack, List.length_append, List.length_singleton]
    refine Nat.add_lt_add_right (Finset.sum_lt_sum hall ⟨i, Finset.mem_univ i, ?_⟩) _
    rw [memberLeft_putBack hn hresults hmissing, if_pos rfl]
    exact hlt rfl

/-- The member has ended. -/
theorem queueLeft_put_lt {outcome : Except Error β} {results : Results β}
    (hp : rest.results.put i outcome = .ok results) :
    queueLeft own left ({ rest with results } : Queue members) < queueLeft own left queue := by
  have ho := Results.outcomes_put hp hmissing
  rw [queueLeft, queueLeft, length_turns_of_next? hn]
  refine Nat.add_lt_add_of_le_of_lt (Finset.sum_le_sum fun j _ => ?_) (Nat.lt_succ_self _)
  by_cases hj : j = i
  · subst j
    have hlt := (List.getElem?_eq_some_iff.1 hmissing).1
    have hended : results.outcomes[(i : Nat)]? = some (some outcome) := by simp [ho, hlt]
    rw [memberLeft, hended]
    exact Nat.zero_le _
  · have hne : (i : Nat) ≠ j := fun he => hj (Fin.ext he.symm)
    have hsame : results.outcomes[(j : Nat)]? = queue.results.outcomes[(j : Nat)]? := by
      rw [ho, List.getElem?_set_ne hne, hresults]
    rw [memberLeft, memberLeft, hsame, get?_waiting_of_next? hn hj]

end Turn

/-- A stretch reaches no bound. If it takes a turn it leaves less to do than there was, and it has no
news that it does not have from the start unless it takes a turn or may take none. -/
structure StretchLowers (own : Fin count → Nat) (left : ∀ i, (members i).State → Nat)
    (turns patience : Nat) (queue : Queue members) (news : Bool)
    (advance : Advance (Queue members) (Queue members)) : Prop where
  bounded : advance.reached ≠ .exhausted
  waiting : ∀ later, advance.reached = .waiting later →
    queueLeft own left later ≤ queueLeft own left queue ∧
      (advance.news = true → news = true ∨ queueLeft own left later < queueLeft own left queue ∨
        turns = 0 ∨ patience = 0)
  ended : ∀ outcome, advance.reached = .ended outcome → 0 < queueLeft own left queue ∧
    ∀ later, outcome = .ok later → queueLeft own left later < queueLeft own left queue

theorem StretchLowers.after {turns patience turns' patience' : Nat} {news news' : Bool}
    {advance : Advance (Queue members) (Queue members)}
    (h : StretchLowers own left turns patience later news advance)
    (hlt : queueLeft own left later < queueLeft own left queue) :
    StretchLowers own left turns' patience' queue news' advance where
  bounded := h.bounded
  waiting last hl :=
    have hlast := (h.waiting last hl).1.trans_lt hlt
    ⟨hlast.le, fun _ => .inr (.inl hlast)⟩
  ended outcome ho :=
    ⟨(Nat.zero_le _).trans_lt hlt, fun last hl => ((h.ended outcome ho).2 last hl).trans hlt⟩

/-- No turn is taken. -/
theorem stretchLowers_still {turns patience : Nat} {news anews : Bool}
    (h : anews = true → news = true ∨ turns = 0 ∨ patience = 0) :
    StretchLowers own left turns patience queue news ⟨.waiting queue, anews, store⟩ where
  bounded := by simp
  waiting _ hl := by
    cases hl
    exact ⟨le_rfl, fun hn => (h hn).imp_right .inr⟩
  ended _ ho := by cases ho

/-- A member ends, and with it the turns or the whole join. -/
theorem stretchLowers_ended {turns patience : Nat} {news anews : Bool}
    {outcome : Except Error (Queue members)} (hpos : 0 < queueLeft own left queue)
    (h : ∀ later, outcome = .ok later → queueLeft own left later < queueLeft own left queue) :
    StretchLowers own left turns patience queue news ⟨.ended outcome, anews, store⟩ where
  bounded := by simp
  waiting _ hl := by cases hl
  ended _ ho := by
    cases ho
    exact ⟨hpos, h⟩

theorem stretch_lowers (h : ∀ i, (laws i).Lowers (own i) (left i)) (turns patience : Nat)
    (news : Bool) (hs : store.Sound host) (ha : Attends laws none place store queue) :
    StretchLowers own left turns patience queue news
      (stretch place turns patience queue news store) := by
  have hpos : ∀ {queue rest : Queue members} {member}, queue.next? = some (member, rest) →
      0 < queueLeft own left queue := by
    intro queue rest member hn
    rw [queueLeft, length_turns_of_next? hn]
    omega
  refine Account.stretch_induction accounts place (motive := fun turns patience queue news store _
      advance => store.Sound host → Attends laws none place store queue →
      StretchLowers own left turns patience queue news advance)
    ?spent ?idle ?put ?fails ?exhausted ?goes turns patience queue news store hs ha
  case spent => exact fun hspent _ _ => stretchLowers_still fun _ => .inr hspent
  case idle => exact fun _ _ _ => stretchLowers_still .inl
  case put =>
    intro _ _ _ _ _ i _ _ _ _ _ _ hn _ hp _ ha
    obtain ⟨hrest, -, hresults⟩ := ha.of_next? hn
    refine stretchLowers_ended (hpos hn) fun last hl => ?_
    cases hl
    exact queueLeft_put_lt hn hresults (hrest.away i rfl).1 hp
  case fails => exact fun hn _ _ _ _ => stretchLowers_ended (hpos hn) nofun
  case exhausted =>
    intro _ _ _ _ _ i _ _ _ _ hn hturn hs ha
    have hlowers := hturn ▸ (h i).advance hs (ha.of_next? hn).2.1
    exact absurd rfl hlowers.bounded
  case goes =>
    intro _ _ _ _ _ i _ rest s anews _ _ _ hn hturn ih hs ha
    obtain ⟨hrest, hstate, hresults⟩ := ha.of_next? hn
    obtain ⟨hacts, ⟨hrests, hasleep, -⟩, hafter, -⟩ := hturn ▸ take_turn hs ha hn
    have hlowers := hturn ▸ (h i).advance hs hstate
    have hlt : queueLeft own left (rest.putBack ⟨i, s⟩ anews) < queueLeft own left _ :=
      queueLeft_putBack_lt hn hresults (hrest.away i rfl).1 hlowers.le hlowers.lt
    exact (ih hacts.sound (hafter.putBack hrests hasleep)).after hlt

theorem stretches_lowers (h : ∀ i, (laws i).Lowers (own i) (left i)) {missing : Nat} (news : Bool)
    (hs : store.Sound host) (ha : Attends laws none place store queue)
    (hm : queue.results.missing = missing) :
    let advance := stretches place missing queue news store
    advance.reached ≠ .exhausted ∧
      advance.reached.remains (queueLeft own left) ≤ queueLeft own left queue ∧
      (advance.news = true → news = true ∨
        advance.reached.remains (queueLeft own left) < queueLeft own left queue) := by
  induction missing generalizing queue news store with
  | zero => exact ⟨by simp [stretches], Nat.zero_le _, .inl⟩
  | succ missing ih =>
    have hlowers := stretch_lowers h (missing + 1) patience news hs ha
    obtain ⟨hacts, hst⟩ := stretch_watch (missing + 1) patience news hs ha
    simp only [stretches]
    generalize stretch place (missing + 1) patience queue news store = advance at hlowers hacts hst
    obtain ⟨reached, anews, after⟩ := advance
    cases reached with
    | ended outcome =>
      obtain ⟨hpos, hlater⟩ := hlowers.ended outcome rfl
      cases outcome with
      | ok later =>
        have hmissing : later.results.missing = missing := by
          have hone := hst.2.1
          omega
        have hlt := hlater later rfl
        obtain ⟨hb, hle, -⟩ := ih anews hacts.sound hst.1 hmissing
        exact ⟨hb, hle.trans hlt.le, fun _ => .inr (hle.trans_lt hlt)⟩
      | error error => exact ⟨by simp, Nat.zero_le _, fun _ => .inr hpos⟩
    | exhausted => exact absurd rfl hlowers.bounded
    | waiting later =>
      obtain ⟨hle, hnews⟩ := hlowers.waiting later rfl
      refine ⟨by simp, hle, fun hn => (hnews hn).imp_right fun hlt => hlt.resolve_right ?_⟩
      simp [patience]

end Queue

theorem queue_lowers (h : ∀ i, (laws i).Lowers (own i) (left i)) (hs : store.Sound host)
    {state : Option (Queue members)}
    (hrest : ∀ s, state = some s → (Watch.queue laws).Rests host place s store) :
    ((Process.queue members).advance place state store).Lowers (queueLeft own left)
      (state.elim (∑ i, own i + count) (queueLeft own left)) := by
  cases state with
  | some queue =>
    obtain ⟨hb, hle, hlt⟩ :=
      stretches_lowers h false hs (attends_of_rests (hrest queue rfl)) rfl
    exact ⟨hb, hle, fun hn => (hlt hn).resolve_left Bool.false_ne_true⟩
  | none =>
    obtain ⟨hb, hle, hlt⟩ := stretches_lowers h false hs
      (orderly_start _ _ _ : Attends laws none place store _) rfl
    exact ⟨hb, hle.trans queueLeft_start_le,
      fun hn => ((hlt hn).resolve_left Bool.false_ne_true).trans_le queueLeft_start_le⟩

theorem Watchful.lowers_queue (hlarge : sweepLimit < count)
    (h : ∀ i, (laws i).Lowers (own i) (left i)) :
    (Watchful.queue laws hlarge).Lowers (∑ i, own i + count) (queueLeft own left) :=
  ⟨fun hs => queueLeft_le hs.1.nodup fun i s hi => (h i).left_le (hs.1.rests i s hi),
    fun hs hrest => queue_lowers h hs hrest⟩

end Queue

theorem Watchful.Dwindles.ite {plan : Plan α} {c : Prop} [d : Decidable c]
    {first second : Process α} {account : Account first} {other : Account second}
    {law : c → Watchful host plan account} {others : ¬ c → Watchful host plan other} {weight : Nat}
    (h : ∀ hc, (law hc).Dwindles weight) (h' : ∀ hc, (others hc).Dwindles weight) :
    (Watchful.ite law others).Dwindles weight := by
  cases d with
  | isTrue hc => exact h hc
  | isFalse hc => exact h' hc

/-- What the members of a join have to do, and as many turns as there are members. -/
theorem Watchful.Dwindles.join (h : ∀ i, (laws i).Dwindles (own i)) :
    (Watchful.join laws).Dwindles (∑ i, own i + count) := by
  choose left hleft using h
  refine .ite (fun _ => ?_) fun _ => ⟨_, Watchful.lowers_queue _ hleft⟩
  exact Dwindles.mono ⟨_, Watchful.lowers_sweep hleft⟩ (Nat.le_add_right ..)

end Join

end Process
end Stencil
