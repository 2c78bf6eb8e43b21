import Stencil.Proofs.Process.Orderly
import Stencil.Proofs.Process.Watchful

/-!
# Watchful joins

A join is watchful if its members are. A sweep ends with the first failure it meets, so it holds
nothing back. A queue that knows of a failure waits with it for the members before.
-/

namespace Stencil
namespace Process

variable {β : Type} {host : Host} {count : Nat} {plans : Fin count → Plan β}
  {members : Fin count → Process β} {accounts : ∀ i, Account (members i)}
  (laws : ∀ i, Watchful host (plans i) (accounts i)) {place : Place} {store : Store}

section Sweep
open Sweep

def Watch.sweep : Watch (Process.sweep members) where
  Waits place (entries : List (Entry members)) id number part :=
    ∃ i s, .inr ⟨i, some s⟩ ∈ entries ∧ (laws i).Waits (i :: place) s id number part
  Idle (entries : List (Entry members)) := ∀ i s, .inr ⟨i, some s⟩ ∈ entries → (laws i).Idle s
  Alert wanted place (entries : List (Entry members)) :=
    ∀ i s, .inr ⟨i, some s⟩ ∈ entries → (laws i).Alert wanted (i :: place) s
  Stands (entries : List (Entry members)) store :=
    List.Forall₂ (Known (fun i result => (plans i).Gives host result)
      fun i s => (laws i).Stands s store) (List.finRange count) entries ∧
      ∃ i s, .inr ⟨i, some s⟩ ∈ entries
  Holds place (entries : List (Entry members)) join size member :=
    ∃ i s, .inr ⟨i, some s⟩ ∈ entries ∧ (laws i).Holds (i :: place) s join size member

namespace Sweep

/-- What is known of a member between two turns. -/
abbrev Fits (place : Place) (store : Store) : Fin count → Entry members → Prop :=
  Known (fun i result => (plans i).Gives host result)
    fun i s => (laws i).Rests host (i :: place) s store

variable {laws}

theorem exists_mem_cons {P : (i : Fin count) → (members i).State → Prop} {entry : Entry members}
    {entries : List (Entry members)} :
    (∃ i s, .inr ⟨i, some s⟩ ∈ entry :: entries ∧ P i s) ↔
      (∃ i s, .inr ⟨i, some s⟩ ∈ [entry] ∧ P i s) ∨ ∃ i s, .inr ⟨i, some s⟩ ∈ entries ∧ P i s := by
  constructor
  · rintro ⟨i, s, hi, hp⟩
    rcases List.mem_cons.1 hi with rfl | hi
    · exact .inl ⟨i, s, List.mem_singleton_self _, hp⟩
    · exact .inr ⟨i, s, hi, hp⟩
  · rintro (⟨i, s, hi, hp⟩ | ⟨i, s, hi, hp⟩)
    · exact ⟨i, s, List.mem_cons.2 (.inl (List.mem_singleton.1 hi)), hp⟩
    · exact ⟨i, s, List.mem_cons_of_mem _ hi, hp⟩

theorem exists_mem_single {P : (i : Fin count) → (members i).State → Prop} {j : Fin count}
    {state : Option (members j).State} :
    (∃ i s, (.inr ⟨i, some s⟩ : Entry members) ∈ [.inr ⟨j, state⟩] ∧ P i s) ↔
      ∃ s, state = some s ∧ P j s := by
  constructor
  · rintro ⟨i, s, hi, hp⟩
    cases List.mem_singleton.1 hi
    exact ⟨s, rfl, hp⟩
  · rintro ⟨s, rfl, hp⟩
    exact ⟨j, s, List.mem_singleton_self _, hp⟩

theorem owes_iff {entries : List (Entry members)} {part : Place} {id : PendingId} :
    (Watch.sweep laws).Owes place entries part id ↔
      ∃ i s, .inr ⟨i, some s⟩ ∈ entries ∧ (laws i).Owes (i :: place) s part id := by
  constructor
  · rintro (⟨number, i, s, hi, hw⟩ | ⟨join, size, member, ⟨i, s, hi, hh⟩, hp⟩)
    · exact ⟨i, s, hi, .inl ⟨number, hw⟩⟩
    · exact ⟨i, s, hi, .inr ⟨join, size, member, hh, hp⟩⟩
  · rintro ⟨i, s, hi, ⟨number, hw⟩ | ⟨join, size, member, hh, hp⟩⟩
    · exact .inl ⟨number, i, s, hi, hw⟩
    · exact .inr ⟨join, size, member, ⟨i, s, hi, hh⟩, hp⟩

section Keeps
variable {entry later : Entry members} {entries rest : List (Entry members)} {told more : Journal}
  {middle after : Store}

/-- What becomes of the first entry and what becomes of the others, together. -/
theorem keeps_cons (h : (Watch.sweep laws).Keeps host place (some [entry]) told middle [later])
    (h' : (Watch.sweep laws).Keeps host place (some entries) more after rest)
    (hy : ∀ id ∈ middle.yielded, id ∈ after.yielded) :
    (Watch.sweep laws).Keeps host place (some (entry :: entries)) (told ++ more) after
      (later :: rest) where
  wanted part id hw := by
    -- everything that is wanted is wanted in one of the two
    have hparts : (Watch.sweep laws).Wants place (some [entry]) told part id ∨
        (Watch.sweep laws).Wants place (some entries) more part id := by
      rcases hw.append with hw | hm
      · rcases Watch.wants_some.1 hw with hm | ho
        · exact .inl (.inl hm)
        · rcases exists_mem_cons.1 (owes_iff.1 ho) with ho | ho
          · exact .inl (Watch.wants_some.2 (.inr (owes_iff.2 ho)))
          · exact .inr (Watch.wants_some.2 (.inr (owes_iff.2 ho)))
      · exact .inr (.inl hm)
    rw [owes_iff, exists_mem_cons, ← owes_iff, ← owes_iff]
    rcases hparts with hw | hw
    · exact (h.wanted part id hw).imp (·.mono hy) .inl
    · exact (h'.wanted part id hw).imp_right .inr
  waits id number part hw := by
    rcases exists_mem_cons.1 hw with hw | hw
    · rcases h.waits id number part hw with ⟨_, ⟨⟩, hw⟩ | hm
      · exact .inl ⟨_, rfl, exists_mem_cons.2 (.inl hw)⟩
      · exact .inr (List.mem_append_left _ hm)
    · rcases h'.waits id number part hw with ⟨_, ⟨⟩, hw⟩ | hm
      · exact .inl ⟨_, rfl, exists_mem_cons.2 (.inr hw)⟩
      · exact .inr (List.mem_append_right _ hm)
  holds join size member hh := by
    rcases exists_mem_cons.1 hh with hh | hh
    · rcases h.holds join size member hh with ⟨_, ⟨⟩, hh⟩ | hm
      · exact .inl ⟨_, rfl, exists_mem_cons.2 (.inl hh)⟩
      · exact .inr (List.mem_append_left _ hm)
    · rcases h'.holds join size member hh with ⟨_, ⟨⟩, hh⟩ | hm
      · exact .inl ⟨_, rfl, exists_mem_cons.2 (.inr hh)⟩
      · exact .inr (List.mem_append_right _ hm)

theorem keeps_result (result : β) : (Watch.sweep laws).Keeps host place
    (some [(.inl result : Entry members)]) [] store [(.inl result : Entry members)] := by
  have hno : ∀ (i : Fin count) (s : (members i).State),
      (.inr ⟨i, some s⟩ : Entry members) ∉ [(.inl result : Entry members)] := by simp
  refine ⟨fun part id hw => ?_, ?_, ?_⟩
  · rcases Watch.wants_some.1 hw with hm | ho
    · cases hm
    · obtain ⟨i, s, hi, -⟩ := owes_iff.1 ho
      exact absurd hi (hno i s)
  · rintro id number part ⟨i, s, hi, -⟩
    exact absurd hi (hno i s)
  · rintro join size member ⟨i, s, hi, -⟩
    exact absurd hi (hno i s)

theorem wants_single {j : Fin count} {state : Option (members j).State} {part : Place}
    {id : PendingId} :
    (Watch.sweep laws).Wants place (some [(.inr ⟨j, state⟩ : Entry members)]) told part id ↔
      (laws j).Wants (j :: place) state told part id :=
  Watch.wants_some.trans (or_congr_right (owes_iff.trans exists_mem_single))

theorem keeps_ended {j : Fin count} {state : Option (members j).State} {result : β}
    (h : ∀ part id, (laws j).Wants (j :: place) state told part id → after.Came host id) :
    (Watch.sweep laws).Keeps host place (some [(.inr ⟨j, state⟩ : Entry members)]) told after
      [(.inl result : Entry members)] where
  wanted part id hw := .inl (h part id (wants_single.1 hw))
  waits id number part hw := by
    obtain ⟨i, s, hi, -⟩ := hw
    simp at hi
  holds join size member hh := by
    obtain ⟨i, s, hi, -⟩ := hh
    simp at hi

theorem keeps_waiting {j : Fin count} {state : Option (members j).State} {s : (members j).State}
    (h : (laws j).Keeps host (j :: place) state told after s) :
    (Watch.sweep laws).Keeps host place (some [(.inr ⟨j, state⟩ : Entry members)]) told after
      [(.inr ⟨j, some s⟩ : Entry members)] where
  wanted part id hw := by
    refine (h.wanted part id (wants_single.1 hw)).imp_right fun ho => owes_iff.2 ?_
    exact exists_mem_single.2 ⟨s, rfl, ho⟩
  waits id number part hw := by
    obtain ⟨_, ⟨⟩, hw⟩ := exists_mem_single.1 hw
    refine (h.waits id number part hw).imp_left fun hw => ⟨_, rfl, ?_⟩
    exact exists_mem_single.2 hw
  holds join size member hh := by
    obtain ⟨_, ⟨⟩, hh⟩ := exists_mem_single.1 hh
    refine (h.holds join size member hh).imp_left fun hh => ⟨_, rfl, ?_⟩
    exact exists_mem_single.2 hh

end Keeps

/-- What has become of entries in a whole pass over members of these numbers. -/
structure Swept (laws : ∀ i, Watchful host (plans i) (accounts i)) (place : Place)
    (is : List (Fin count)) (entries : List (Entry members)) (told : Journal)
    (pass : Pass members) : Prop where
  fits : List.Forall₂ (Fits laws place pass.store) is pass.entries
  advanced : ∀ j, .inr ⟨j, none⟩ ∉ pass.entries
  asleep : pass.news = false → ∀ j s, .inr ⟨j, some s⟩ ∈ pass.entries →
    (laws j).Asleep host (j :: place) s pass.store
  keeps : (Watch.sweep laws).Keeps host place (some entries) told pass.store pass.entries

/-- What a pass has come to, whole or not. -/
def PassReaches (laws : ∀ i, Watchful host (plans i) (accounts i)) (place : Place)
    (is : List (Fin count)) (entries : List (Entry members)) (told : Journal)
    (pass : Pass members) : Prop :=
  match pass.halt with
  | none => Swept laws place is entries told pass
  | some (.failed _) => ∀ i s, .inr ⟨i, some s⟩ ∈ pass.entries →
    (laws i).Rests host (i :: place) s pass.store
  | some .exhausted => True

theorem fits_of_steps {is : List (Fin count)} {entries : List (Entry members)}
    {mine : Place → Prop} {begins : PendingId → Prop} {after : Store}
    (h : List.Forall₂ (Fits laws place store) is entries) (hs : store.Steps host mine begins after)
    (hm : ∀ i ∈ is, ∀ part, ((i : Nat) :: place) <:+ part → ¬ mine part) :
    List.Forall₂ (Fits laws place after) is entries := by
  induction h with
  | nil => exact .nil
  | @cons i _ is _ hi _ ih =>
    refine .cons (hi.imp (fun _ hg => hg) fun s hr => ?_) (ih fun j hj => hm j (by simp [hj]))
    exact (laws i).rests_of_steps hr hs (hm i (by simp))

/-- One more entry in front of a pass over the rest. -/
theorem passReaches_after {is : List (Fin count)} {i : Fin count} (hi : i ∉ is)
    {entry later : Entry members} {entries : List (Entry members)} {told more : Journal}
    {pass : Pass members} {middle : Store} {asks : PendingId → Prop} {news : Bool}
    (hf : Fits laws place middle i later) (hn : ∀ j, later ≠ .inr ⟨j, none⟩)
    (ha : news = false → ∀ j s, later = .inr ⟨j, some s⟩ →
      (laws j).Asleep host (j :: place) s middle)
    (hk : (Watch.sweep laws).Keeps host place (some [entry]) told middle [later])
    (hs : middle.Acts host (Among place is) asks pass.store more)
    (h : PassReaches laws place is entries more pass) :
    PassReaches laws place (i :: is) (entry :: entries) (told ++ more) (pass.after later news) := by
  have hf' : Fits laws place pass.store i later :=
    hf.imp (fun _ hg => hg) fun s hr => (laws i).rests_of_steps hr hs.toSteps fun _ => not_among hi
  obtain ⟨rest, halt, anews, after⟩ := pass
  match halt with
  | none =>
    refine ⟨.cons hf' h.fits, fun j hj => ?_, fun hnews j s hj => ?_,
      keeps_cons hk h.keeps hs.yielded_mono⟩
    · rcases List.mem_cons.1 hj with he | hj
      · exact hn j he.symm
      · exact h.advanced j hj
    · obtain ⟨hfirst, hrest⟩ := Bool.or_eq_false_iff.1 hnews
      rcases List.mem_cons.1 hj with he | hj
      · exact (ha hfirst j s he.symm).of_steps hs.toSteps
      · exact h.asleep hrest j s hj
  | some (.failed error) =>
    intro j s hj
    rcases List.mem_cons.1 hj with rfl | hj
    · exact hf'.2 s rfl
    · exact h j s hj
  | some .exhausted => trivial

/-- A pass over members of different numbers, from the first of them on. -/
theorem pass_watch {is : List (Fin count)} (hd : is.Nodup) {entries : List (Entry members)}
    (h : store.Sound host) (he : List.Forall₂ (Fits laws place store) is entries) :
    store.Acts host (Among place is) ((Plan.join count plans .done).Asks host ·)
      (pass place entries store).store (Account.pass accounts place entries store) ∧
    PassReaches laws place is entries (Account.pass accounts place entries store)
      (pass place entries store) := by
  induction is generalizing entries store with
  | nil =>
    cases he
    exact ⟨.refl h, .nil, by simp [pass], by simp [pass], .refl⟩
  | cons i is ih =>
    obtain ⟨hnot, hd'⟩ := List.nodup_cons.1 hd
    have hrest : ∀ part, Among place is part → Among place (i :: is) part :=
      fun _ ⟨j, hj, hp⟩ => ⟨j, List.mem_cons_of_mem _ hj, hp⟩
    cases he with
    | @cons _ entry _ entries hi his =>
    match entry with
    | .inl result =>
      obtain ⟨hs, hp⟩ := ih hd' h his
      exact ⟨hs.mono hrest fun _ ha => ha,
        passReaches_after hnot hi nofun nofun (keeps_result result) hs hp⟩
    | .inr ⟨j, state⟩ =>
      obtain ⟨rfl, hstate⟩ := hi
      have hs := (laws j).acts h hstate
      have hr := (laws j).reaches h hstate
      simp only [pass, Account.pass]
      generalize (members j).advance (j :: place) state store = turn at hs hr
      generalize (accounts j).tell (j :: place) state store = told at hs hr
      obtain ⟨reached, news, after⟩ := turn
      have hfirst : store.Acts host (Among place (j :: is))
          ((Plan.join count plans .done).Asks host ·) after told :=
        hs.mono (fun _ hp => ⟨j, List.mem_cons_self .., hp⟩) fun _ ha => Plan.asks_join_done.2 ⟨j, ha⟩
      have hafter : List.Forall₂ (Fits laws place after) is entries :=
        fits_of_steps his hs.toSteps fun k hk part hp hp' =>
          hnot (Fin.ext (eq_of_cons_suffix hp hp') ▸ hk)
      obtain ⟨hs', hp⟩ := ih hd' hs.sound hafter
      have hboth := hfirst.append (hs'.mono hrest fun _ ha => ha)
      cases reached with
      | ended outcome =>
        cases outcome with
        | ok result => exact ⟨hboth, passReaches_after hnot hr.1 nofun nofun (keeps_ended hr.2) hs' hp⟩
        | error error =>
          exact ⟨by simpa using hfirst, fun k s hk => rests_of_known hafter hk⟩
      | exhausted => exact ⟨by simpa using hfirst, trivial⟩
      | waiting s =>
        obtain ⟨hrests, hasleep, hkeeps⟩ := hr
        refine ⟨hboth, passReaches_after hnot ⟨rfl, ?_⟩ nofun ?_ (keeps_waiting hkeeps) hs' hp⟩
        · rintro _ ⟨⟩
          exact hrests
        · rintro hn _ _ ⟨⟩
          exact hasleep hn

end Sweep

variable {laws}

theorem sweep_fits {state : Option (List (Entry members))}
    (hrest : ∀ s, state = some s → (Watch.sweep laws).Rests host place s store) :
    List.Forall₂ (Fits laws place store) (List.finRange count) (state.getD (fresh members)) := by
  cases state with
  | none => exact known_fresh _ _
  | some entries =>
    have hr := hrest entries rfl
    refine known_of_mem hr.stands.1 fun i s hi hs => ⟨hs, ?_, hr.alert i s hi⟩
    exact fun id number part hw => hr.seated id number part ⟨i, s, hi, hw⟩

/-- Before the first pass nobody waits, and nothing is held back. -/
theorem keeps_of_getD {state : Option (List (Entry members))} {told : Journal} {after : Store}
    {later : List (Entry members)}
    (h : (Watch.sweep laws).Keeps host place (some (state.getD (fresh members))) told after later) :
    (Watch.sweep laws).Keeps host place state told after later := by
  cases state with
  | some entries => exact h
  | none =>
    have hno : ∀ (i : Fin count) (s : (members i).State), .inr ⟨i, some s⟩ ∉ fresh members := by
      simp [fresh]
    refine h.of_start ?_ ?_
    · rintro id number part ⟨i, s, hi, -⟩
      exact hno i s hi
    · rintro join size member ⟨i, s, hi, -⟩
      exact hno i s hi

/-- Every advance of a sweep is a pass over the entries. -/
theorem sweep_watch (h : store.Sound host) {state : Option (List (Entry members))}
    (hrest : ∀ s, state = some s → (Watch.sweep laws).Rests host place s store) :
    let advance := (Process.sweep members).advance place state store
    let told := (Account.sweep accounts).tell place state store
    store.Acts host (place <:+ ·) ((Plan.join count plans .done).Asks host ·) advance.store told ∧
    (Watch.sweep laws).Reaches host (.join count plans .done) place state told advance := by
  obtain ⟨ha, hp⟩ := pass_watch (List.nodup_finRange count) h (sweep_fits hrest)
  have ha' : store.Acts host (place <:+ ·) ((Plan.join count plans .done).Asks host ·)
      (pass place (state.getD (fresh members)) store).store
      ((place, .joins count) :: Account.pass accounts place (state.getD (fresh members)) store) :=
    (Store.acts_join h count List.suffix_rfl).append
      (ha.mono (fun _ ⟨_, _, hp⟩ => suffix_of_cons_suffix hp) fun _ hi => hi)
  dsimp only [Process.sweep, Account.sweep]
  generalize pass place (state.getD (fresh members)) store = pass at ha' hp
  generalize Account.pass accounts place (state.getD (fresh members)) store = told at ha' hp
  obtain ⟨entries, halt, news, after⟩ := pass
  cases halt with
  | none =>
    have hkeeps : (Watch.sweep laws).Keeps host place state ((place, .joins count) :: told) after
        entries :=
      keeps_of_getD (hp.keeps.tell_more (fun _ => List.mem_cons_of_mem _) (by simp))
    cases hm : entries.mapM Sum.getLeft? with
    | some results =>
      refine ⟨ha', Plan.gives_join_done.2 (mapM_of_known hp.fits hm), fun part id hw => ?_⟩
      refine (hkeeps.wanted part id hw).resolve_right fun ho => ?_
      obtain ⟨i, s, hi, -⟩ := owes_iff.1 ho
      exact not_mem_of_mapM hm _ hi
    | none =>
      have hwaits : ∃ i s, .inr ⟨i, some s⟩ ∈ entries := by
        obtain ⟨⟨i, state⟩, hi⟩ := exists_mem_of_mapM hm
        cases state with
        | none => exact absurd hi (hp.advanced i)
        | some s => exact ⟨i, s, hi⟩
      refine ⟨ha', ⟨⟨?_, hwaits⟩, ?_, ?_⟩, fun hn => ⟨?_, ?_⟩, hkeeps⟩
      · exact hp.fits.imp fun i entry hi => hi.imp (fun _ hg => hg) fun s hr => hr.stands
      · rintro id number part ⟨i, s, hi, hw⟩
        exact (rests_of_known hp.fits hi).seated id number part hw
      · exact fun i s hi => (rests_of_known hp.fits hi).alert
      · exact fun i s hi => (hp.asleep hn i s hi).idle
      · rintro id number part ⟨i, s, hi, hw⟩
        exact (hp.asleep hn i s hi).not_ready id number part hw
  | some halt =>
    cases halt with
    | exhausted => exact ⟨ha', trivial⟩
    | failed error =>
      have hl := leaveAll_leaves_of_rests (fun i => (laws i).toView) ha'.sound
        (fun i _ => (laws i).leaves) fun member hm => hp _ _ (mem_of_mem_live hm)
      have hkeeps := leaveAll_keeps (fun i s store => (laws i).leave_keeps s store)
        (live entries) after
      exact ⟨by simpa using ha'.append (hl.acts hkeeps), trivial⟩

theorem asleep_of_mem {entries : List (Entry members)}
    (h : (Watch.sweep laws).Asleep host place entries store) {i : Fin count} {s : (members i).State}
    (hi : .inr ⟨i, some s⟩ ∈ entries) : (laws i).Asleep host (i :: place) s store :=
  ⟨h.idle i s hi, fun id number part hw => h.not_ready id number part ⟨i, s, hi, hw⟩⟩

/-- A small join is watchful if its members are. -/
def Watchful.sweep (laws : ∀ i, Watchful host (plans i) (accounts i)) :
    Watchful host (.join count plans .done) (Account.sweep accounts) where
  toWatch := .sweep laws
  suffix_of_waits := by
    rintro place state id number part ⟨i, s, -, hw⟩
    exact suffix_of_cons_suffix ((laws i).suffix_of_waits hw)
  suffix_of_holds := by
    rintro place state join size member ⟨i, s, -, hh⟩
    exact suffix_of_cons_suffix ((laws i).suffix_of_holds hh)
  large_of_holds := by
    rintro place state join size member ⟨i, s, -, hh⟩
    exact (laws i).large_of_holds hh
  stands_of_stands := by
    rintro state before after ⟨hk, hw⟩
    exact ⟨hk.imp fun i entry hi =>
      hi.imp (fun _ hg => hg) fun s hs => (laws i).stands_of_stands hs, hw⟩
  alert_mono hw h i s hi :=
    (laws i).alert_mono (fun id number part hp => hw id number part ⟨i, s, hi, hp⟩) (h i s hi)
  waits_hear := exists_mem_hear_iff fun i _ _ => (laws i).waits_hear
  holds_hear := exists_mem_hear_iff fun i _ _ => (laws i).holds_hear
  stands_hear path := by
    rintro ⟨hk, i, s, hi⟩
    obtain ⟨later, hl, -⟩ := exists_mem_hear path hi
    exact ⟨known_hear path hk fun i s rest hs => (laws i).stands_hear rest hs, i, later, hl⟩
  alert_hear path h := Sweep.alert_hear (fun i => (laws i).heeds) path h
  leaves {place state store} h hown := by
    refine leaveAll_leaves (fun i => (laws i).toView) h (fun i _ => (laws i).leaves)
      fun member hm id number part hw => ?_
    exact hown id number part ⟨member.1, member.2, mem_of_mem_live hm, hw⟩
  leave_keeps state store := leaveAll_keeps (fun i s store => (laws i).leave_keeps s store) _ store
  acts h hrest := (sweep_watch h hrest).1
  reaches h hrest := (sweep_watch h hrest).2
  waits {place state store} hs ha := by
    obtain ⟨hk, i, s, hi⟩ := hs
    obtain ⟨id, number, part, hw⟩ := (laws i).waits (rests_of_known hk hi) (asleep_of_mem ha hi)
    exact ⟨id, number, part, i, s, hi, hw⟩
  behind {place state join size member store} hs ha := by
    rintro ⟨i, s, hi, hh⟩
    obtain ⟨earlier, hlt, id, number, part, hw, hp⟩ :=
      (laws i).behind (rests_of_known hs.1 hi) (asleep_of_mem ha hi) hh
    exact ⟨earlier, hlt, id, number, part, ⟨i, s, hi, hw⟩, hp⟩

end Sweep
section Queue
open Queue

def Watch.queue : Watch (Process.queue members) where
  Waits place (queue : Queue members) id number part :=
    ∃ i s, queue.waiting.get? i = some s ∧ (laws i).Waits (i :: place) s id number part
  Idle (queue : Queue members) :=
    queue.turns.toList = [] ∧ ∀ i s, queue.waiting.get? i = some s → (laws i).Idle s
  Alert wanted place (queue : Queue members) :=
    ∀ i s, queue.waiting.get? i = some s → (laws i).Alert wanted (i :: place) s ∧
      (i ∉ queue.turns → (laws i).Idle s ∧ ∀ id number part,
        (laws i).Waits (i :: place) s id number part → ¬ wanted part id)
  Stands (queue : Queue members) store :=
    Orderly (fun i outcome => ∀ result, outcome = .ok result → (plans i).Gives host result)
      (fun i s => (laws i).Stands s store) (fun _ _ => True) none queue ∧ 0 < queue.results.missing
  Holds place (queue : Queue members) join size member :=
    (∃ i s, queue.waiting.get? i = some s ∧ (laws i).Holds (i :: place) s join size member) ∨
      join = place ∧ size = count ∧
        ∃ error, queue.results.outcomes[member]? = some (some (.error error))

namespace Queue

/-- What is known of the members between two turns. -/
abbrev Attends (laws : ∀ i, Watchful host (plans i) (accounts i)) (turn : Option (Fin count))
    (place : Place) (store : Store) : Queue members → Prop :=
  Orderly (fun i outcome => ∀ result, outcome = .ok result → (plans i).Gives host result)
    (fun i s => (laws i).Rests host (i :: place) s store)
    (fun i s => (laws i).Asleep host (i :: place) s store) turn

variable {laws} {queue rest : Queue members} {turn : Option (Fin count)}

theorem owes_iff {part : Place} {id : PendingId} :
    (Watch.queue laws).Owes place queue part id ↔
      (∃ i s, queue.waiting.get? i = some s ∧ (laws i).Owes (i :: place) s part id) ∨
        ∃ member error, queue.results.outcomes[member]? = some (some (.error error)) ∧
          (member :: place) <:+ part := by
  constructor
  · rintro (⟨number, i, s, hi, hw⟩ | ⟨join, size, member, ⟨i, s, hi, hh⟩ | ⟨rfl, rfl, error, he⟩, hp⟩)
    · exact .inl ⟨i, s, hi, .inl ⟨number, hw⟩⟩
    · exact .inl ⟨i, s, hi, .inr ⟨join, size, member, hh, hp⟩⟩
    · exact .inr ⟨member, error, he, hp⟩
  · rintro (⟨i, s, hi, ⟨number, hw⟩ | ⟨join, size, member, hh, hp⟩⟩ | ⟨member, error, he, hp⟩)
    · exact .inl ⟨number, i, s, hi, hw⟩
    · exact .inr ⟨join, size, member, .inl ⟨i, s, hi, hh⟩, hp⟩
    · exact .inr ⟨place, count, member, .inr ⟨rfl, rfl, error, he⟩, hp⟩

theorem attends_of_steps {mine : Place → Prop} {begins : PendingId → Prop} {after : Store}
    (h : Attends laws turn place store queue) (hs : store.Steps host mine begins after)
    (hm : ∀ i s, queue.waiting.get? i = some s → ∀ part, ((i : Nat) :: place) <:+ part →
      ¬ mine part) : Attends laws turn place after queue :=
  h.imp (fun _ _ => id) (fun i s hi hr => (laws i).rests_of_steps hr hs (hm i s hi))
    fun _ _ _ ha => ha.of_steps hs

section Turn
variable {i : Fin count} {state : Option (members i).State} {told : Journal} {after : Store}

/-- Whatever is wanted when a turn begins is wanted by the member that has it, or owed by the rest. -/
theorem wants_of_next? (hn : queue.next? = some (⟨i, state⟩, rest))
    (hresults : rest.results = queue.results) {part : Place} {id : PendingId}
    (hw : (Watch.queue laws).Wants place (some queue) told part id) :
    (laws i).Wants (i :: place) state told part id ∨ (Watch.queue laws).Owes place rest part id := by
  rcases Watch.wants_some.1 hw with hm | ho
  · exact .inl (.inl hm)
  · rcases owes_iff.1 ho with ho | he
    · rcases exists_waiting_of_next? hn ho with ho | ho
      · exact .inl (.inr ho)
      · exact .inr (owes_iff.2 (.inl ho))
    · exact .inr (owes_iff.2 (.inr (hresults ▸ he)))

/-- The member has had its turn, and waits. -/
theorem keeps_putBack (hn : queue.next? = some (⟨i, state⟩, rest))
    (hresults : rest.results = queue.results) (hnone : rest.waiting.get? i = none)
    {s : (members i).State} {news : Bool}
    (h : (laws i).Keeps host (i :: place) state told after s) :
    (Watch.queue laws).Keeps host place (some queue) told after (rest.putBack ⟨i, s⟩ news) where
  wanted part id hw := by
    rw [owes_iff, exists_waiting_putBack_iff hnone]
    rcases wants_of_next? hn hresults hw with hw | ho
    · exact (h.wanted part id hw).imp_right fun ho => .inl (.inl ho)
    · exact .inr ((owes_iff.1 ho).imp_left .inr)
  waits id number part hw := by
    rcases (exists_waiting_putBack_iff hnone).1 hw with hw | hw
    · refine (h.waits id number part hw).imp_left ?_
      rintro ⟨earlier, he, hw⟩
      exact ⟨queue, rfl, i, earlier, (get?_of_next? hn).trans he, hw⟩
    · exact .inl ⟨queue, rfl, exists_waiting_of_rest hn hw⟩
  holds join size member hh := by
    rcases hh with hh | ⟨rfl, rfl, error, he⟩
    · rcases (exists_waiting_putBack_iff hnone).1 hh with hh | hh
      · refine (h.holds join size member hh).imp_left ?_
        rintro ⟨earlier, he, hh⟩
        exact ⟨queue, rfl, .inl ⟨i, earlier, (get?_of_next? hn).trans he, hh⟩⟩
      · exact .inl ⟨queue, rfl, .inl (exists_waiting_of_rest hn hh)⟩
    · exact .inl ⟨queue, rfl, .inr ⟨rfl, rfl, error, hresults ▸ he⟩⟩

/-- The member has ended. If it has failed, its failure is held back. -/
theorem keeps_put (hn : queue.next? = some (⟨i, state⟩, rest))
    (hresults : rest.results = queue.results)
    (hmissing : rest.results.outcomes[(i : Nat)]? = some none) {outcome : Except Error β}
    {results : Results β} (hp : rest.results.put i outcome = .ok results)
    (hw : ∀ part id, (laws i).Wants (i :: place) state told part id →
      ((i : Nat) :: place) <:+ part ∧
      ∀ result, outcome = .ok result → after.Came host id) :
    (Watch.queue laws).Keeps host place (some queue) ((place, .joins count) :: told) after
      ({ rest with results } : Queue members) where
  wanted part id hwants := by
    have ho := Results.outcomes_put hp hmissing
    have hlt := (List.getElem?_eq_some_iff.1 hmissing).1
    have hold : (Watch.queue laws).Wants place (some queue) told part id :=
      hwants.imp_left (by simp)
    rcases wants_of_next? hn hresults hold with hwants | howes
    · obtain ⟨hsuffix, hcame⟩ := hw part id hwants
      cases outcome with
      | ok result => exact .inl (hcame result rfl)
      | error error => exact .inr (owes_iff.2 (.inr ⟨i, error, by simp [ho, hlt], hsuffix⟩))
    · refine .inr (owes_iff.2 ((owes_iff.1 howes).imp_right ?_))
      rintro ⟨member, error, he, hsuffix⟩
      have hne : (i : Nat) ≠ member := by
        rintro rfl
        rw [hmissing] at he
        cases he
      exact ⟨member, error, by simpa [ho, List.getElem?_set_ne hne] using he, hsuffix⟩
  waits id number part hwaits := .inl ⟨queue, rfl, exists_waiting_of_rest hn hwaits⟩
  holds join size member hh := by
    rcases hh with hh | ⟨rfl, rfl, error, he⟩
    · exact .inl ⟨queue, rfl, .inl (exists_waiting_of_rest hn hh)⟩
    · exact .inr (List.mem_cons_self ..)

end Turn

/-- A turn of the member that is next, and what it leaves of the others. -/
theorem take_turn (hs : store.Sound host) (h : Attends laws none place store queue)
    {i : Fin count} {state : Option (members i).State} {rest : Queue members}
    (hn : queue.next? = some (⟨i, state⟩, rest)) :
    let turn := (members i).advance (i :: place) state store
    let told := (accounts i).tell (i :: place) state store
    store.Acts host (place <:+ ·) ((Plan.join count plans .done).Asks host ·) turn.store told ∧
    (laws i).Reaches host (plans i) (i :: place) state told turn ∧
    Attends laws (some i) place turn.store rest ∧
    ∀ part id, (laws i).Wants (i :: place) state told part id → ((i : Nat) :: place) <:+ part := by
  obtain ⟨hrest, hstate, -⟩ := h.of_next? hn
  have ha := (laws i).acts hs hstate
  refine ⟨ha.mono (fun _ hp => suffix_of_cons_suffix hp) fun _ hi => Plan.asks_join_done.2 ⟨i, hi⟩,
    (laws i).reaches hs hstate, attends_of_steps hrest ha.toSteps fun j s hj part hp hp' => ?_, ?_⟩
  · obtain rfl : j = i := Fin.ext (eq_of_cons_suffix hp hp')
    simp [(hrest.away j rfl).2.2] at hj
  · rintro part id (hm | ⟨s, -, ho⟩)
    · exact ha.within part _ hm
    · exact (laws i).suffix_of_owes ho

/-- Where a stretch gets to: a further outcome is there, or the join has failed, or it waits. -/
def StretchReaches (laws : ∀ i, Watchful host (plans i) (accounts i)) (place : Place)
    (queue : Queue members) (told : Journal) (advance : Advance (Queue members) (Queue members)) :
    Prop :=
  match advance.reached with
  | .ended (.ok later) =>
    Attends laws none place advance.store later ∧
      later.results.missing + 1 = queue.results.missing ∧
      (Watch.queue laws).Keeps host place (some queue) ((place, .joins count) :: told) advance.store
        later
  | .ended (.error _) | .exhausted => True
  | .waiting later =>
    Attends laws none place advance.store later ∧
      later.results.missing = queue.results.missing ∧
      (advance.news = false → later.turns.toList = []) ∧
      (Watch.queue laws).Keeps host place (some queue) ((place, .joins count) :: told) advance.store
        later

/-- A stretch after the first turn, in which a member has come to wait. -/
theorem stretchReaches_after {later : Queue members} {told more : Journal} {middle : Store}
    {advance : Advance (Queue members) (Queue members)} (hr : later.results = queue.results)
    (hk : (Watch.queue laws).Keeps host place (some queue) told middle later)
    (hy : ∀ id ∈ middle.yielded, id ∈ advance.store.yielded)
    (h : StretchReaches laws place later more advance) :
    StretchReaches laws place queue (told ++ more) advance := by
  obtain ⟨reached, news, after⟩ := advance
  -- the join is told once, in front
  have hkeeps : ∀ last : Queue members, (Watch.queue laws).Keeps host place (some later)
      ((place, .joins count) :: more) after last →
      (Watch.queue laws).Keeps host place (some queue) ((place, .joins count) :: (told ++ more)) after
        last := fun last hl => by
    refine (hk.append hl hy).tell_more (fun entry he => ?_) fun part id hm => ?_
    · simp only [List.mem_append, List.mem_cons] at he ⊢
      tauto
    · simpa using hm
  cases reached with
  | ended outcome =>
    cases outcome with
    | ok last => exact ⟨h.1, hr ▸ h.2.1, hkeeps last h.2.2⟩
    | error error => trivial
  | exhausted => trivial
  | waiting last => exact ⟨h.1, hr ▸ h.2.1, h.2.2.1, hkeeps last h.2.2.2⟩

theorem stretch_watch (left patience : Nat) (news : Bool) (hs : store.Sound host)
    (h : Attends laws none place store queue) :
    let advance := stretch place left patience queue news store
    let told := Account.stretch accounts place left patience queue store
    store.Acts host (place <:+ ·) ((Plan.join count plans .done).Asks host ·) advance.store told ∧
    StretchReaches laws place queue told advance := by
  have hkeeps : ∀ {queue : Queue members} {store : Store}, (Watch.queue laws).Keeps host place
      (some queue) [(place, .joins count)] store queue := Watch.Keeps.refl.tell_more nofun (by simp)
  refine Account.stretch_induction accounts place (motive := fun _ _ queue _ store told advance =>
    store.Sound host → Attends laws none place store queue →
      store.Acts host (place <:+ ·) ((Plan.join count plans .done).Asks host ·) advance.store told ∧
        StretchReaches laws place queue told advance)
    ?spent ?idle ?put ?fails ?exhausted ?goes left patience queue news store hs h
  case spent =>
    intro _ _ queue _ store _ hs h
    exact ⟨.refl hs, h, rfl, nofun, hkeeps⟩
  case idle =>
    intro _ _ queue _ store hn hs h
    exact ⟨.refl hs, h, rfl, fun _ => next?_eq_none_iff.1 hn, hkeeps⟩
  case put =>
    intro _ _ queue _ store i state rest outcome _ after results hn hturn hp hs h
    obtain ⟨hrest, -, hresults⟩ := h.of_next? hn
    have hmissing := (hrest.away i rfl).1
    obtain ⟨ha, hr, hafter, hsuffix⟩ := hturn ▸ take_turn hs h hn
    have hgives : ∀ result, outcome = .ok result → (plans i).Gives host result := by
      rintro result rfl
      exact hr.1
    refine ⟨ha, hafter.put hgives hp, hresults ▸ Results.missing_put hp hmissing,
      keeps_put hn hresults hmissing hp fun part id hw => ⟨hsuffix part id hw, ?_⟩⟩
    rintro result rfl
    exact hr.2 part id hw
  case fails =>
    intro _ _ queue _ store i state rest outcome _ after error hn hturn _ hs h
    obtain ⟨ha, -, hafter, -⟩ := hturn ▸ take_turn hs h hn
    have hl := leaveAll_leaves_of_rests (fun i => (laws i).toView) ha.sound
      (fun i _ => (laws i).leaves) fun member hm => hafter.rests _ _ (get?_of_mem_live hm)
    have hkept := leaveAll_keeps (fun i s store => (laws i).leave_keeps s store) rest.live after
    exact ⟨by simpa using ha.append (hl.acts hkept), trivial⟩
  case exhausted =>
    intro _ _ queue _ store i state rest _ after hn hturn hs h
    obtain ⟨ha, -⟩ := hturn ▸ take_turn hs h hn
    exact ⟨ha, trivial⟩
  case goes =>
    intro _ _ queue _ store i state rest s anews after _ advance hn hturn ih hs h
    obtain ⟨hrest, -, hresults⟩ := h.of_next? hn
    obtain ⟨ha, ⟨hrests, hasleep, hkept⟩, hafter, -⟩ := hturn ▸ take_turn hs h hn
    obtain ⟨hgo, hst⟩ := ih ha.sound (hafter.putBack hrests hasleep)
    have hfirst : (Watch.queue laws).Keeps host place (some queue) _ after
        (rest.putBack ⟨i, s⟩ anews) := keeps_putBack hn hresults (hrest.away i rfl).2.2 hkept
    have hsame : (rest.putBack ⟨i, s⟩ anews).results = queue.results := hresults
    exact ⟨ha.append hgo, stretchReaches_after hsame hfirst hgo.yielded_mono hst⟩

end Queue

section Advance
variable {laws} {queue : Queue members}

/-- When no outcome is missing, the members have given what is delivered, and nothing is owed. -/
theorem results_of_missing (h : Attends laws none place store queue)
    (hm : queue.results.missing = 0) :
    (Plan.join count plans .done).Gives host queue.results.delivered.toList ∧
      ∀ part id, ¬ (Watch.queue laws).Owes place queue part id := by
  have hall := h.outcomes_of_missing hm
  have hlength : queue.results.delivered.toList.length = count := by
    simpa [hall] using h.length_outcomes
  refine ⟨?_, fun part id ho => ?_⟩
  · rw [Plan.gives_join_done, List.forall₂_iff_get]
    refine ⟨by simp [hlength], fun n hn hd => ?_⟩
    have hi : n < count := by simpa using hn
    simpa using h.came ⟨n, hi⟩ _ (by simp [hall]) _ rfl
  · rcases owes_iff.1 ho with ⟨i, s, hi, -⟩ | ⟨member, error, he, -⟩
    · have hmissing := h.missing_of_waiting i s hi
      simp [hall] at hmissing
    · simp [hall] at he

/-- A queue is at rest between two turns, if something is missing. -/
theorem rests_of_attends (h : Attends laws none place store queue) (hm : 0 < queue.results.missing) :
    (Watch.queue laws).Rests host place queue store := by
  refine ⟨⟨h.imp (fun _ _ hg => hg) (fun _ _ _ hr => hr.stands) fun _ _ _ _ => trivial, hm⟩, ?_,
    fun i s hi => ⟨(h.rests i s hi).alert, fun hn => ?_⟩⟩
  · rintro id number part ⟨i, s, hi, hw⟩
    exact (h.rests i s hi).seated id number part hw
  · have ha := h.sleeps i s hi hn
    exact ⟨ha.idle, fun id number part hw => by simpa using ha.not_ready id number part hw⟩

theorem attends_of_rests (h : (Watch.queue laws).Rests host place queue store) :
    Attends laws none place store queue := by
  obtain ⟨⟨hp, hm⟩, hseated, halert⟩ := h
  refine { hp with
    rests := fun i s hi => ⟨hp.rests i s hi, ?_, (halert i s hi).1⟩
    sleeps := fun i s hi hn => ?_ }
  · exact fun id number part hw => hseated id number part ⟨i, s, hi, hw⟩
  · obtain ⟨hidle, hwanted⟩ := (halert i s hi).2 hn
    exact ⟨hidle, fun id number part hw => by simpa using hwanted id number part hw⟩

/-- It sleeps when nobody has a turn to come. -/
theorem asleep_of_attends (h : Attends laws none place store queue) (ht : queue.turns.toList = []) :
    (Watch.queue laws).Asleep host place queue store := by
  have ha : ∀ i s, queue.waiting.get? i = some s → (laws i).Asleep host (i :: place) s store := by
    refine fun i s hi => h.sleeps i s hi fun hm => ?_
    rw [← Turns.mem_toList, ht] at hm
    cases hm
  refine ⟨⟨ht, fun i s hi => (ha i s hi).idle⟩, ?_⟩
  rintro id number part ⟨i, s, hi, hw⟩
  exact (ha i s hi).not_ready id number part hw

theorem stretches_watch {missing : Nat} {news : Bool} (hs : store.Sound host)
    (h : Attends laws none place store queue) (hm : queue.results.missing = missing) :
    let advance := stretches place missing queue news store
    let told := Account.stretches accounts place missing queue news store
    store.Acts host (place <:+ ·) ((Plan.join count plans .done).Asks host ·) advance.store told ∧
    (Watch.queue laws).Reaches host (.join count plans .done) place (some queue)
      ((place, .joins count) :: told) advance := by
  induction missing generalizing queue news store with
  | zero =>
    obtain ⟨hg, ho⟩ := results_of_missing h hm
    refine ⟨.refl hs, hg, fun part id hw => ?_⟩
    rcases Watch.wants_some.1 hw with hm | howes
    · simp [Account.stretches] at hm
    · exact absurd howes (ho part id)
  | succ missing ih =>
    obtain ⟨ha, hst⟩ := stretch_watch (missing + 1) patience news hs h
    simp only [stretches, Account.stretches]
    generalize stretch place (missing + 1) patience queue news store = advance at ha hst
    generalize Account.stretch accounts place (missing + 1) patience queue store = told at ha hst
    obtain ⟨reached, anews, after⟩ := advance
    cases reached with
    | ended outcome =>
      cases outcome with
      | ok later =>
        obtain ⟨hlater, hmissing, hkeeps⟩ := hst
        obtain ⟨hgo, hr⟩ := ih ha.sound hlater (by omega)
        refine ⟨ha.append hgo, (hkeeps.reaches hgo.yielded_mono hr).tell_more ?_ (by simp)⟩
        intro entry he
        simp only [List.mem_append, List.mem_cons] at he ⊢
        tauto
      | error error => exact ⟨by simpa using ha, trivial⟩
    | exhausted => exact ⟨by simpa using ha, trivial⟩
    | waiting later =>
      obtain ⟨hlater, hmissing, hturns, hkeeps⟩ := hst
      simp only [List.append_nil]
      exact ⟨ha, rests_of_attends hlater (by omega), fun hn => asleep_of_attends hlater (hturns hn),
        hkeeps⟩

theorem queue_watch (h : store.Sound host) {state : Option (Queue members)}
    (hrest : ∀ s, state = some s → (Watch.queue laws).Rests host place s store) :
    let advance := (Process.queue members).advance place state store
    let told := (Account.queue accounts).tell place state store
    store.Acts host (place <:+ ·) ((Plan.join count plans .done).Asks host ·) advance.store told ∧
    (Watch.queue laws).Reaches host (.join count plans .done) place state told advance := by
  have hjoin : store.Acts host (place <:+ ·) ((Plan.join count plans .done).Asks host ·) store
      [(place, .joins count)] := Store.acts_join h count List.suffix_rfl
  cases state with
  | some queue =>
    obtain ⟨ha, hr⟩ := stretches_watch h (attends_of_rests (hrest queue rfl)) rfl
    exact ⟨hjoin.append ha, hr⟩
  | none =>
    obtain ⟨ha, hr⟩ := stretches_watch h (orderly_start _ _ _ : Attends laws none place store _) rfl
    refine ⟨hjoin.append ha, hr.of_start ?_ ?_⟩
    · rintro id number part ⟨i, s, hi, -⟩
      simp [start] at hi
    · rintro join size member (⟨i, s, hi, -⟩ | ⟨-, -, error, he⟩)
      · simp [start] at hi
      · simp [start, Results.outcomes_empty, List.getElem?_replicate] at he

theorem asleep_of_get? (h : (Watch.queue laws).Asleep host place queue store) {i : Fin count}
    {s : (members i).State} (hi : queue.waiting.get? i = some s) :
    (laws i).Asleep host (i :: place) s store :=
  ⟨h.idle.2 i s hi, fun id number part hw => h.not_ready id number part ⟨i, s, hi, hw⟩⟩

/-- A member of a queue that sleeps waits if its outcome is missing. -/
theorem waits_of_missing (hs : (Watch.queue laws).Stands queue store)
    (ha : (Watch.queue laws).Asleep host place queue store) {i : Fin count}
    (hi : queue.results.outcomes[(i : Nat)]? = some none) :
    ∃ id number part, (Watch.queue laws).Waits place queue id number part ∧
      ((i : Nat) :: place) <:+ part := by
  obtain ⟨s, hi⟩ := hs.1.waiting_of_missing ha.idle.1 hi
  obtain ⟨id, number, part, hw⟩ := (laws i).waits (hs.1.rests i s hi) (asleep_of_get? ha hi)
  exact ⟨id, number, part, ⟨i, s, hi, hw⟩, (laws i).suffix_of_waits hw⟩

end Advance

/-- A large join is watchful if its members are. -/
def Watchful.queue (hlarge : sweepLimit < count) :
    Watchful host (.join count plans .done) (Account.queue accounts) where
  toWatch := .queue laws
  suffix_of_waits := by
    rintro place state id number part ⟨i, s, -, hw⟩
    exact suffix_of_cons_suffix ((laws i).suffix_of_waits hw)
  suffix_of_holds := by
    rintro place state join size member (⟨i, s, -, hh⟩ | ⟨rfl, -⟩)
    · exact suffix_of_cons_suffix ((laws i).suffix_of_holds hh)
    · exact List.suffix_rfl
  large_of_holds := by
    rintro place state join size member (⟨i, s, -, hh⟩ | ⟨-, rfl, -⟩)
    · exact (laws i).large_of_holds hh
    · exact hlarge
  stands_of_stands h :=
    ⟨h.1.imp (fun _ _ hg => hg) (fun i _ _ hs => (laws i).stands_of_stands hs) fun _ _ _ hs => hs, h.2⟩
  alert_mono hw h := Queue.Alert.mono (fun i => (laws i).heeds) hw h
  waits_hear := exists_waiting_hear_iff (fun i _ _ => (laws i).waits_hear) _
  holds_hear {path place state join size member} := by
    refine or_congr (exists_waiting_hear_iff (fun i _ _ => (laws i).holds_hear) path) (Iff.of_eq ?_)
    exact congrArg (fun results : Results β => join = place ∧ size = count ∧
      ∃ error, results.outcomes[member]? = some (some (.error error))) (results_hear path state)
  stands_hear {state store} path h :=
    ⟨h.1.hear path fun i s rest hs => (laws i).stands_hear rest hs, results_hear path state ▸ h.2⟩
  alert_hear path h := Queue.Alert.hear (fun i => (laws i).heeds) path h
  leaves {place state store} h hown := by
    refine leaveAll_leaves (fun i => (laws i).toView) h (fun i _ => (laws i).leaves)
      fun member hm id number part hw => ?_
    exact hown id number part ⟨member.1, member.2, get?_of_mem_live hm, hw⟩
  leave_keeps state store := leaveAll_keeps (fun i s store => (laws i).leave_keeps s store) _ store
  acts h hrest := (queue_watch h hrest).1
  reaches h hrest := (queue_watch h hrest).2
  waits hs ha := by
    obtain ⟨i, hi⟩ := hs.1.exists_missing hs.2
    obtain ⟨id, number, part, hw, -⟩ := waits_of_missing hs ha hi
    exact ⟨id, number, part, hw⟩
  behind hs ha := by
    rintro (⟨i, s, hi, hh⟩ | ⟨rfl, rfl, error, he⟩)
    · obtain ⟨earlier, hlt, id, number, part, hw, hp⟩ :=
        (laws i).behind (hs.1.rests i s hi) (asleep_of_get? ha hi) hh
      exact ⟨earlier, hlt, id, number, part, ⟨i, s, hi, hw⟩, hp⟩
    · obtain ⟨i, hlt, hi⟩ := hs.1.exists_missing_of_error he
      obtain ⟨id, number, part, hw, hp⟩ := waits_of_missing hs ha hi
      exact ⟨i, hlt, id, number, part, hw, hp⟩

end Queue

/-- The law of whichever process it is. -/
def Watchful.ite {α : Type} {plan : Plan α} {c : Prop} [d : Decidable c] {first second : Process α}
    {account : Account first} {other : Account second} (law : c → Watchful host plan account)
    (others : ¬ c → Watchful host plan other) :
    Watchful host plan (Account.ite account other : Account (if c then first else second)) :=
  match d with
  | isTrue h => law h
  | isFalse h => others h

/-- A join is watchful if its members are, whether it is swept over or they queue. -/
def Watchful.join (laws : ∀ i, Watchful host (plans i) (accounts i)) :
    Watchful host (.join count plans .done) (Account.join accounts) :=
  .ite (fun _ => .sweep laws) fun h => .queue laws (Nat.not_le.1 h)

end Process
end Stencil
