import Stencil.Proofs.Process.Lawful
import Stencil.Proofs.Process.Orderly

/-!
# Small joins

A sweep keeps the law of its members. Members have places of their own, so an advance of one leaves
the others at rest, and what each has come to stays true while the others go on.
-/

namespace Stencil

namespace Process

variable {β : Type} {host : Host} {count : Nat} {plans : Fin count → Plan β}
  {members : Fin count → Process β} (laws : ∀ i, Lawful host (plans i) (members i))
  {place : Place} {store : Store}

namespace Sweep

/-- What an entry says about the member of a number. -/
def Sound (place : Place) (store : Store) (i : Fin count) : Entry members → Prop
  | .inl result =>
    (plans i).result? host (store.isReady host) = some result ∧
      ∀ id, (plans i).Begins host (store.isReady host) id → id ∈ store.begun
  | .inr ⟨j, state⟩ =>
    j = i ∧ ∀ s, state = some s → (laws j).Rests host (j :: place) s store

/-- An entry that has been passed: a member under way has had a turn, and sleeps unless there is
news. -/
def Passed (place : Place) (news : Bool) (store : Store) : Entry members → Prop
  | .inl _ => True
  | .inr ⟨_, none⟩ => False
  | .inr ⟨j, some s⟩ => news = false → (laws j).Asleep host (j :: place) s store

variable {laws}

theorem Sound.of_steps {i : Fin count} {entry : Entry members} {mine : Place → Prop}
    {begins : PendingId → Prop} {after : Store} (h : Sound laws place store i entry)
    (hs : store.Steps host mine begins after)
    (hm : ∀ part, ((i : Nat) :: place) <:+ part → ¬ mine part) :
    Sound laws place after i entry := by
  match entry with
  | .inl result =>
    have hr : ∀ id, store.isReady host id = true → after.isReady host id = true :=
      fun id hi => hs.isReady_eq ▸ hi
    exact ⟨Plan.result?_mono hr h.1, fun id hi =>
      hs.begun_mono id (h.2 id (Plan.begins_of_result? hr h.1 hi))⟩
  | .inr ⟨j, state⟩ =>
    obtain ⟨rfl, h⟩ := h
    exact ⟨rfl, fun s e => (laws j).rests_of_steps (h s e) hs hm⟩

theorem sound_of_steps {is : List (Fin count)} {entries : List (Entry members)}
    {mine : Place → Prop} {begins : PendingId → Prop} {after : Store}
    (h : List.Forall₂ (Sound laws place store) is entries)
    (hs : store.Steps host mine begins after)
    (hm : ∀ i ∈ is, ∀ part, ((i : Nat) :: place) <:+ part → ¬ mine part) :
    List.Forall₂ (Sound laws place after) is entries := by
  induction h with
  | nil => exact .nil
  | @cons i _ is _ hi _ ih =>
    exact .cons (hi.of_steps hs (hm i (by simp))) (ih fun j hj => hm j (by simp [hj]))

theorem sound_iff {i : Fin count} {entry : Entry members} : Sound laws place store i entry ↔
    Known (fun i result => (plans i).result? host (store.isReady host) = some result ∧
        ∀ id, (plans i).Begins host (store.isReady host) id → id ∈ store.begun)
      (fun i s => (laws i).Rests host (i :: place) s store) i entry := by
  cases entry <;> rfl

/-- A member under way is at rest at its own place. -/
theorem rests_of_mem {is : List (Fin count)} {entries : List (Entry members)}
    (h : List.Forall₂ (Sound laws place store) is entries) {i : Fin count} {s : (members i).State}
    (hi : .inr ⟨i, some s⟩ ∈ entries) : (laws i).Rests host (i :: place) s store :=
  rests_of_known (h.imp fun _ _ => sound_iff.1) hi

theorem Passed.of_steps {entry : Entry members} {mine : Place → Prop} {begins : PendingId → Prop}
    {after : Store} {news : Bool} (h : Passed laws place news store entry)
    (hs : store.Steps host mine begins after) : Passed laws place news after entry := by
  match entry with
  | .inl _ => trivial
  | .inr ⟨_, none⟩ => exact h
  | .inr ⟨j, some s⟩ => exact fun hn => (h hn).of_steps hs

theorem Passed.of_news {entry : Entry members} {news more : Bool}
    (h : Passed laws place news store entry) (hn : more = false → news = false) :
    Passed laws place more store entry := by
  match entry with
  | .inl _ => trivial
  | .inr ⟨_, none⟩ => exact h
  | .inr ⟨j, some s⟩ => exact fun hmore => h (hn hmore)

/-- What a pass has come to. -/
def Came (laws : ∀ i, Lawful host (plans i) (members i)) (place : Place) (is : List (Fin count))
    (pass : Pass members) : Prop :=
  match pass.halt with
  | none =>
    List.Forall₂ (Sound laws place pass.store) is pass.entries ∧
      ∀ entry ∈ pass.entries, Passed laws place pass.news pass.store entry
  | some (.failed error) =>
    (∃ i, (plans i).Faults host (pass.store.isReady host) error) ∧
      ∀ i s, .inr ⟨i, some s⟩ ∈ pass.entries → (laws i).Rests host (i :: place) s pass.store
  | some .exhausted => True

/-- One more entry in front of a pass over the rest. -/
theorem came_after {is : List (Fin count)} {i : Fin count} (hi : i ∉ is) {pass : Pass members}
    {entry : Entry members} {middle : Store} {begins : PendingId → Prop} {news : Bool}
    (he : Sound laws place middle i entry) (hp : Passed laws place news middle entry)
    (hs : middle.Steps host (Among place is) begins pass.store) (h : Came laws place is pass) :
    Came laws place (i :: is) (pass.after entry news) := by
  have he' := he.of_steps hs fun part => not_among hi
  obtain ⟨entries, halt, anews, after⟩ := pass
  match halt with
  | none =>
    refine ⟨.cons he' h.1, fun other ho => ?_⟩
    rcases List.mem_cons.1 ho with rfl | ho
    · exact (hp.of_steps hs).of_news fun hn => (Bool.or_eq_false_iff.1 hn).1
    · exact (h.2 other ho).of_news fun hn => (Bool.or_eq_false_iff.1 hn).2
  | some (.failed error) =>
    refine ⟨h.1, fun j s hj => ?_⟩
    rcases List.mem_cons.1 hj with rfl | hj
    · exact he'.2 s rfl
    · exact h.2 j s hj
  | some .exhausted => trivial

/-- A pass over members of different numbers, from the first of them on. -/
theorem pass_came {is : List (Fin count)} (hd : is.Nodup) {entries : List (Entry members)}
    (h : store.Sound host) (he : List.Forall₂ (Sound laws place store) is entries) :
    store.Steps host (Among place is)
      (fun id => (Plan.join count plans .done).Begins host (store.isReady host) id)
      (pass place entries store).store ∧
    Came laws place is (pass place entries store) := by
  induction is generalizing entries store with
  | nil =>
    cases he
    exact ⟨.refl h, .nil, by simp [pass]⟩
  | cons i is ih =>
    obtain ⟨hnot, hd'⟩ := List.nodup_cons.1 hd
    have hrest : ∀ part, Among place is part → Among place (i :: is) part :=
      fun _ ⟨j, hj, hp⟩ => ⟨j, List.mem_cons_of_mem _ hj, hp⟩
    cases he with
    | @cons _ entry _ entries hi his =>
    match entry with
    | .inl result =>
      obtain ⟨hs, hc⟩ := ih hd' h his
      exact ⟨hs.mono hrest fun _ hb => hb, came_after hnot hi trivial hs hc⟩
    | .inr ⟨j, state⟩ =>
      obtain ⟨rfl, hstate⟩ := hi
      have hs : store.Steps host (Among place [j])
          (fun id => (Plan.join count plans .done).Begins host (store.isReady host) id)
          ((members j).advance (j :: place) state store).store :=
        ((laws j).steps h hstate).mono (fun part hp => ⟨j, by simp, hp⟩)
          fun id hb => Plan.begins_join_done.2 ⟨j, hb⟩
      have hr := (laws j).reaches h hstate
      simp only [pass]
      generalize (members j).advance (j :: place) state store = turn at hs hr
      obtain ⟨reached, news, after⟩ := turn
      have hmine : ∀ part, Among place [j] part → Among place (j :: is) part := by
        rintro part ⟨k, hk, hp⟩
        exact ⟨k, List.mem_cons.2 (.inl (by simpa using hk)), hp⟩
      have hafter : List.Forall₂ (Sound laws place after) is entries := by
        refine sound_of_steps his hs fun k hk part hp => not_among ?_ hp
        rintro hkj
        rw [List.mem_singleton.1 hkj] at hk
        exact hnot hk
      obtain ⟨hs', hc⟩ := ih hd' hs.sound hafter
      have hboth := (hs.mono hmine fun _ hb => hb).trans
        (hs'.mono hrest fun id hb => hs.isReady_eq ▸ hb)
      cases reached with
      | ended outcome =>
        cases outcome with
        | ok result => exact ⟨hboth, came_after hnot hr trivial hs' hc⟩
        | error error =>
          exact ⟨hs.mono hmine fun _ hb => hb, ⟨j, hr⟩, fun k s hk => rests_of_mem hafter hk⟩
      | exhausted => exact ⟨hs.mono hmine fun _ hb => hb, trivial⟩
      | waiting s =>
        refine ⟨hboth, came_after hnot ⟨rfl, ?_⟩ hr.2 hs' hc⟩
        rintro _ ⟨⟩
        exact hr.1

/-- What the past of an entry is, whoever waits now. -/
def Past (laws : ∀ i, Lawful host (plans i) (members i)) (store : Store) (i : Fin count) :
    Entry members → Prop
  | .inl result =>
    (plans i).result? host (store.isReady host) = some result ∧
      ∀ id, (plans i).Begins host (store.isReady host) id → id ∈ store.begun
  | .inr ⟨j, state⟩ => j = i ∧ ∃ s, state = some s ∧ (laws j).Stands s store

theorem sound_of_past {is : List (Fin count)} {entries : List (Entry members)}
    (h : List.Forall₂ (Past laws store) is entries)
    (hseated : ∀ i s, .inr ⟨i, some s⟩ ∈ entries →
      (laws i).Seated host (i :: place) s store ∧
        (laws i).Alert (fun _ id => store.isReady host id = true) (i :: place) s) :
    List.Forall₂ (Sound laws place store) is entries := by
  induction h with
  | nil => exact .nil
  | @cons i entry _ _ hi _ ih =>
    refine .cons ?_ (ih fun j s hj => hseated j s (List.mem_cons_of_mem _ hj))
    match entry with
    | .inl _ => exact hi
    | .inr ⟨j, state⟩ =>
      obtain ⟨rfl, s, rfl, hs⟩ := hi
      obtain ⟨hseat, halert⟩ := hseated j s (List.mem_cons_self ..)
      refine ⟨rfl, ?_⟩
      rintro _ ⟨⟩
      exact ⟨hs, hseat, halert⟩

theorem past_of_sound {is : List (Fin count)} {entries : List (Entry members)} {news : Bool}
    (h : List.Forall₂ (Sound laws place store) is entries)
    (hp : ∀ entry ∈ entries, Passed laws place news store entry) :
    List.Forall₂ (Past laws store) is entries := by
  induction h with
  | nil => exact .nil
  | @cons i entry _ _ hi _ ih =>
    refine .cons ?_ (ih fun other ho => hp other (List.mem_cons_of_mem _ ho))
    match entry with
    | .inl _ => exact hi
    | .inr ⟨_, none⟩ => exact (hp _ (List.mem_cons_self ..)).elim
    | .inr ⟨_, some s⟩ => exact ⟨hi.1, s, rfl, (hi.2 s rfl).stands⟩

theorem sound_fresh (laws : ∀ i, Lawful host (plans i) (members i)) (place : Place)
    (store : Store) : List.Forall₂ (Sound laws place store) (List.finRange count) (fresh members) :=
  (known_fresh _ _).imp fun _ _ => sound_iff.2

/-- When no entry is under way, the results are those of all members. -/
theorem mapM_of_sound {is : List (Fin count)} {entries : List (Entry members)} {results : List β}
    (h : List.Forall₂ (Sound laws place store) is entries)
    (hr : entries.mapM Sum.getLeft? = some results) :
    (is.mapM fun i => (plans i).result? host (store.isReady host)) = some results ∧
      ∀ i ∈ is, ∀ id, (plans i).Begins host (store.isReady host) id → id ∈ store.begun := by
  have hall := mapM_of_known (h.imp fun _ _ => sound_iff.1) hr
  refine ⟨mapM_eq_some_iff.2 (hall.imp fun _ _ hi => hi.1), fun i hi => ?_⟩
  obtain ⟨_, -, hc⟩ := exists_of_mem_of_forall₂ hall hi
  exact hc.2

/-- Otherwise some member has had its turn and waits. -/
theorem exists_waiting {entries : List (Entry members)} {news : Bool}
    (hp : ∀ entry ∈ entries, Passed laws place news store entry)
    (hr : entries.mapM Sum.getLeft? = none) : ∃ i s, .inr ⟨i, some s⟩ ∈ entries := by
  obtain ⟨⟨i, state⟩, hm⟩ := exists_mem_of_mapM hr
  cases state with
  | none => exact (hp _ hm).elim
  | some s => exact ⟨i, s, hm⟩

theorem past_hear {path : List Nat} {is : List (Fin count)} {entries : List (Entry members)}
    (h : List.Forall₂ (Past laws store) is entries) :
    List.Forall₂ (Past laws store) is (hear path entries) := by
  cases path with
  | nil => exact h
  | cons number rest =>
    rw [hear, List.forall₂_map_right_iff]
    refine h.imp fun i entry hi => ?_
    rcases entry with _ | ⟨j, state⟩
    · exact hi
    · obtain ⟨rfl, s, rfl, hs⟩ := hi
      by_cases hn : (j : Nat) = number
      · exact ⟨rfl, (members j).hear rest s, by simp [hn], (laws j).stands_hear rest hs⟩
      · exact ⟨rfl, s, by simp [hn], hs⟩

theorem Past.mono {i : Fin count} {entry : Entry members} {after : Store}
    (hr : ∀ id, store.isReady host id = true → after.isReady host id = true)
    (hb : ∀ id ∈ store.begun, id ∈ after.begun) (h : Past laws store i entry) :
    Past laws after i entry := by
  match entry with
  | .inl _ =>
    exact ⟨Plan.result?_mono hr h.1, fun id hi => hb id (h.2 id (Plan.begins_of_result? hr h.1 hi))⟩
  | .inr ⟨j, state⟩ =>
    obtain ⟨rfl, s, rfl, hs⟩ := h
    exact ⟨rfl, s, rfl, (laws j).stands_mono hr hb hs⟩

theorem stands_of_mem {is : List (Fin count)} {entries : List (Entry members)}
    (h : List.Forall₂ (Past laws store) is entries) {i : Fin count} {s : (members i).State}
    (hi : .inr ⟨i, some s⟩ ∈ entries) : (laws i).Stands s store := by
  induction h with
  | nil => cases hi
  | cons hj _ ih =>
    rcases List.mem_cons.1 hi with rfl | hi
    · obtain ⟨-, t, ht, hs⟩ := hj
      exact Option.some.inj ht ▸ hs
    · exact ih hi

end Sweep

open Sweep

def View.sweep (laws : ∀ i, Lawful host (plans i) (members i)) : View (Process.sweep members) where
  Waits place (entries : List (Entry members)) id number part :=
    ∃ i s, .inr ⟨i, some s⟩ ∈ entries ∧ (laws i).Waits (i :: place) s id number part
  Idle (entries : List (Entry members)) := ∀ i s, .inr ⟨i, some s⟩ ∈ entries → (laws i).Idle s
  Alert wanted place (entries : List (Entry members)) :=
    ∀ i s, .inr ⟨i, some s⟩ ∈ entries → (laws i).Alert wanted (i :: place) s
  Stands (entries : List (Entry members)) store :=
    List.Forall₂ (Past laws store) (List.finRange count) entries ∧
      ∃ i s, .inr ⟨i, some s⟩ ∈ entries

variable {laws}

theorem sweep_sound {state : Option (List (Entry members))}
    (hrest : ∀ s, state = some s → (View.sweep laws).Rests host place s store) :
    List.Forall₂ (Sound laws place store) (List.finRange count) (state.getD (fresh members)) := by
  cases state with
  | none => exact sound_fresh laws place store
  | some entries =>
    have hr := hrest entries rfl
    exact sound_of_past hr.stands.1 fun i s hi =>
      ⟨fun id number part hw => hr.seated id number part ⟨i, s, hi, hw⟩, hr.alert i s hi⟩

/-- Every advance of a sweep is a pass over sound entries. -/
theorem sweep_advance (h : store.Sound host) {state : Option (List (Entry members))}
    (hrest : ∀ s, state = some s → (View.sweep laws).Rests host place s store) :
    let advance := (Process.sweep members).advance place state store
    store.Steps host (place <:+ ·)
      (fun id => (Plan.join count plans .done).Begins host (store.isReady host) id) advance.store ∧
    (View.sweep laws).Reaches host (.join count plans .done) place advance := by
  have he := sweep_sound hrest
  obtain ⟨hs, hc⟩ := pass_came (List.nodup_finRange count) h he
  have hs' : store.Steps host (place <:+ ·)
      (fun id => (Plan.join count plans .done).Begins host (store.isReady host) id)
      (pass place (state.getD (fresh members)) store).store :=
    hs.mono (fun _ ⟨_, _, hp⟩ => suffix_of_cons_suffix hp) fun _ hb => hb
  dsimp only [Process.sweep]
  generalize pass place (state.getD (fresh members)) store = pass at hs hs' hc
  obtain ⟨entries, halt, news, after⟩ := pass
  cases halt with
  | none =>
    obtain ⟨hsound, hpassed⟩ := hc
    cases hm : entries.mapM Sum.getLeft? with
    | some results =>
      dsimp only
      obtain ⟨hresults, hb⟩ := mapM_of_sound hsound hm
      refine ⟨hs', Plan.result?_join_done.trans hresults, fun id hi => ?_⟩
      obtain ⟨i, hi⟩ := Plan.begins_join_done.1 hi
      exact hb i (List.mem_finRange i) id hi
    | none =>
      dsimp only
      refine ⟨hs', ⟨⟨past_of_sound hsound hpassed, exists_waiting hpassed hm⟩, ?_, ?_⟩, ?_⟩
      · rintro id number part ⟨i, s, hi, hw⟩
        exact (rests_of_mem hsound hi).seated id number part hw
      · exact fun i s hi => (rests_of_mem hsound hi).alert
      · intro hn
        refine ⟨fun i s hi => (hpassed _ hi hn).idle, ?_⟩
        rintro id number part ⟨i, s, hi, hw⟩
        exact (hpassed _ hi hn).not_ready id number part hw
  | some halt =>
    cases halt with
    | exhausted => exact ⟨hs', trivial⟩
    | failed error =>
      obtain ⟨⟨i, hf⟩, hr⟩ := hc
      have hl : after.Leaves host (place <:+ ·) (leaveAll members (live entries) after) :=
        leaveAll_leaves_of_rests (fun i => (laws i).toView) hs.sound (fun i _ => (laws i).leaves)
          fun member hm => hr _ _ (mem_of_mem_live hm)
      refine ⟨hs'.trans (hl.toSteps.mono (fun _ hp => hp) fun _ hb => hb.elim), ?_⟩
      exact Plan.faults_join_done.2 ⟨i, hl.isReady_eq ▸ hf⟩

theorem sweep_blocked {entries : List (Entry members)}
    (hs : (View.sweep laws).Stands entries store)
    (h : (View.sweep laws).Asleep host place entries store) :
    (∃ id number part, (View.sweep laws).Waits place entries id number part) ∧
    (Plan.join count plans .done).result? host (store.isReady host) = none ∧
    ((∀ error, ¬ (Plan.join count plans .done).Faults host (store.isReady host) error) →
      ∀ id, (Plan.join count plans .done).Begins host (store.isReady host) id → id ∈ store.begun) := by
  obtain ⟨hpast, i, s, hi⟩ := hs
  have hmember : ∀ j t, .inr ⟨j, some t⟩ ∈ entries → (laws j).Asleep host (j :: place) t store :=
    fun j t hj => ⟨h.idle j t hj, fun id number part hw => h.not_ready id number part ⟨j, t, hj, hw⟩⟩
  have hstands : ∀ j, ∃ entry ∈ entries, Past laws store j entry := fun j =>
    exists_of_mem_of_forall₂ hpast (List.mem_finRange j)
  obtain ⟨⟨id, number, part, hw⟩, hnone, -⟩ :=
    (laws i).blocked (stands_of_mem hpast hi) (hmember i s hi)
  refine ⟨⟨id, number, part, i, s, hi, hw⟩, Plan.result?_join_of_none hnone, fun hf id hid => ?_⟩
  obtain ⟨j, hj⟩ := Plan.begins_join_done.1 hid
  obtain ⟨entry, he, hp⟩ := hstands j
  match entry with
  | .inl _ => exact hp.2 id hj
  | .inr ⟨k, state⟩ =>
    obtain ⟨rfl, t, rfl, ht⟩ := hp
    exact ((laws k).blocked ht (hmember k t he)).2.2
      (fun error hfe => hf error (Plan.faults_join_done.2 ⟨k, hfe⟩)) id hj

/-- A small join keeps the law of its members. -/
def Lawful.sweep (laws : ∀ i, Lawful host (plans i) (members i)) :
    Lawful host (.join count plans .done) (Process.sweep members) where
  toView := .sweep laws
  suffix_of_waits := by
    rintro place state id number part ⟨i, s, -, hw⟩
    exact suffix_of_cons_suffix ((laws i).suffix_of_waits hw)
  stands_mono hr hb h := ⟨h.1.imp fun _ _ => Past.mono hr hb, h.2⟩
  alert_mono hw h i s hi :=
    (laws i).alert_mono (fun id number part hp => hw id number part ⟨i, s, hi, hp⟩) (h i s hi)
  waits_of_hear := by
    rintro path place state id number part ⟨i, s, hi, hw⟩
    obtain ⟨earlier, he, ⟨-, rfl⟩ | ⟨rest, rfl, rfl⟩⟩ := of_mem_hear hi
    · exact ⟨i, s, he, hw⟩
    · exact ⟨i, earlier, he, (laws i).waits_of_hear hw⟩
  stands_hear path := by
    rintro ⟨hp, i, s, hi⟩
    obtain ⟨later, hl, -⟩ := exists_mem_hear path hi
    exact ⟨past_hear hp, i, later, hl⟩
  alert_hear path h := Sweep.alert_hear (fun i => (laws i).heeds) path h
  leaves {place state store} h hown := by
    refine leaveAll_leaves (fun i => (laws i).toView) h (fun i _ => (laws i).leaves)
      fun member hm id number part hw => ?_
    exact hown id number part ⟨member.1, member.2, mem_of_mem_live hm, hw⟩
  steps h hrest := (sweep_advance h hrest).1
  reaches h hrest := (sweep_advance h hrest).2
  blocked := sweep_blocked

end Process
end Stencil
