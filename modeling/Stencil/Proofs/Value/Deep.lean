import Stencil.Proofs.Plan.Stints
import Stencil.Proofs.Value.Finite

/-!
# Settling in depth

A value settled in depth is the value with each pending layer replaced by what it yields, down through
the elements of lists; maps stay as they are, with all that is pending inside them. It exists when
there is an end on the way down and nothing that is met there fails. Settling comes to it whether or
not it looks first at what is settled already, and begins just what it meets.
-/

namespace Stencil
namespace Value

/-- The pending values that settling in depth meets: under other pending values and in lists. -/
inductive Exposes (host : Host) : Value → PendingId → Prop
  | here (id : PendingId) : Exposes host (.pending id) id
  | yielded {id other : PendingId} {v : Value} (yields : (host.pending id).result = .ok v)
    (h : Exposes host v other) : Exposes host (.pending id) other
  | item {items : List Value} {v : Value} {id : PendingId} (mem : v ∈ items)
    (h : Exposes host v id) : Exposes host (.list items) id

/-- There is an end on the way down through pending values and lists. -/
inductive Bottoms (host : Host) : Value → Prop
  | plain {v : Value} (pending : v.kind ≠ .pending) (list : v.kind ≠ .array) : Bottoms host v
  | pending {id : PendingId} (h : ∀ v, (host.pending id).result = .ok v → Bottoms host v) :
    Bottoms host (.pending id)
  | list {items : List Value} (h : ∀ v ∈ items, Bottoms host v) : Bottoms host (.list items)

/-- The second value is the first with each pending layer replaced by its value. -/
inductive Resolves (host : Host) : Value → Value → Prop
  | plain {v : Value} (pending : v.kind ≠ .pending) (list : v.kind ≠ .array) : Resolves host v v
  | pending {id : PendingId} {v w : Value} (yields : (host.pending id).result = .ok v)
    (h : Resolves host v w) : Resolves host (.pending id) w
  | list {items others : List Value} (length_eq : items.length = others.length)
    (h : ∀ {v w}, (v, w) ∈ items.zip others → Resolves host v w) :
    Resolves host (.list items) (.list others)

/-- A plan that settles a value in depth, whichever parts of it it leaves alone as settled. -/
inductive Deepens : Value → Plan Value → Prop
  | settled {v : Value} (h : v.isSettled = true) : Deepens v (.done v)
  | exhausted (v : Value) : Deepens v .exhausted
  | pending {id : PendingId} {next : Value → Plan Value} (h : ∀ v, Deepens v (next v)) :
    Deepens (.pending id) (.await id next)
  | list {items : List Value} {f : Value → Plan Value} (h : ∀ v ∈ items, Deepens v (f v)) :
    Deepens (.list items) ((Plan.each items f).bind fun items => .done (.list items))

/-- What an advance of such a plan has done: it begins nothing but what is exposed, and all of that if
it ends with a result, and it fails with the failure of such a value. -/
structure Fares {σ : Type} (host : Host) (v : Value) (store : Store) (advance : Advance σ Value) :
    Prop where
  begun : ∀ id ∈ advance.store.begun, id ∈ store.begun ∨ v.Exposes host id
  result : ∀ w, advance.reached = .ended (.ok w) →
    v.Resolves host w ∧ ∀ id, v.Exposes host id → id ∈ advance.store.begun
  failure : ∀ error, advance.reached = .ended (.error error) →
    ∃ id, v.Exposes host id ∧ (host.pending id).result = .error error

/-- Settles each element of a list in depth, settled or not. -/
def settleItems (fuel : Nat) (items : List Value) : Plan Value :=
  (Plan.each items (settleDeep fuel)).bind fun items => .done (.list items)

variable {host : Host} {ready : PendingId → Bool} {fuel n m : Nat} {v w other : Value}
  {items : List Value} {plan : Plan Value} {id : PendingId}

/-- Induction down the lists in a value. -/
theorem list_induction {P : Value → Prop} (plain : ∀ v, v.kind ≠ .array → P v)
    (list : ∀ items, (∀ v ∈ items, P v) → P (.list items)) (v : Value) : P v := by
  cases v with
  | list items => exact list items fun v _ => list_induction plain list v
  | _ => exact plain _ (by simp [kind])

theorem isSettled_list : isSettled (.list items) = true ↔ ∀ v ∈ items, v.isSettled = true := by
  rw [isSettled, allSettled_eq_all, List.all_eq_true]

theorem isSettled_of_plain (pending : v.kind ≠ .pending) (list : v.kind ≠ .array) :
    v.isSettled = true := by
  cases v with
  | pending => exact absurd rfl pending
  | list => exact absurd rfl list
  | _ => rfl

/-- Nothing is exposed in a settled value. -/
theorem not_exposes_of_isSettled (hv : v.isSettled = true) : ¬ v.Exposes host id := by
  intro h
  induction h with
  | here | yielded => cases hv
  | item mem _ ih => exact ih (isSettled_list.1 hv _ mem)

@[simp] theorem exposes_pending {first : PendingId} : (Value.pending first).Exposes host id ↔
    id = first ∨ ∃ v, (host.pending first).result = .ok v ∧ v.Exposes host id := by
  constructor
  · intro h
    cases h with
    | here => exact .inl rfl
    | yielded yields h => exact .inr ⟨_, yields, h⟩
  · rintro (rfl | ⟨v, yields, h⟩)
    · exact .here id
    · exact .yielded yields h

@[simp] theorem exposes_list :
    (Value.list items).Exposes host id ↔ ∃ v ∈ items, v.Exposes host id := by
  constructor
  · intro h
    cases h with
    | item mem h => exact ⟨_, mem, h⟩
  · rintro ⟨v, mem, h⟩
    exact .item mem h

@[simp] theorem not_exposes_map {entries : List (Text × Value)} :
    ¬ (Value.map entries).Exposes host id := nofun

@[simp] theorem not_exposes_string {text : Text} : ¬ (Value.string text).Exposes host id := nofun

theorem resolves_list {others : List Value} :
    Resolves host (.list items) (.list others) ↔ List.Forall₂ (Resolves host) items others := by
  rw [List.forall₂_iff_zip]
  constructor
  · intro h
    cases h with
    | plain _ list => exact absurd rfl list
    | list length_eq h => exact ⟨length_eq, h⟩
  · exact fun h => .list h.1 h.2

/-- A settled value is what it is settled to. -/
theorem resolves_self (hv : v.isSettled = true) : v.Resolves host v := by
  induction v using list_induction with
  | plain v list =>
    refine .plain (fun pending => ?_) list
    cases v with
    | pending => cases hv
    | _ => cases pending
  | list items ih =>
    exact resolves_list.2 (List.forall₂_same.2 fun v hm => ih v hm (isSettled_list.1 hv v hm))

namespace Resolves

theorem isSettled (h : v.Resolves host w) : w.isSettled = true := by
  induction h with
  | plain pending list => exact isSettled_of_plain pending list
  | pending _ _ ih => exact ih
  | @list items others length_eq _ ih =>
    have hall : List.Forall₂ (fun (_ : Value) w => w.isSettled = true) items others :=
      List.forall₂_iff_zip.2 ⟨length_eq, ih⟩
    rw [isSettled_list]
    intro w hm
    obtain ⟨_, -, hw⟩ := exists_of_mem_of_forall₂ hall.flip hm
    exact hw

theorem unique (h : v.Resolves host w) (ho : v.Resolves host other) : other = w := by
  induction h generalizing other with
  | plain pending list =>
    cases ho with
    | plain => rfl
    | pending => exact absurd rfl pending
    | list => exact absurd rfl list
  | pending yields _ ih =>
    cases ho with
    | plain pending => exact absurd rfl pending
    | pending yields' h => exact ih (Except.ok.inj (yields.symm.trans yields') ▸ h)
  | @list items others length_eq _ ih =>
    cases ho with
    | plain _ list => exact absurd rfl list
    | @list _ more length_eq' h' =>
      congr 1
      refine List.ext_getElem (length_eq'.symm.trans length_eq) fun i hi hi' => ?_
      have hitem : i < items.length := length_eq.symm ▸ hi'
      have hz : (items[i], others[i]) ∈ items.zip others :=
        List.mem_iff_getElem.2 ⟨i, by simp; omega, by simp⟩
      have hz' : (items[i], more[i]) ∈ items.zip more :=
        List.mem_iff_getElem.2 ⟨i, by simp; omega, by simp⟩
      exact ih hz (h' hz')

theorem bottoms (h : v.Resolves host w) : v.Bottoms host := by
  induction h with
  | plain pending list => exact .plain pending list
  | pending yields _ ih => exact .pending fun u hu => Except.ok.inj (yields.symm.trans hu) ▸ ih
  | @list items others length_eq _ ih =>
    have hall : List.Forall₂ (fun v (_ : Value) => v.Bottoms host) items others :=
      List.forall₂_iff_zip.2 ⟨length_eq, ih⟩
    refine .list fun v hm => ?_
    obtain ⟨_, -, hv⟩ := exists_of_mem_of_forall₂ hall hm
    exact hv

/-- What has been replaced has yielded. -/
theorem succeeds (h : v.Resolves host w) (he : v.Exposes host id) :
    ∃ u, (host.pending id).result = .ok u := by
  induction he generalizing w with
  | here id =>
    cases h with
    | plain pending => exact absurd rfl pending
    | pending yields => exact ⟨_, yields⟩
  | yielded yields _ ih =>
    cases h with
    | plain pending => exact absurd rfl pending
    | pending yields' h => exact ih (Except.ok.inj (yields'.symm.trans yields) ▸ h)
  | item mem _ ih =>
    cases h with
    | plain _ list => exact absurd rfl list
    | list length_eq h =>
      obtain ⟨w, -, hw⟩ := exists_of_mem_of_forall₂ (List.forall₂_iff_zip.2 ⟨length_eq, h⟩) mem
      exact ih hw

end Resolves

/-- Where all that is exposed yields and there is an end, the value can be settled in depth. -/
theorem Bottoms.exists_resolves (h : v.Bottoms host)
    (succeed : ∀ id, v.Exposes host id → ∃ u, (host.pending id).result = .ok u) :
    ∃ w, v.Resolves host w := by
  induction h with
  | plain pending list => exact ⟨_, .plain pending list⟩
  | @pending id _ ih =>
    obtain ⟨v, hv⟩ := succeed id (.here id)
    obtain ⟨w, hw⟩ := ih v hv fun other he => succeed other (.yielded hv he)
    exact ⟨w, .pending hv hw⟩
  | @list items _ ih =>
    have hitems : ∀ v ∈ items, ∃ w, v.Resolves host w := fun v hm =>
      ih v hm fun id he => succeed id (.item hm he)
    choose! settled hsettled using hitems
    refine ⟨.list (items.map settled), resolves_list.2 ?_⟩
    exact List.forall₂_map_right_iff.2 (List.forall₂_same.2 hsettled)

theorem exists_resolves_iff : (∃ w, v.Resolves host w) ↔
    v.Bottoms host ∧ ∀ id, v.Exposes host id → ∃ u, (host.pending id).result = .ok u :=
  ⟨fun ⟨_, h⟩ => ⟨h.bottoms, fun _ => h.succeeds⟩, fun h => h.1.exists_resolves h.2⟩

/-- What is finite has an end on that way too. -/
theorem IsFinite.bottoms (h : v.IsFinite host) : v.Bottoms host := by
  induction h with
  | intro v _ ih =>
    cases v with
    | pending id => exact .pending fun u hu => ih u (mem_parts_pending.2 hu)
    | list items => exact .list ih
    | _ => exact .plain nofun nofun

/-- It ends with a result just if there is one to come to. -/
theorem Fares.ok_iff {σ : Type} {store : Store} {advance : Advance σ Value}
    (h : v.Fares host store advance) {outcome : Except Error Value}
    (hended : advance.reached = .ended outcome) (w : Value) :
    outcome = .ok w ↔ v.Resolves host w := by
  constructor
  · rintro rfl
    exact (h.result w hended).1
  · intro hw
    cases outcome with
    | ok other => rw [hw.unique (h.result other hended).1]
    | error error =>
      obtain ⟨id, he, hfails⟩ := h.failure error hended
      obtain ⟨u, hu⟩ := hw.succeeds he
      cases hfails.symm.trans hu

namespace Deepens

theorem callFree (h : Deepens v plan) : plan.CallFree := by
  induction h with
  | settled | exhausted => trivial
  | pending _ ih => exact ih
  | list _ ih => exact (Plan.CallFree.each ih).bind fun _ => trivial

theorem resolves (h : Deepens v plan) (hw : plan.Gives host w) : v.Resolves host w := by
  induction h generalizing w with
  | settled hv =>
    cases hw
    exact resolves_self hv
  | exhausted => exact hw.elim
  | pending _ ih =>
    obtain ⟨u, hu, hw⟩ := hw
    exact .pending hu (ih u hw)
  | @list items f _ ih =>
    obtain ⟨others, heach, rfl⟩ := Plan.gives_bind.1 hw
    refine resolves_list.2 (List.forall₂_iff_zip.2 ?_)
    obtain ⟨length_eq, hz⟩ := List.forall₂_iff_zip.1 (Plan.gives_each.1 heach)
    exact ⟨length_eq, fun hm => ih _ (List.of_mem_zip hm).1 (hz hm)⟩

theorem exposes_of_begins (h : Deepens v plan) (hb : plan.Begins host ready id) :
    v.Exposes host id := by
  induction h with
  | settled | exhausted => exact hb.elim
  | pending _ ih =>
    rcases hb with rfl | ⟨-, u, hu, hb⟩
    · exact .here _
    · exact .yielded hu (ih u hb)
  | list _ ih =>
    rcases Plan.begins_bind.1 hb with hb | ⟨_, -, hb⟩
    · obtain ⟨v, hm, hb⟩ := Plan.begins_each.1 hb
      exact .item hm (ih v hm hb)
    · exact hb.elim

theorem failure_of_faults (h : Deepens v plan) {error : Error}
    (hf : plan.Faults host ready error) :
    ∃ id, v.Exposes host id ∧ (host.pending id).result = .error error := by
  induction h with
  | settled | exhausted => exact hf.elim
  | @pending id next _ ih =>
    obtain ⟨-, hf | ⟨u, hu, hf⟩⟩ := hf
    · exact ⟨id, .here id, hf⟩
    · obtain ⟨other, he, hf⟩ := ih u hf
      exact ⟨other, .yielded hu he, hf⟩
  | list _ ih =>
    rcases Plan.faults_bind.1 hf with hf | ⟨_, -, hf⟩
    · obtain ⟨v, hm, hf⟩ := Plan.faults_each.1 hf
      obtain ⟨id, he, hf⟩ := ih v hm hf
      exact ⟨id, .item hm he, hf⟩
    · exact hf.elim

/-- A plan that has its result has begun all that is exposed. -/
theorem begins_of_exposes (h : Deepens v plan) (hw : plan.result? host ready = some w)
    (he : v.Exposes host id) : plan.Begins host ready id := by
  induction h generalizing w with
  | settled hv => exact absurd he (not_exposes_of_isSettled hv)
  | exhausted => cases hw
  | @pending first next _ ih =>
    rw [Plan.result?] at hw
    split at hw
    · split at hw
      · rename_i hr _ u hu
        cases he with
        | here => exact .inl rfl
        | yielded hv he => exact .inr ⟨hr, u, hu, ih u hw (Except.ok.inj (hv.symm.trans hu) ▸ he)⟩
      · cases hw
    · cases hw
  | @list items f _ ih =>
    cases he with
    | @item _ v _ mem he =>
      rw [Plan.result?_bind, Option.bind_eq_some_iff] at hw
      obtain ⟨others, heach, -⟩ := hw
      rw [Plan.result?_each] at heach
      obtain ⟨u, hu⟩ := exists_of_mem_of_mapM heach mem
      exact Plan.begins_bind.2 (.inl (Plan.begins_each.2 ⟨v, mem, ih v mem hu he⟩))

/-- Whatever the plan leaves alone as settled, every stint of it fares alike. -/
theorem fares (h : Deepens v plan) {place : Place} {store : Store}
    {advance : Advance (plan.process host).State Value}
    (stint : plan.Stint host place n store advance) : v.Fares host store advance := by
  obtain ⟨hsteps, hreach⟩ := stint.reaches h.callFree
  refine ⟨fun id hb => (hsteps.begun_of id hb).imp_right h.exposes_of_begins, ?_, ?_⟩
  · intro w hw
    simp only [Process.View.Reaches, hw] at hreach
    obtain ⟨hresult, hbegun⟩ := hreach
    exact ⟨h.resolves (Plan.gives_of_result? hresult), fun id he =>
      hbegun id (h.begins_of_exposes hresult he)⟩
  · intro error hw
    simp only [Process.View.Reaches, hw] at hreach
    exact h.failure_of_faults hreach

end Deepens

theorem deepens_deepen (h : ∀ v, Deepens v (v.settleDeep n)) (hv : v.kind ≠ .pending) :
    Deepens v (deepen n v) := by
  cases v with
  | pending => exact absurd rfl hv
  | list items =>
    rw [deepen]
    split
    · rename_i hall
      exact .settled (isSettled_list.2 (List.all_eq_true.1 hall))
    · exact .list fun v _ => h v
  | _ => exact .settled rfl

theorem deepens_settle (h : ∀ v, Deepens v (v.settleDeep n)) (fuel : Nat) (v : Value) :
    Deepens v ((v.settle fuel).bind (deepen n)) := by
  induction fuel generalizing v with
  | zero =>
    cases v with
    | pending id => exact .exhausted _
    | _ => exact deepens_deepen h nofun
  | succ fuel ih =>
    cases v with
    | pending id => exact .pending ih
    | _ => exact deepens_deepen h nofun

theorem deepens_settleDeep (fuel : Nat) (v : Value) : Deepens v (v.settleDeep fuel) := by
  induction fuel generalizing v with
  | zero => exact .exhausted v
  | succ fuel ih =>
    rw [settleDeep_succ]
    exact deepens_settle ih (fuel + 1) v

theorem deepens_settleItems (fuel : Nat) (items : List Value) :
    Deepens (.list items) (settleItems fuel items) :=
  .list fun v _ => deepens_settleDeep fuel v

/-- The end on the way down bounds all there is to do. -/
theorem Bottoms.exists_confined (h : v.Bottoms host) {ids : PendingId → Prop}
    (own : ∀ id, v.Exposes host id → ids id) : ∃ bound, ∀ n m, bound ≤ n → bound ≤ m →
      ((v.settle n).bind (deepen m)).Confined host ids bound := by
  induction h with
  | plain pending list =>
    refine ⟨0, fun n m _ _ => ?_⟩
    rw [settle_of_kind_ne pending, Plan.pure_bind, deepen_of_settled (isSettled_of_plain pending list)]
    trivial
  | @pending id _ ih =>
    have hrest : ∃ bound, ∀ u, (host.pending id).result = .ok u → ∀ n m, bound ≤ n → bound ≤ m →
        ((u.settle n).bind (deepen m)).Confined host ids bound := by
      cases hr : (host.pending id).result with
      | error => exact ⟨0, nofun⟩
      | ok u =>
        obtain ⟨bound, hbound⟩ := ih u hr fun other he => own other (.yielded hr he)
        refine ⟨bound, ?_⟩
        rintro _ ⟨⟩
        exact hbound
    obtain ⟨bound, hbound⟩ := hrest
    refine ⟨bound + 1, fun n m hn hm => ?_⟩
    obtain ⟨n, rfl⟩ : ∃ k, n = k + 1 := ⟨n - 1, by omega⟩
    exact ⟨own id (.here id), bound, by omega, fun u hu => hbound u hu n m (by omega) (by omega)⟩
  | @list items _ ih =>
    obtain ⟨bound, hbound⟩ := exists_common_bound
      (fun hle hc n m hn hm => (hc n m (hle.trans hn) (hle.trans hm)).mono hle) fun v hm =>
        ih v hm fun id he => own id (.item hm he)
    refine ⟨max (bound + 1) (items.length * (bound + 1)), fun n m _ hm => ?_⟩
    have hlt : bound + 1 ≤ m := (le_max_left ..).trans hm
    obtain ⟨m, rfl⟩ : ∃ k, m = k + 1 := ⟨m - 1, by omega⟩
    have hkind : (Value.list items).kind ≠ .pending := nofun
    rw [settle_of_kind_ne hkind, Plan.pure_bind, deepen]
    split
    · trivial
    · have hitems : (Plan.each items (settleDeep (m + 1))).Confined host ids
          (items.length * (bound + 1)) := by
        refine .each fun v hv => ?_
        rw [settleDeep_succ]
        exact hbound v hv (m + 1) m (by omega) (by omega)
      exact hitems.bind_done.mono (le_max_right ..)

/-- What the shortcut for settled lists leaves out changes nothing. -/
theorem result?_settleItems (h : ∀ v ∈ items, v.isSettled = true) (fuel : Nat)
    (ready : PendingId → Bool) :
    (settleItems (fuel + 1) items).result? host ready = some (.list items) := by
  have hitems : items.mapM (fun v => (v.settleDeep (fuel + 1)).result? host ready) = some items := by
    refine mapM_eq_some_iff.2 (List.forall₂_same.2 fun v hm => ?_)
    rw [settleDeep_of_settled (h v hm)]
    rfl
  rw [settleItems, Plan.result?_bind, Plan.result?_each, hitems]
  rfl

/-- Settling in depth is exact. There is one value that a value is settled to, if there is an end on the
way down and all that is exposed yields, and it is settled. Every advance that ends with a result ends
with that value; it has begun all that is exposed, which none goes beyond, and a failure is one of what
is exposed. So it ends, be it with a result or a failure, once all that is exposed is ready, after a
bounded number of advances. A settled list is done at once, as settling each of its elements would have
it. -/
theorem settleDeep_exact (host : Host) (v : Value) :
    ((∃ w, v.Resolves host w) ↔
      v.Bottoms host ∧ ∀ id, v.Exposes host id → ∃ u, (host.pending id).result = .ok u) ∧
    (∀ w, v.Resolves host w → (∀ other, v.Resolves host other → other = w) ∧ w.isSettled = true ∧
      ∀ fuel, w.settleDeep (fuel + 1) = .done w) ∧
    (∀ fuel place n store advance, Plan.Stint host (v.settleDeep fuel) place n store advance →
      v.Fares host store advance) ∧
    (v.Bottoms host → ∃ bound, ∀ fuel, bound ≤ fuel → ∀ place n store advance,
      Plan.Stint host (v.settleDeep fuel) place n store advance →
      (∀ id, v.Exposes host id → store.isReady host id = true) →
      (∃ outcome, advance.reached = .ended outcome ∧ ∀ w, outcome = .ok w ↔ v.Resolves host w) ∨
        n < bound ∧ ∃ state, advance.reached = .waiting state) ∧
    ∀ fuel items,
      (∀ place n store advance, Plan.Stint host (settleItems fuel items) place n store advance →
        (Value.list items).Fares host store advance) ∧
      ((∀ item ∈ items, item.isSettled = true) →
        (Value.list items).settleDeep (fuel + 1) = .done (.list items) ∧
          ∀ ready, (settleItems (fuel + 1) items).result? host ready = some (.list items)) := by
  refine ⟨exists_resolves_iff, fun w hw => ⟨fun _ => hw.unique, hw.isSettled, ?_⟩, ?_, ?_, ?_⟩
  · exact settleDeep_of_settled hw.isSettled
  · exact fun fuel place n store advance => (deepens_settleDeep fuel v).fares
  · intro hbottoms
    obtain ⟨bound, hbound⟩ := hbottoms.exists_confined fun _ => id
    refine ⟨bound + 1, fun fuel hle place n store advance stint ready => ?_⟩
    obtain ⟨fuel, rfl⟩ : ∃ k, fuel = k + 1 := ⟨fuel - 1, by omega⟩
    have hfares := (deepens_settleDeep (fuel + 1) v).fares stint
    have hconfined : (v.settleDeep (fuel + 1)).Confined host (v.Exposes host) (bound + 1) := by
      rw [settleDeep_succ]
      exact (hbound (fuel + 1) fuel (by omega) (by omega)).mono (Nat.le_succ bound)
    refine (stint.ended hconfined ready).imp_left ?_
    rintro ⟨outcome, hended⟩
    exact ⟨outcome, hended, hfares.ok_iff hended⟩
  · exact fun fuel items => ⟨fun place n store advance => (deepens_settleItems fuel items).fares,
      fun hitems => ⟨settleDeep_of_settled (isSettled_list.2 hitems) fuel,
        result?_settleItems hitems fuel⟩⟩

/-- A list that comes about, with elements that come about, and one in a map that never does. -/
def nestedHost : Host where
  pending
    | 0 => ⟨.ok (.list [.pending 1, .map [(['k'], .pending 2)], .list [.pending 1]]), false⟩
    | 1 => ⟨.ok (.string ['x']), false⟩
    | _ => ⟨.error (.valueFailed []), true⟩
  inline _ _ := .null
  block _ _ _ := .value .null

/-- Both elements come about, and what is in the map is never begun. -/
theorem settleDeep_exact_nested :
    let settled := Value.list [.string ['x'], .map [(['k'], .pending 2)], .list [.string ['x']]]
    let advance := ((Value.pending 0).settleDeep 3).advance nestedHost [] .empty
    (Value.pending 0).Bottoms nestedHost ∧ (Value.pending 0).Resolves nestedHost settled ∧
      advance.reached = .ended (.ok settled) ∧
      (∀ id, id ∈ advance.store.begun ↔ id = 0 ∨ id = 1) ∧
      settled.settleDeep 1 = .done settled ∧
      (∃ bound, ∀ fuel, bound ≤ fuel → ∀ place n store advance,
        Plan.Stint nestedHost ((Value.pending 0).settleDeep fuel) place n store advance →
          advance.reached = .ended (.ok settled) ∨
            n < bound ∧ ∃ state, advance.reached = .waiting state) ∧
      (settleItems 1 [.bool true]).result? nestedHost (fun _ => false) =
        some (.list [.bool true]) := by
  intro settled advance
  have hended : advance.reached = .ended (.ok settled) := rfl
  have hexposes : ∀ id, (Value.pending 0).Exposes nestedHost id ↔ id = 0 ∨ id = 1 := by
    simp [nestedHost]
  obtain ⟨hexists, hdone, hfares, hover, hitems⟩ := settleDeep_exact nestedHost (.pending 0)
  have hfirst := hfares 3 [] 0 .empty advance (.start Store.sound_empty)
  obtain ⟨hresolves, hbegun⟩ := hfirst.result settled hended
  obtain ⟨hbottoms, -⟩ := hexists.1 ⟨settled, hresolves⟩
  obtain ⟨-, -, hagain⟩ := hdone settled hresolves
  obtain ⟨bound, hbound⟩ := hover hbottoms
  obtain ⟨-, hshort⟩ := hitems 0 [.bool true]
  refine ⟨hbottoms, hresolves, hended, fun id => ⟨fun hb => ?_, fun he => ?_⟩, hagain 0,
    ⟨bound, fun fuel hle place n store advance stint => ?_⟩, (hshort (by decide)).2 _⟩
  · have hone := (hfirst.begun id hb).resolve_left (by simp [Store.empty])
    exact (hexposes id).1 hone
  · exact hbegun id ((hexposes id).2 he)
  · refine (hbound fuel hle place n store advance stint ?_).imp_left ?_
    · intro id he
      obtain rfl | rfl := (hexposes id).1 he <;> rfl
    · rintro ⟨outcome, hended, hok⟩
      rw [hended, (hok settled).2 hresolves]

end Value
end Stencil
