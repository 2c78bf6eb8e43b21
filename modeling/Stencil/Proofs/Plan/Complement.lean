import Stencil.Proofs.Number.Binary64
import Stencil.Proofs.Plan.Prospect
import Stencil.Render

/-!
# Sections and inverted sections

A section renders its children in some contexts, one after the other: in the context itself, or with
the map or each element of the list that it has found as the new innermost view, or in none. The
inverted section over the same path renders them once, in the context itself, just when the section
renders them in none.
-/

namespace Stencil

namespace Render

variable {host : Host} {ready : PendingId → Bool} {fuel : Nat} {setting : Setting} {expand : Expand}
  {context : Context} {body : Context → Plan Text} {frames : List (Plan Context)} {plan : Plan Text}

/-- The contexts in which a section renders its children for what its path has found, each once it has
come about. -/
def passes (fuel : Nat) (context : Context) : Option Value → List (Plan Context)
  | none | some .null | some (.bool false) | some (.string []) => []
  | some (.number n) => if n.isZero then [] else [.done context]
  | some (.list items) => items.map fun item => (item.settle fuel).bind fun v => .done (context.push v)
  | some (.map entries) => [.done (context.push (.map entries))]
  | some _ => [.done context]

/-- The contexts in which the inverted section renders them instead. -/
def instead (context : Context) : List (Plan Context) → List (Plan Context)
  | [] => [.done context]
  | _ :: _ => []

/-- A plan that renders a text in these contexts, one after the other. -/
inductive Renders (body : Context → Plan Text) : List (Plan Context) → Plan Text → Prop
  | never : Renders body [] (.done [])
  | once (frame : Plan Context) : Renders body [frame] (frame.bind body)
  | inTurn {ι : Type} (items : List ι) (frame : ι → Plan Context) :
    Renders body (items.map frame)
      ((Plan.each items fun item => (frame item).bind body).bind fun texts => .done texts.flatten)

/-- What a block does once its path has found something. -/
def decided (fuel : Nat) (expand : Expand) (body : Context → Plan Text) (raw : Thunk Text)
    (tags : Tags) (context : Context) (inverted : Bool) (found : Option Value) : Plan Text :=
  (deciding fuel found).bind fun value =>
    if inverted then
      if isShown value then .done [] else body context
    else
      match value with
      | some v => if v.isTruthy then shown fuel expand body raw tags context v else .done []
      | none => .done []

/-- What a plan comes to that gets so far, and from there renders a text in these contexts. -/
structure Comes {α : Type} (host : Host) (ready : PendingId → Bool) (first : Plan α)
    (body : Context → Plan Text) (frames : List (Plan Context)) (plan : Plan Text) : Prop where
  result : plan.result? host ready =
    (frames.mapM fun frame : Plan Context => (frame.bind body).result? host ready).map List.flatten
  begins : ∀ id, plan.Begins host ready id ↔
    first.Begins host ready id ∨ ∃ frame ∈ frames, (frame.bind body).Begins host ready id
  faults : ∀ error, plan.Faults host ready error ↔
    ∃ frame ∈ frames, (frame.bind body).Faults host ready error

theorem instead_eq_iff {frames : List (Plan Context)} :
    instead context frames = [.done context] ↔ frames = [] := by
  cases frames <;> simp [instead]

theorem node_block (path : KeyPath) (inverted : Bool) (children : List Node) (raw : Thunk Text)
    (tags : Tags) (span : Span) :
    node fuel setting expand (.block path inverted children raw tags span) context =
      (context.lookup fuel path).bind (decided fuel expand (siblings fuel setting expand children) raw
        tags context inverted) := by
  simp only [node, Plan.bind_eq, Plan.pure_eq]
  rfl

namespace Renders

theorem result? (h : Renders body frames plan) : plan.result? host ready =
    (frames.mapM fun frame : Plan Context => (frame.bind body).result? host ready).map List.flatten := by
  cases h with
  | never => rfl
  | once frame =>
    cases hr : (frame.bind body).result? host ready <;> simp [hr]
  | inTurn items frame =>
    rw [Plan.result?_bind, Plan.result?_each, List.mapM_map, Option.map_eq_bind]
    rfl

theorem begins_iff (h : Renders body frames plan) {id : PendingId} : plan.Begins host ready id ↔
    ∃ frame ∈ frames, (frame.bind body).Begins host ready id := by
  cases h with
  | never => simp [Plan.Begins]
  | once frame => simp
  | inTurn items frame => simp [Plan.begins_bind, Plan.begins_each, Plan.Begins]

theorem faults_iff (h : Renders body frames plan) {error : Error} : plan.Faults host ready error ↔
    ∃ frame ∈ frames, (frame.bind body).Faults host ready error := by
  cases h with
  | never => simp [Plan.Faults]
  | once frame => simp
  | inTurn items frame => simp [Plan.faults_bind, Plan.faults_each, Plan.Faults]

/-- What comes after the result of a first plan, is what there is to come. -/
theorem comes {α : Type} {first : Plan α} {a : α} {rest : α → Plan Text}
    (h : Renders body frames (rest a)) (hfirst : first.result? host ready = some a) :
    Comes host ready first body frames (first.bind rest) where
  result := by
    rw [Plan.result?_bind, hfirst]
    exact h.result?
  begins id := by
    rw [Plan.begins_bind, hfirst]
    simp [h.begins_iff]
  faults error := by
    rw [Plan.faults_bind, hfirst]
    simp [h.faults_iff, Plan.not_faults_of_result? hfirst]

end Renders

variable {found : Option Value} {raw : Thunk Text} {tags : Tags}

theorem deciding_of_ne (plain : ∀ lambda, found ≠ some (.lambda lambda)) :
    deciding fuel found = .done found := by
  rcases found with _ | v
  · rfl
  · cases v with
    | lambda lambda => exact absurd rfl (plain lambda)
    | _ => rfl

/-- What is not shown is rendered in no context. -/
theorem isShown_eq_false_iff (found : Option Value) :
    isShown found = false ↔ passes fuel context found = [] := by
  rcases found with _ | v
  · simp [isShown, passes]
  · cases v with
    | null | lambda | pending | map => simp [isShown, Value.isTruthy, passes]
    | bool b => cases b <;> simp [isShown, Value.isTruthy, passes]
    | number n => cases hn : n.isZero <;> simp [isShown, Value.isTruthy, passes, hn]
    | string t => cases t <;> simp [isShown, Value.isTruthy, passes]
    | list items => cases items <;> simp [isShown, Value.isTruthy, passes]

/-- What is shown is rendered in its contexts. -/
theorem renders_shown {v : Value} (plain : ∀ lambda, v ≠ .lambda lambda) (hv : v.isTruthy = true) :
    Renders body (passes fuel context (some v)) (shown fuel expand body raw tags context v) := by
  cases v with
  | null => cases hv
  | bool b =>
    cases b with
    | false => cases hv
    | true => exact .once (.done context)
  | number n =>
    have hn : n.isZero = false := by simpa [Value.isTruthy] using hv
    rw [passes, if_neg (by simp [hn])]
    exact .once (.done context)
  | string t =>
    cases t with
    | nil => cases hv
    | cons c t => exact .once (.done context)
  | list items =>
    have hframes : Renders body (items.map _) _ := .inTurn items fun item =>
      (item.settle fuel).bind fun v => .done (context.push v)
    simp only [Plan.bind_assoc, Plan.pure_bind] at hframes
    exact hframes
  | map entries => exact .once (.done (context.push (.map entries)))
  | lambda lambda => exact absurd rfl (plain lambda)
  | pending id => exact .once (.done context)

/-- A section renders its children in its contexts. -/
theorem renders_section (plain : ∀ lambda, found ≠ some (.lambda lambda)) :
    Renders body (passes fuel context found) (decided fuel expand body raw tags context false found) := by
  rw [decided, deciding_of_ne plain, Plan.pure_bind]
  rcases found with _ | v
  · exact .never
  · by_cases hv : v.isTruthy = true
    · simpa [hv] using renders_shown (fun lambda hl => plain lambda (hl ▸ rfl)) hv
    · have hnone : passes fuel context (some v) = [] :=
        (isShown_eq_false_iff (some v)).1 (by simpa [isShown] using hv)
      rw [hnone]
      simpa [hv] using Renders.never

/-- An inverted section renders them in the others. -/
theorem renders_inverted (plain : ∀ lambda, found ≠ some (.lambda lambda)) :
    Renders body (instead context (passes fuel context found))
      (decided fuel expand body raw tags context true found) := by
  rw [decided, deciding_of_ne plain, Plan.pure_bind]
  cases hshown : isShown found with
  | false =>
    rw [(isShown_eq_false_iff found).1 hshown]
    exact .once (.done context)
  | true =>
    have hsome : passes fuel context found ≠ [] := by
      rw [ne_eq, ← isShown_eq_false_iff, hshown]
      nofun
    obtain ⟨frame, frames, hframes⟩ := List.exists_cons_of_ne_nil hsome
    rw [hframes]
    exact .never

section
variable (plain : ∀ lambda, found ≠ some (.lambda lambda))
include plain

/-- What shows nothing leaves it to the inverted section. -/
theorem decided_of_passes_nil (h : passes fuel context found = []) :
    decided fuel expand body raw tags context false found = .done [] ∧
      decided fuel expand body raw tags context true found = body context := by
  have hshown := (isShown_eq_false_iff found).2 h
  rw [decided, decided, deciding_of_ne plain, Plan.pure_bind, Plan.pure_bind]
  rcases found with _ | v
  · exact ⟨rfl, rfl⟩
  · rw [isShown] at hshown
    simp [isShown, hshown]

theorem decided_of_passes_ne_nil (h : passes fuel context found ≠ []) :
    decided fuel expand body raw tags context true found = .done [] := by
  have hshown : isShown found = true := by
    rwa [ne_eq, ← isShown_eq_false_iff, Bool.not_eq_false] at h
  rw [decided, deciding_of_ne plain, Plan.pure_bind, hshown]
  rfl

end

/-- A section and the inverted section over the same path are complementary. When the path has found
something that is no lambda, the section renders its children in its contexts and the inverted one in
the others: once, in the context itself, if there are none, and else nothing. So it is with what is
there as with what comes about, and with what comes of it when just some values are ready. -/
theorem block_complement (host : Host) (fuel : Nat) (setting : Setting) (expand : Expand)
    (path : KeyPath) (children : List Node) (raw : Thunk Text) (tags : Tags) (span : Span)
    (context : Context) :
    let body := siblings fuel setting expand children
    let block inverted :=
      node fuel setting expand (.block path inverted children raw tags span) context
    let rest := decided fuel expand body raw tags context
    (∀ inverted, block inverted = (context.lookup fuel path).bind (rest inverted)) ∧
    ∀ found, (∀ lambda, found ≠ some (.lambda lambda)) →
      let frames := passes fuel context found
      let others := instead context frames
      Renders body frames (rest false found) ∧ Renders body others (rest true found) ∧
      (others = [.done context] ↔ frames = []) ∧
      (frames = [] → rest false found = .done [] ∧ rest true found = body context) ∧
      (frames ≠ [] → others = [] ∧ rest true found = .done []) ∧
      ∀ ready, (context.lookup fuel path).result? host ready = some found →
        Comes host ready (context.lookup fuel path) body frames (block false) ∧
          Comes host ready (context.lookup fuel path) body others (block true) := by
  intro body block rest
  have hblock : ∀ inverted, block inverted = (context.lookup fuel path).bind (rest inverted) :=
    fun inverted => node_block path inverted children raw tags span
  refine ⟨hblock, fun found plain => ?_⟩
  have hsection : Renders body (passes fuel context found) (rest false found) := renders_section plain
  have hinverted : Renders body (instead context (passes fuel context found)) (rest true found) :=
    renders_inverted plain
  refine ⟨hsection, hinverted, instead_eq_iff, decided_of_passes_nil plain, fun hsome => ⟨?_, ?_⟩,
    fun ready hlookup => ⟨?_, ?_⟩⟩
  · obtain ⟨frame, frames, hframes⟩ := List.exists_cons_of_ne_nil hsome
    rw [hframes]
    rfl
  · exact decided_of_passes_ne_nil plain hsome
  · rw [hblock]
    exact hsection.comes hlookup
  · rw [hblock]
    exact hinverted.comes hlookup

/-- A list that comes about, with an element that comes about. -/
def itemsHost : Host where
  pending
    | 0 => ⟨.ok (.list [.pending 1, .bool false]), false⟩
    | _ => ⟨.ok (.string ['x']), false⟩
  inline _ _ := .null
  block _ _ _ := .value .null

/-- Both elements are rendered, and the inverted section is empty. -/
theorem block_complement_items (setting : Setting) :
    let context := Context.root (.map [(['a'], .pending 0)])
    let block inverted := node 1 setting (fun _ _ _ => .exhausted)
      (.block (.keys [['a']]) inverted [.interpolation .implicit false ⟨6, 11⟩]
        (.mk fun _ => "{{.}}".toList) default ⟨0, 17⟩) context
    (context.lookup 1 (.keys [['a']])).result? itemsHost (fun _ => true) =
        some (some (.list [.pending 1, .bool false])) ∧
      (block false).result? itemsHost (fun _ => true) = some "xfalse".toList ∧
      (block true).result? itemsHost (fun _ => true) = some [] := by
  intro context block
  have hlookup : (context.lookup 1 (.keys [['a']])).result? itemsHost (fun _ => true) =
      some (some (.list [.pending 1, .bool false])) := rfl
  obtain ⟨-, hfound⟩ := block_complement itemsHost 1 setting (fun _ _ _ => .exhausted) (.keys [['a']])
    [.interpolation .implicit false ⟨6, 11⟩] (.mk fun _ => "{{.}}".toList) default ⟨0, 17⟩ context
  obtain ⟨-, -, -, -, -, hcomes⟩ := hfound (some (.list [.pending 1, .bool false])) nofun
  obtain ⟨hsection, hinverted⟩ := hcomes _ hlookup
  exact ⟨hlookup, hsection.result.trans rfl, hinverted.result.trans rfl⟩

end Render
end Stencil
