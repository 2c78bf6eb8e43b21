import Stencil.Engine
import Stencil.Proofs.Plan.Chances

/-!
# Why a render comes for a pending value

A render comes for a pending value only to settle something: its view, what a path finds, an item of
a section, an element of a list that is interpolated, or what a lambda returns. This is so for
whatever the lambdas answer, and for further sources as for the first.
-/

namespace Stencil

/-- What a pending value is awaited for. -/
inductive Cause
  /-- For the view of the render. -/
  | view
  | lookup
  /-- For an item of a section. -/
  | item
  /-- For an element of an interpolated list. -/
  | element
  /-- For what a lambda returns. -/
  | returned

/-- The path of a tag that looks something up. -/
def Node.path? : Node → Option KeyPath
  | .interpolation path _ _ | .block path _ _ _ _ _ => some path
  | .text _ | .comment _ | .inclusion _ _ _ => none

/-- The texts that an answer may ask to render first. -/
inductive Answer.Renders (host : Host) (expand : Text → Plan Text) : Answer → Text → Prop
  | first {source : Text} {next : Text → Answer} : Renders host expand (.render source next) source
  | later {source other : Text} {next : Text → Answer} {t : Text}
    (rendered : (expand source).Gives host t) (h : Renders host expand (next t) other) :
    Renders host expand (.render source next) other

namespace Render

/-- How further sources are rendered that nest at most so deep. -/
def expanding (setting : Setting) : (fuel : Nat) → Expand
  | 0 => fun _ _ _ => .exhausted
  | fuel + 1 => fun source tags context =>
    .compile source tags fun nested => text setting fuel nested context

theorem text_eq (setting : Setting) (fuel : Nat) (ns : List Node) (context : Context) :
    text setting fuel ns context =
      siblings fuel setting (expanding setting fuel) ns context := by
  cases fuel <;> rfl

section
variable (host : Host) (setting : Setting) (fuel : Nat)

/-- What a section may be decided by. -/
def Decides (path : KeyPath) (context : Context) (v : Value) : Prop :=
  ((context.lookup fuel path).bind (deciding fuel)).Gives host (some v)

/-- What the lambda of a section may be asked, by the answer at one of its calls. -/
def replied (lambda : LambdaId) (earlier : Nat) (raw : Thunk Text) (tags : Tags)
    (context : Context) : Answer :=
  host.block lambda earlier ⟨raw.get, context.view, tags⟩

/-- The contexts in which the children of a block may be rendered. -/
inductive Opens (path : KeyPath) (context : Context) : Context → Prop
  | same : Opens path context context
  | entries {entries : List (Text × Value)} (h : Decides host fuel path context (.map entries)) :
    Opens path context (context.push (.map entries))
  | item {items : List Value} {item v : Value} (h : Decides host fuel path context (.list items))
    (hi : item ∈ items) (hv : (item.settle fuel).Gives host v) :
    Opens path context (context.push v)

/-- The further sources that a node may read in a context. -/
inductive Sources : Node → Context → Text → Tags → Prop
  | inclusion {name source : Text} {indent : Indent} {span : Span} {context : Context}
    (h : setting.partials name = some source) :
    Sources (.inclusion name indent span) context (indent.apply source) setting.tags
  | returned {path : KeyPath} {escape : Bool} {span : Span} {context : Context} {lambda : LambdaId}
    {earlier : Nat} {v : Value}
    (found : (context.lookup fuel path).Gives host (some (.lambda (.inline lambda))))
    (hv : ((host.inline lambda earlier).settle fuel).Gives host v) :
    Sources (.interpolation path escape span) context v.output setting.tags
  | answer {path : KeyPath} {children : List Node} {raw : Thunk Text} {tags : Tags} {span : Span}
    {context : Context} {lambda : LambdaId} {earlier : Nat} {source : Text}
    (found : Decides host fuel path context (.lambda (.block lambda)))
    (h : (replied host lambda earlier raw tags context).Renders host
      (expanding setting fuel · tags context) source) :
    Sources (.block path false children raw tags span) context source tags

end

/-- Rendering a node in a context, with further sources that nest at most so deep, may come for a
pending value, for a cause. -/
inductive Wants (host : Host) (setting : Setting) (id : PendingId) :
    (fuel : Nat) → Node → Context → Cause → Prop
  | lookup {fuel : Nat} {n : Node} {path : KeyPath} {context : Context} (hn : n.path? = some path)
    (h : (context.lookup fuel path).Asks host id) : Wants host setting id fuel n context .lookup
  | element {fuel : Nat} {path : KeyPath} {escape : Bool} {span : Span} {context : Context}
    {items : List Value} {item : Value}
    (found : (context.lookup (fuel + 1) path).Gives host (some (.list items))) (hi : item ∈ items)
    (h : (item.settleDeep fuel).Asks host id) :
    Wants host setting id (fuel + 1) (.interpolation path escape span) context .element
  | returned {fuel : Nat} {n : Node} {path : KeyPath} {context : Context} {lambda : LambdaId}
    {earlier : Nat} (hn : n.path? = some path)
    (found : (context.lookup fuel path).Gives host (some (.lambda (.inline lambda))))
    (h : ((host.inline lambda earlier).settle fuel).Asks host id) :
    Wants host setting id fuel n context .returned
  | answer {fuel : Nat} {path : KeyPath} {children : List Node} {raw : Thunk Text} {tags : Tags}
    {span : Span} {context : Context} {lambda : LambdaId} {earlier : Nat} {v : Value}
    (found : Decides host fuel path context (.lambda (.block lambda)))
    (hv : (answered (expanding setting fuel · tags context)
      (replied host lambda earlier raw tags context)).Gives host v)
    (h : (v.settle fuel).Asks host id) :
    Wants host setting id fuel (.block path false children raw tags span) context .returned
  | item {fuel : Nat} {path : KeyPath} {children : List Node} {raw : Thunk Text} {tags : Tags}
    {span : Span} {context : Context} {items : List Value} {item : Value}
    (found : Decides host fuel path context (.list items)) (hi : item ∈ items)
    (h : (item.settle fuel).Asks host id) :
    Wants host setting id fuel (.block path false children raw tags span) context .item
  | child {fuel : Nat} {path : KeyPath} {inverted : Bool} {children : List Node} {raw : Thunk Text}
    {tags : Tags} {span : Span} {context inside : Context} {n : Node} {cause : Cause}
    (ho : Opens host fuel path context inside) (hn : n ∈ children)
    (h : Wants host setting id fuel n inside cause) :
    Wants host setting id fuel (.block path inverted children raw tags span) context cause
  | source {fuel : Nat} {n nested : Node} {context : Context} {source : Text} {tags : Tags}
    {ns : List Node} {cause : Cause} (hs : Sources host setting (fuel + 1) n context source tags)
    (hc : Template.compile source tags = .ok ns) (hn : nested ∈ ns)
    (h : Wants host setting id fuel nested context cause) :
    Wants host setting id (fuel + 1) n context cause

end Render

/-- A render that is started under such defaults may come for a pending value, for a cause. -/
inductive Request.Wants (host : Host) (fuel : Nat) (config : Config) (id : PendingId)
    (request : Request) : Cause → Prop
  | view {source : Text} {ns : List Node} (hs : request.template = .string source)
    (hc : Template.compile source (request.setting config).tags = .ok ns)
    (h : (request.view.settle fuel).Asks host id) : Wants host fuel config id request .view
  | node {source : Text} {ns : List Node} {view : Value} {n : Node} {cause : Cause}
    (hs : request.template = .string source)
    (hc : Template.compile source (request.setting config).tags = .ok ns)
    (hv : (request.view.settle fuel).Gives host view) (hn : n ∈ ns)
    (h : Render.Wants host (request.setting config) id fuel n (.root view) cause) :
    Wants host fuel config id request cause

variable {host : Host} {id : PendingId}

namespace Value

theorem kind_ne_of_gives_settle {fuel : Nat} {v settled : Value}
    (h : (v.settle fuel).Gives host settled) : settled.kind ≠ .pending := by
  induction fuel generalizing v with
  | zero =>
    cases v with
    | pending => exact h.elim
    | _ =>
      cases h
      nofun
  | succ fuel ih =>
    cases v with
    | pending =>
      obtain ⟨next, -, h⟩ := h
      exact ih h
    | _ =>
      cases h
      nofun

/-- A value that is there awaits nothing but elements. -/
theorem asks_settleDeep {fuel : Nat} {v : Value} (hv : v.kind ≠ .pending)
    (h : (v.settleDeep fuel).Asks host id) :
    ∃ items inner, v = .list items ∧ fuel = inner + 1 ∧
      ∃ item ∈ items, (item.settleDeep inner).Asks host id := by
  cases fuel with
  | zero => exact h.elim
  | succ fuel =>
    rw [settleDeep, settle_of_kind_ne hv] at h
    cases v with
    | list items =>
      simp only [Plan.bind_eq, Plan.pure_bind] at h
      split at h
      · exact h.elim
      · rcases Plan.asks_bind.1 h with h | ⟨_, -, h⟩
        · exact ⟨items, fuel, rfl, rfl, Plan.asks_each.1 h⟩
        · exact h.elim
    | pending => exact absurd rfl hv
    | _ => exact h.elim

end Value

namespace Context

theorem kind_ne_of_gives_descend {fuel : Nat} {keys : List Text} {start v : Value}
    (hs : start.kind ≠ .pending) (h : (descend fuel keys start).Gives host (some v)) :
    v.kind ≠ .pending := by
  induction keys generalizing start with
  | nil =>
    cases h
    exact hs
  | cons key keys ih =>
    rw [descend] at h
    split at h
    · cases h
    · obtain ⟨next, hn, h⟩ := Plan.gives_bind.1 h
      exact ih (Value.kind_ne_of_gives_settle hn) h

/-- What a path finds is there. -/
theorem kind_ne_of_gives_lookup {fuel : Nat} {context : Context} {path : KeyPath} {v : Value}
    (hview : context.view.kind ≠ .pending)
    (h : (context.lookup fuel path).Gives host (some v)) : v.kind ≠ .pending := by
  rcases path with _ | _ | ⟨key, keys⟩
  · cases h
    exact hview
  · cases h
  · rw [lookup] at h
    split at h
    · cases h
    · obtain ⟨found, hf, h⟩ := Plan.gives_bind.1 h
      exact kind_ne_of_gives_descend (Value.kind_ne_of_gives_settle hf) h

end Context

namespace Render

variable {setting : Setting} {fuel : Nat} {context : Context}

theorem Opens.kind_ne {path : KeyPath} {inside : Context} (hview : context.view.kind ≠ .pending)
    (h : Opens host fuel path context inside) : inside.view.kind ≠ .pending := by
  cases h with
  | same => exact hview
  | entries => nofun
  | item _ _ hv => exact Value.kind_ne_of_gives_settle hv

/-- Some of these nodes may come for a pending value. -/
def SomeWants (host : Host) (setting : Setting) (id : PendingId) (fuel : Nat) (ns : List Node)
    (context : Context) : Prop :=
  ∃ n ∈ ns, ∃ cause, Wants host setting id fuel n context cause

/-- What further sources come for, their nodes come for. -/
def ExpandsWanting (host : Host) (setting : Setting) (id : PendingId) (fuel : Nat) : Prop :=
  ∀ source tags context, context.view.kind ≠ .pending →
    (expanding setting fuel source tags context).Asks host id →
    ∃ inner ns, fuel = inner + 1 ∧ Template.compile source tags = .ok ns ∧
      SomeWants host setting id inner ns context

theorem ExpandsWanting.wants (h : ExpandsWanting host setting id fuel) {n : Node} {source : Text}
    {tags : Tags} (hview : context.view.kind ≠ .pending)
    (hs : Sources host setting fuel n context source tags)
    (ha : (expanding setting fuel source tags context).Asks host id) :
    ∃ cause, Wants host setting id fuel n context cause := by
  obtain ⟨inner, ns, rfl, hc, nested, hn, cause, hw⟩ := h source tags context hview ha
  exact ⟨cause, .source hs hc hn hw⟩

theorem asks_answer {expand : Text → Plan Text} {reply : Answer}
    (h : (answer expand reply).Asks host id) :
    ∃ source, reply.Renders host expand source ∧ (expand source).Asks host id := by
  induction reply with
  | value v => exact h.elim
  | render source next ih =>
    rcases Plan.asks_bind.1 h with h | ⟨t, ht, h⟩
    · exact ⟨source, .first, h⟩
    · obtain ⟨other, ho, h⟩ := ih t h
      exact ⟨other, .later ht ho, h⟩

theorem asks_answered {expand : Text → Plan Text} {reply : Answer}
    (h : (answered expand reply).Asks host id) :
    ∃ source, reply.Renders host expand source ∧ (expand source).Asks host id := by
  cases reply with
  | value v => exact h.elim
  | render source next => exact asks_answer (Plan.asks_inner_done.1 h)

section
variable {path : KeyPath} {span : Span} (hexpand : ExpandsWanting host setting id fuel)
  (hview : context.view.kind ≠ .pending)
include hexpand hview

theorem wants_of_asks_interpolated {escape : Bool} {found : Option Value}
    (hf : (context.lookup fuel path).Gives host found)
    (h : (interpolated fuel setting (expanding setting fuel) context found).Asks host id) :
    ∃ cause, Wants host setting id fuel (.interpolation path escape span) context cause := by
  unfold interpolated at h
  split at h
  · exact h.elim
  · exact h.elim
  · rename_i lambda
    obtain ⟨earlier, h⟩ := h
    rcases Plan.asks_bind.1 (show (((host.inline lambda earlier).settle fuel).bind _).Asks host id
      from h) with h | ⟨settled, hs, h⟩
    · exact ⟨.returned, .returned rfl hf h⟩
    · split at h
      · exact h.elim
      · rcases Plan.asks_bind.1 h with h | ⟨_, -, h⟩
        · exact hexpand.wants hview (.returned hf hs) h
        · exact h.elim
  · exact h.elim
  · rcases Plan.asks_bind.1 h with h | ⟨_, -, h⟩
    · obtain ⟨items, inner, rfl, rfl, item, hi, h⟩ :=
        Value.asks_settleDeep (Context.kind_ne_of_gives_lookup hview hf) h
      exact ⟨.element, .element hf hi h⟩
    · exact h.elim

omit hexpand hview in
theorem wants_of_asks_deciding {n : Node} {found : Option Value} (hn : n.path? = some path)
    (hf : (context.lookup fuel path).Gives host found)
    (h : (deciding fuel found).Asks host id) :
    ∃ cause, Wants host setting id fuel n context cause := by
  unfold deciding at h
  split at h
  · rename_i lambda
    obtain ⟨earlier, h⟩ := h
    rcases Plan.asks_bind.1 (show (((host.inline lambda earlier).settle fuel).bind _).Asks host id
      from h) with h | ⟨_, -, h⟩
    · exact ⟨.returned, .returned hn hf h⟩
    · exact h.elim
  · exact h.elim

theorem wants_of_asks_shown {children : List Node} {raw : Thunk Text} {tags : Tags} {v : Value}
    (hd : Decides host fuel path context v)
    (hchildren : ∀ inside, inside.view.kind ≠ .pending →
      (together (nodes fuel setting (expanding setting fuel) children) inside).Asks host id →
      SomeWants host setting id fuel children inside)
    (h : (shown fuel (expanding setting fuel)
      (together (nodes fuel setting (expanding setting fuel) children)) raw tags context v).Asks
        host id) :
    ∃ cause, Wants host setting id fuel (.block path false children raw tags span) context cause := by
  -- what the children come for in a context that the block opens
  have hinside : ∀ inside, Opens host fuel path context inside →
      (together (nodes fuel setting (expanding setting fuel) children) inside).Asks host id →
      ∃ cause, Wants host setting id fuel (.block path false children raw tags span) context cause := by
    intro inside ho h
    obtain ⟨n, hn, cause, hw⟩ := hchildren inside (ho.kind_ne hview) h
    exact ⟨cause, .child ho hn hw⟩
  unfold shown at h
  split at h
  · rcases Plan.asks_bind.1 h with h | ⟨_, -, h⟩
    · obtain ⟨item, hi, h⟩ := Plan.asks_each.1 h
      rcases Plan.asks_bind.1 h with h | ⟨v, hv, h⟩
      · exact ⟨.item, .item hd hi h⟩
      · exact hinside _ (.item hd hi hv) h
    · exact h.elim
  · exact hinside _ (.entries hd) h
  · rename_i lambda
    obtain ⟨earlier, h⟩ := h
    rcases Plan.asks_bind.1 (show ((answered (expanding setting fuel · tags context)
      (replied host lambda earlier raw tags context)).bind _).Asks host id from h) with
      h | ⟨returned, hr, h⟩
    · obtain ⟨source, hs, h⟩ := asks_answered h
      exact hexpand.wants hview (.answer hd hs) h
    · rcases Plan.asks_bind.1 h with h | ⟨_, -, h⟩
      · exact ⟨.returned, .answer hd hr h⟩
      · exact h.elim
  · exact hinside _ .same h

end

theorem asks_together {siblings : List (Context → Plan Text)} {context : Context}
    (h : (together siblings context).Asks host id) :
    ∃ plan ∈ siblings, (plan context).Asks host id := by
  rcases Plan.asks_bind.1 h with h | ⟨_, -, h⟩
  · exact Plan.asks_each.1 h
  · exact h.elim

mutual
theorem wants_of_asks_node (hexpand : ExpandsWanting host setting id fuel) :
    (n : Node) → (context : Context) → context.view.kind ≠ .pending →
      (node fuel setting (expanding setting fuel) n context).Asks host id →
      ∃ cause, Wants host setting id fuel n context cause
  | .text _, _, _, h | .comment _, _, _, h => h.elim
  | .interpolation path _ _, context, hview, h => by
    rcases Plan.asks_bind.1 h with h | ⟨found, hf, h⟩
    · exact ⟨.lookup, .lookup rfl h⟩
    · rcases Plan.asks_bind.1 h with h | ⟨shown, -, h⟩
      · exact wants_of_asks_interpolated hexpand hview hf h
      · cases shown <;> exact h.elim
  | .inclusion name _ _, context, hview, h => by
    rw [node] at h
    split at h
    · exact h.elim
    · rename_i source hp
      exact hexpand.wants hview (.inclusion hp) h
  | .block path inverted children raw tags _, context, hview, h => by
    have hchildren := wants_of_asks_nodes hexpand children
    rcases Plan.asks_bind.1 h with h | ⟨found, hf, h⟩
    · exact ⟨.lookup, .lookup rfl h⟩
    rcases Plan.asks_bind.1 h with h | ⟨value, hv, h⟩
    · exact wants_of_asks_deciding rfl hf h
    cases inverted with
    | true =>
      by_cases hs : isShown value = true
      · simp [hs, Plan.Asks] at h
      · obtain ⟨n, hn, cause, hw⟩ := hchildren context hview (by simpa [hs] using h)
        exact ⟨cause, .child .same hn hw⟩
    | false =>
      cases value with
      | none => simp [Plan.Asks] at h
      | some v =>
        by_cases ht : v.isTruthy = true
        · exact wants_of_asks_shown hexpand hview (Plan.gives_bind.2 ⟨found, hf, hv⟩) hchildren
            (by simpa [ht] using h)
        · simp [ht, Plan.Asks] at h

theorem wants_of_asks_nodes (hexpand : ExpandsWanting host setting id fuel) :
    (ns : List Node) → (context : Context) → context.view.kind ≠ .pending →
      (together (nodes fuel setting (expanding setting fuel) ns) context).Asks host id →
      SomeWants host setting id fuel ns context
  | [], context, hview, h => by
    obtain ⟨plan, hp, -⟩ := asks_together h
    cases hp
  | n :: ns, context, hview, h => by
    obtain ⟨plan, hp, h⟩ := asks_together h
    rcases List.mem_cons.1 hp with rfl | hp
    · exact ⟨n, List.mem_cons_self .., wants_of_asks_node hexpand n context hview h⟩
    · have hrest : (together (nodes fuel setting (expanding setting fuel) ns) context).Asks host id :=
        Plan.asks_bind.2 (.inl (Plan.asks_each.2 ⟨plan, hp, h⟩))
      obtain ⟨other, hn, hw⟩ := wants_of_asks_nodes hexpand ns context hview hrest
      exact ⟨other, List.mem_cons_of_mem _ hn, hw⟩
end

theorem expandsWanting (host : Host) (setting : Setting) (id : PendingId) (fuel : Nat) :
    ExpandsWanting host setting id fuel := by
  induction fuel with
  | zero => exact fun _ _ _ _ h => h.elim
  | succ fuel ih =>
    rintro source tags context hview ⟨ns, hc, h⟩
    simp only [text_eq] at h
    exact ⟨fuel, ns, rfl, hc, wants_of_asks_nodes ih ns context hview h⟩

end Render

/-- A render comes for nothing without a cause. -/
theorem Request.wants_of_asks {request : Request} {fuel : Nat} {config : Config}
    (h : (request.plan fuel config).Asks host id) :
    ∃ cause, request.Wants host fuel config id cause := by
  unfold plan at h
  split at h
  · rename_i source hs
    obtain ⟨ns, hc, h⟩ := h
    rcases Plan.asks_bind.1 h with h | ⟨view, hv, h⟩
    · exact ⟨.view, .view hs hc h⟩
    · rw [Render.text_eq] at h
      obtain ⟨n, hn, cause, hw⟩ := Render.wants_of_asks_nodes (Render.expandsWanting _ _ _ _) ns
        (.root view) (Value.kind_ne_of_gives_settle hv) h
      exact ⟨cause, .node hs hc hv hn hw⟩
  · exact h.elim

end Stencil
