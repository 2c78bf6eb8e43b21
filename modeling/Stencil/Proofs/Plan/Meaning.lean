import Stencil.Proofs.Plan.Causes
import Stencil.Proofs.Plan.Wrapping
import Stencil.Proofs.Template.Append

/-!
# What nodes mean

Without lambdas, what nodes come to in a context can be told without a plan and without a bound: each
node by itself, siblings one after the other, a section from what its path finds and from what its
children come to. So nodes that come to the same can stand for each other wherever nodes stand.
-/

namespace Stencil

section Lists

universe u v w
variable {ι : Type u} {β : Type v} {γ : Type w}

theorem exists_forall₂ {P : ι → γ → Prop} {Q : ι → β → Prop} {S : β → γ → Prop} {is : List ι}
    {cs : List γ} (h : List.Forall₂ P is cs) (hP : ∀ i c, P i c → ∃ b, Q i b ∧ S b c) :
    ∃ bs, List.Forall₂ Q is bs ∧ List.Forall₂ S bs cs := by
  induction h with
  | nil => exact ⟨[], .nil, .nil⟩
  | cons hfirst _ ih =>
    obtain ⟨b, hq, hs⟩ := hP _ _ hfirst
    obtain ⟨bs, hqs, hss⟩ := ih
    exact ⟨b :: bs, .cons hq hqs, .cons hs hss⟩

/-- What holds of each member from some bound on, holds of all of them from some bound on. -/
theorem exists_forall₂_bound {P : Nat → ι → β → Prop}
    (mono : ∀ {n m i b}, n ≤ m → P n i b → P m i b) {is : List ι} {bs : List β}
    (h : List.Forall₂ (fun i b => ∃ n, P n i b) is bs) : ∃ n, List.Forall₂ (P n) is bs := by
  induction h with
  | nil => exact ⟨0, .nil⟩
  | cons hfirst _ ih =>
    obtain ⟨n, hn⟩ := hfirst
    obtain ⟨m, hm⟩ := ih
    exact ⟨max n m, .cons (mono (Nat.le_max_left ..) hn)
      (hm.imp fun _ _ => mono (Nat.le_max_right ..))⟩

end Lists

variable {host : Host}

/-- When everything is ready, the first of two plans has a result for what the second may come to. -/
theorem Plan.Sheds.exists_result?_of_gives {β α : Type} {R : β → α → Prop} {plan : Plan β}
    {other : Plan α} (h : Plan.Sheds host R plan other) {ready : PendingId → Bool}
    (hr : ∀ id, ready id = true) {a : α} (ha : other.Gives host a) :
    ∃ b, plan.result? host ready = some b ∧ R b a := by
  induction h with
  | done h =>
    obtain rfl := ha
    exact ⟨_, rfl, h⟩
  | fail | exhausted => exact ha.elim
  | await id _ ih =>
    obtain ⟨v, hv, ha⟩ := ha
    simp only [result?, hr, hv, if_true]
    exact ih v hv ha
  | compile source tags _ ih =>
    obtain ⟨nodes, hn, ha⟩ := ha
    simp only [result?, hn]
    exact ih nodes hn ha
  | join _ _ ihmembers ih =>
    obtain ⟨cs, hcs, ha⟩ := ha
    obtain ⟨ds, hds, hs⟩ := exists_forall₂ hcs fun i _ => ihmembers i
    obtain ⟨b, hb, hR⟩ := ih ds cs hs ha
    exact ⟨b, by rw [result?, mapM_eq_some_iff.2 hds]; exact hb, hR⟩
  | shed _ hv _ ih =>
    simp only [result?, hr, hv, if_true]
    exact ih ha
  | shedJoin _ _ ihmembers ih =>
    obtain ⟨ds, hds, hs⟩ := exists_results fun i => ihmembers i rfl
    obtain ⟨b, hb, hR⟩ := ih ds hs ha
    exact ⟨b, by rw [result?, hds]; exact hb, hR⟩

/-- What the second of two plans may come to, the first may come to. -/
theorem Plan.Sheds.exists_gives {β α : Type} {R : β → α → Prop} {plan : Plan β} {other : Plan α}
    (h : Plan.Sheds host R plan other) {a : α} (ha : other.Gives host a) :
    ∃ b, plan.Gives host b ∧ R b a := by
  have hall : ∀ id : PendingId, (fun _ => true : PendingId → Bool) id = true := fun _ => rfl
  obtain ⟨b, hb, hR⟩ := h.exists_result?_of_gives hall ha
  exact ⟨b, gives_of_result? hb, hR⟩

/-- With the same result on both sides, what the second comes to is what the first comes to. -/
theorem Plan.Sheds.gives {α : Type} {plan other : Plan α} (h : Plan.Sheds host Eq plan other) {a : α}
    (ha : other.Gives host a) : plan.Gives host a := by
  obtain ⟨_, hb, rfl⟩ := h.exists_gives ha
  exact hb

namespace Value

/-- What a value settles to, however long that takes. -/
def Settles (host : Host) (v settled : Value) : Prop :=
  ∃ fuel, (v.settle fuel).Gives host settled

variable {v w settled : Value} {fuel more : Nat}

theorem Bares.eq (h : Bares host 0 w v) : w = v := by
  cases h with
  | same => rfl

/-- A value settles to the same under a larger bound, and no lambda can be come to from there. -/
theorem gives_settle (free : LambdaFree host v) (hle : fuel ≤ more)
    (h : (v.settle fuel).Gives host settled) :
    (v.settle more).Gives host settled ∧ Bares host 0 settled settled := by
  obtain ⟨b, hb, hbares⟩ := (sheds_settle_same 0 free hle).exists_gives h
  obtain rfl := hbares.eq
  exact ⟨hb, hbares⟩

end Value

namespace Context

/-- No view is pending, and no lambda can be come to from one. -/
def Bare (host : Host) (context : Context) : Prop :=
  context.Covers host 0 context

/-- What a path finds, however long that takes. -/
def Finds (host : Host) (context : Context) (path : KeyPath) (found : Option Value) : Prop :=
  ∃ fuel, (context.lookup fuel path).Gives host found

variable {context : Context} {path : KeyPath} {found : Option Value} {fuel more : Nat}

/-- A path finds the same under a larger bound, and no lambda can be come to from there. -/
theorem Bare.gives_lookup (bare : context.Bare host) (hle : fuel ≤ more)
    (h : (context.lookup fuel path).Gives host found) :
    (context.lookup more path).Gives host found ∧
      ∀ v, found = some v → Value.Bares host 0 v v := by
  obtain ⟨b, hb, hrel⟩ := (sheds_lookup bare hle path).exists_gives h
  cases hrel with
  | none => exact ⟨hb, by rintro v ⟨⟩⟩
  | some hbares =>
    obtain rfl := hbares.eq
    refine ⟨hb, ?_⟩
    rintro v ⟨⟩
    exact hbares

end Context

namespace Render

variable {setting : Setting} {context : Context} {t : Text} {fuel more : Nat}

/-- What nodes come to in a context, however deep further sources nest. -/
def Means (host : Host) (setting : Setting) (ns : List Node) (context : Context) (t : Text) : Prop :=
  ∃ fuel, (text setting fuel ns context).Gives host t

section
variable (bare : context.Bare host) (hle : fuel ≤ more)
include bare hle

theorem gives_text {ns : List Node} (h : (text setting fuel ns context).Gives host t) :
    (text setting more ns context).Gives host t :=
  (sheds_text setting hle ns bare).gives h

theorem gives_node {n : Node} (h : (node fuel setting (expanding setting fuel) n context).Gives host t) :
    (node more setting (expanding setting more) n context).Gives host t := by
  have hexpand : Expand.Sheds host 0 (expanding setting more) (expanding setting fuel) := by
    intro source tags _ _ hc
    cases fuel with
    | zero => exact .exhausted _
    | succ fuel =>
      obtain ⟨more, rfl⟩ : ∃ k, more = k + 1 := ⟨more - 1, by omega⟩
      exact .compile source tags fun nested _ => sheds_text setting (by omega) nested hc
  exact (sheds_node setting hexpand hle n bare).gives h

end

theorem forall₂_nodes {fuel : Nat} {expand : Expand} {ns : List Node} {ts : List Text} :
    List.Forall₂ (fun plan text => (plan context).Gives host text) (nodes fuel setting expand ns) ts ↔
      List.Forall₂ (fun n text => (node fuel setting expand n context).Gives host text) ns ts := by
  induction ns generalizing ts with
  | nil => simp [nodes]
  | cons n ns ih => cases ts <;> simp [nodes, ih]

/-- The texts of nodes are one after the other. -/
theorem means_iff {ns : List Node} : Means host setting ns context t ↔
    ∃ (fuel : Nat) (ts : List Text), List.Forall₂ (fun n text =>
      (node fuel setting (expanding setting fuel) n context).Gives host text) ns ts ∧
        t = ts.flatten := by
  have htogether : ∀ fuel, (text setting fuel ns context).Gives host t ↔
      ∃ ts : List Text, List.Forall₂ (fun n text =>
        (node fuel setting (expanding setting fuel) n context).Gives host text) ns ts ∧
          t = ts.flatten := by
    intro fuel
    simp only [text_eq, siblings, together, ← forall₂_nodes,
      ← Plan.gives_each (f := fun plan : Context → Plan Text => plan context)]
    exact Plan.gives_bind
  exact exists_congr htogether

theorem means_single {n : Node} : Means host setting [n] context t ↔
    ∃ fuel, (node fuel setting (expanding setting fuel) n context).Gives host t := by
  rw [means_iff]
  constructor
  · rintro ⟨fuel, ts, h, rfl⟩
    obtain ⟨u, _, hu, hnil, rfl⟩ := List.forall₂_cons_left_iff.1 h
    obtain rfl := List.forall₂_nil_left_iff.1 hnil
    exact ⟨fuel, by simpa using hu⟩
  · rintro ⟨fuel, h⟩
    exact ⟨fuel, [t], .cons h .nil, by simp⟩

theorem means_append (bare : context.Bare host) {front back : List Node} :
    Means host setting (front ++ back) context t ↔ ∃ s u, Means host setting front context s ∧
      Means host setting back context u ∧ t = s ++ u := by
  simp only [means_iff]
  constructor
  · rintro ⟨fuel, ts, h, rfl⟩
    have hs := (List.forall₂_take_append _ _ _ h.flip).flip
    have hu := (List.forall₂_drop_append _ _ _ h.flip).flip
    refine ⟨_, _, ⟨fuel, _, hs, rfl⟩, ⟨fuel, _, hu, rfl⟩, ?_⟩
    rw [← List.flatten_append, List.take_append_drop]
  · rintro ⟨_, _, ⟨fuel, ss, hs, rfl⟩, ⟨more, us, hu, rfl⟩, rfl⟩
    refine ⟨max fuel more, ss ++ us, ?_, List.flatten_append.symm⟩
    exact List.rel_append (hs.imp fun _ _ => gives_node bare (Nat.le_max_left ..))
      (hu.imp fun _ _ => gives_node bare (Nat.le_max_right ..))

theorem means_text {u : Text} : Means host setting [.text u] context t ↔ t = u := by
  simp [means_single, node, Plan.Gives]

/-- A partial means what its source means, in the same context. -/
theorem means_inclusion {name source : Text} {indent : Indent} {span : Span} {ns : List Node}
    (hp : setting.partials name = some source)
    (hc : Template.compile (indent.apply source) setting.tags = .ok ns) :
    Means host setting [.inclusion name indent span] context t ↔ Means host setting ns context t := by
  have hexpand : ∀ fuel, (node fuel setting (expanding setting fuel)
      (.inclusion name indent span) context).Gives host t ↔
        ∃ inner, fuel = inner + 1 ∧ (text setting inner ns context).Gives host t := by
    intro fuel
    simp only [node, hp]
    cases fuel with
    | zero => simp [expanding, Plan.Gives]
    | succ fuel => simp [expanding, Plan.Gives, hc]
  rw [means_single]
  simp only [hexpand, Means]
  constructor
  · rintro ⟨_, inner, -, h⟩
    exact ⟨inner, h⟩
  · rintro ⟨inner, h⟩
    exact ⟨_, inner, rfl, h⟩

/-- What a section comes to for a value that shows it, from what its children come to. -/
def Shows (host : Host) (children : Context → Text → Prop) (context : Context) :
    Value → Text → Prop
  | .list items, t => ∃ ts : List Text, List.Forall₂ (fun item text =>
      ∃ v, item.Settles host v ∧ children (context.push v) text) items ts ∧ t = ts.flatten
  | .map entries, t => children (context.push (.map entries)) t
  | _, t => children context t

/-- What a section comes to for what its path finds: what is inside, or that as often as a value asks
for, or nothing. -/
def Encloses (inverted : Bool) (inside : Text → Prop) (shows : Value → Text → Prop) :
    Option Value → Text → Prop
  | none, t => if inverted then inside t else t = []
  | some v, t =>
    if inverted = v.isTruthy then t = []
    else if inverted then inside t
    else shows v t

theorem Encloses.imp {inverted : Bool} {inside other : Text → Prop} {shows more : Value → Text → Prop}
    {found : Option Value} (h : Encloses inverted inside shows found t)
    (hinside : inside t → other t) (hshows : ∀ v, found = some v → shows v t → more v t) :
    Encloses inverted other more found t := by
  cases found with
  | none =>
    simp only [Encloses] at h ⊢
    split_ifs at h ⊢ with hi
    · exact hinside h
    · exact h
  | some v =>
    simp only [Encloses] at h ⊢
    split_ifs at h ⊢ with ht hi
    · exact h
    · exact hinside h
    · exact hshows v rfl h

theorem Encloses.exists_bound {inverted : Bool} {inside : Nat → Text → Prop}
    {shows : Nat → Value → Text → Prop} {found : Option Value}
    (h : Encloses inverted (fun t => ∃ fuel, inside fuel t) (fun v t => ∃ fuel, shows fuel v t) found
      t) : ∃ fuel, Encloses inverted (inside fuel) (shows fuel) found t := by
  cases found with
  | none =>
    simp only [Encloses] at h ⊢
    split_ifs at h ⊢ with hi
    · exact h
    · exact ⟨0, h⟩
  | some v =>
    simp only [Encloses] at h ⊢
    split_ifs at h ⊢ with ht hi
    · exact ⟨0, h⟩
    · exact h
    · exact h

section Block
variable {path : KeyPath} {inverted : Bool} {children : List Node} {raw : Thunk Text} {tags : Tags}
  {span : Span} {v : Value}

/-- How a section shows a value under a bound. -/
abbrev showing (setting : Setting) (fuel : Nat) (children : List Node) (raw : Thunk Text) (tags : Tags)
    (context : Context) (v : Value) : Plan Text :=
  shown fuel (expanding setting fuel) (text setting fuel children) raw tags context v

theorem gives_block (bare : context.Bare host) :
    (node fuel setting (expanding setting fuel) (.block path inverted children raw tags span)
      context).Gives host t ↔ ∃ found, (context.lookup fuel path).Gives host found ∧
        Encloses inverted ((text setting fuel children context).Gives host)
          (fun v t => (showing setting fuel children raw tags context v).Gives host t) found t := by
  have hchildren : together (nodes fuel setting (expanding setting fuel) children) =
      text setting fuel children := by
    funext context
    rw [text_eq, siblings]
  simp only [node, hchildren, Plan.bind_eq, Plan.gives_bind]
  refine exists_congr fun found => and_congr_right fun hf => ?_
  have hbares := (bare.gives_lookup le_rfl hf).2
  have hdeciding : deciding fuel found = .done found := by
    rcases found with _ | v
    · rfl
    · have hv := hbares v rfl
      cases hv with
      | same hk free =>
        cases v with
        | lambda called => exact absurd (.refl _) (free called)
        | _ => rfl
  rw [hdeciding]
  simp only [Plan.Gives, exists_eq_left]
  rcases found with _ | v
  · cases inverted <;> simp [Encloses, isShown, Plan.Gives]
  · cases inverted <;> cases ht : v.isTruthy <;> simp [Encloses, isShown, ht, Plan.Gives]

/-- A value is shown alike under a larger bound. -/
theorem gives_showing (bare : context.Bare host) (hb : Value.Bares host 0 v v) {more : Nat}
    (hle : fuel ≤ more) (h : (showing setting fuel children raw tags context v).Gives host t) :
    (showing setting more children raw tags context v).Gives host t :=
  (sheds_shown (fun hc => sheds_text setting hle children hc) bare hb hle raw tags).gives h

theorem shows_iff (bare : context.Bare host) (hb : Value.Bares host 0 v v) :
    Shows host (Means host setting children) context v t ↔
      ∃ fuel, (showing setting fuel children raw tags context v).Gives host t := by
  cases v with
  | list items =>
    have hfree : ∀ item ∈ items, item.LambdaFree host := by
      cases hb with
      | same _ free => exact fun item hi => free.item hi
    have hshown : ∀ fuel, (showing setting fuel children raw tags context (.list items)).Gives host t ↔
        ∃ ts : List Text, List.Forall₂ (fun item text => ∃ v, (item.settle fuel).Gives host v ∧
          (Render.text setting fuel children (context.push v)).Gives host text) items ts ∧
          t = ts.flatten := by
      intro fuel
      simp only [showing, shown, Plan.bind_eq, ← Plan.gives_bind, ← Plan.gives_each]
      exact Plan.gives_bind
    simp only [hshown, Shows, Means, Value.Settles]
    constructor
    · rintro ⟨ts, h, rfl⟩
      obtain ⟨fuel, hall⟩ := exists_forall₂_bound (P := fun fuel item text =>
          item.LambdaFree host ∧ ∃ v, (item.settle fuel).Gives host v ∧
            (Render.text setting fuel children (context.push v)).Gives host text)
        (by
          rintro n m item text hle ⟨free, v, hv, htext⟩
          obtain ⟨hv, hbares⟩ := Value.gives_settle free hle hv
          exact ⟨free, v, hv, gives_text (bare.push hbares) hle htext⟩)
        (List.forall₂_iff_zip.2 ⟨h.length_eq, fun {item text} hm => by
          obtain ⟨v, ⟨n, hv⟩, m, htext⟩ := List.forall₂_zip h hm
          have free := hfree item (List.of_mem_zip hm).1
          obtain ⟨hv, hbares⟩ := Value.gives_settle free (Nat.le_max_left n m) hv
          exact ⟨max n m, free, v, hv, gives_text (bare.push hbares) (Nat.le_max_right n m) htext⟩⟩)
      exact ⟨fuel, ts, hall.imp fun _ _ hitem => hitem.2, rfl⟩
    · rintro ⟨fuel, ts, h, rfl⟩
      refine ⟨ts, h.imp ?_, rfl⟩
      rintro item text ⟨v, hv, htext⟩
      exact ⟨v, ⟨fuel, hv⟩, fuel, htext⟩
  | lambda called =>
    cases hb with
    | same _ free => exact absurd (.refl _) (free called)
  | _ => exact Iff.rfl

/-- What a section means is told by what its children mean. -/
theorem means_block (bare : context.Bare host) :
    Means host setting [.block path inverted children raw tags span] context t ↔
      ∃ found, context.Finds host path found ∧
        Encloses inverted (Means host setting children context)
          (Shows host (Means host setting children) context) found t := by
  rw [means_single]
  simp only [gives_block bare]
  constructor
  · rintro ⟨fuel, found, hf, h⟩
    have hbares := (bare.gives_lookup le_rfl hf).2
    refine ⟨found, ⟨fuel, hf⟩, h.imp (fun h => ⟨fuel, h⟩) fun v hv h => ?_⟩
    exact (shows_iff bare (hbares v hv)).2 ⟨fuel, h⟩
  · rintro ⟨found, ⟨fuel, hf⟩, h⟩
    have hbares := (bare.gives_lookup le_rfl hf).2
    obtain ⟨more, h⟩ := Encloses.exists_bound (h.imp id fun v hv => (shows_iff bare (hbares v hv)).1)
    have hle := Nat.le_max_right fuel more
    refine ⟨max fuel more, found, (bare.gives_lookup (Nat.le_max_left ..) hf).1, ?_⟩
    exact h.imp (gives_text bare hle) fun v hv => gives_showing bare (hbares v hv) hle

end Block

/-- Nodes that mean the same wherever no lambda can be come to. -/
def Alike (host : Host) (setting : Setting) (ns others : List Node) : Prop :=
  ∀ context : Context, context.Bare host → ∀ t,
    Means host setting ns context t ↔ Means host setting others context t

namespace Alike

variable {ns others front back first second : List Node}

theorem refl (ns : List Node) : Alike host setting ns ns :=
  fun _ _ _ => Iff.rfl

theorem symm (h : Alike host setting ns others) : Alike host setting others ns :=
  fun context bare t => (h context bare t).symm

theorem trans (h : Alike host setting ns front) (ho : Alike host setting front others) :
    Alike host setting ns others :=
  fun context bare t => (h context bare t).trans (ho context bare t)

theorem append (h : Alike host setting front first) (ho : Alike host setting back second) :
    Alike host setting (front ++ back) (first ++ second) := by
  intro context bare t
  simp only [means_append bare, h context bare, ho context bare]

/-- A text may be cut. -/
theorem texts (s t : Text) : Alike host setting [.text (s ++ t)] [.text s, .text t] := by
  intro context bare u
  rw [means_text, ← List.singleton_append, means_append bare]
  simp [means_text]

theorem join (front back : List Node) : Alike host setting (Node.join front back) (front ++ back) := by
  cases back with
  | nil => simpa using refl front
  | cons node back =>
    cases ht : node.isText with
    | false => simpa [Node.join_cons_of_not_isText ht] using refl _
    | true =>
      cases node with
      | text t =>
        by_cases hends : EndsInText front
        · obtain ⟨before, u, rfl⟩ := hends
          rw [Node.join_text_of_endsInText]
          have h := (@refl host setting before).append
            ((texts u t).append (refl back))
          simpa using h
        · simpa [Node.join_text_of_not_endsInText hends] using refl _
      | _ => cases ht

end Alike

theorem Shows.imp {children other : Context → Text → Prop} {v : Value} (bare : context.Bare host)
    (hb : Value.Bares host 0 v v)
    (himp : ∀ context : Context, context.Bare host → ∀ t, children context t → other context t)
    (h : Shows host children context v t) : Shows host other context v t := by
  cases v with
  | list items =>
    obtain ⟨ts, hall, rfl⟩ := h
    refine ⟨ts, List.forall₂_iff_zip.2 ⟨hall.length_eq, fun {item text} hm => ?_⟩, rfl⟩
    obtain ⟨v, ⟨fuel, hv⟩, htext⟩ := List.forall₂_zip hall hm
    have free : item.LambdaFree host := by
      cases hb with
      | same _ free => exact free.item (List.of_mem_zip hm).1
    have hbares := (Value.gives_settle free le_rfl hv).2
    exact ⟨v, ⟨fuel, hv⟩, himp _ (bare.push hbares) text htext⟩
  | map entries => exact himp _ (bare.push hb) t h
  | _ => exact himp context bare t h

section Nodes
variable {path : KeyPath} {inverted : Bool} {children again : List Node} {raw raw' : Thunk Text}
  {tags tags' : Tags} {span span' : Span}

theorem means_block_imp (bare : context.Bare host)
    (himp : ∀ context : Context, context.Bare host → ∀ t,
      Means host setting children context t → Means host setting again context t)
    (h : Means host setting [.block path inverted children raw tags span] context t) :
    Means host setting [.block path inverted again raw' tags' span'] context t := by
  obtain ⟨found, ⟨fuel, hf⟩, h⟩ := (means_block bare).1 h
  have hbares := (bare.gives_lookup le_rfl hf).2
  refine (means_block bare).2 ⟨found, ⟨fuel, hf⟩, h.imp (himp context bare t) fun v hv hs => ?_⟩
  exact hs.imp bare (hbares v hv) himp

/-- The source of a section and its place make no difference to what it means. -/
theorem Alike.block (h : Alike host setting children again) :
    Alike host setting [.block path inverted children raw tags span]
      [.block path inverted again raw' tags' span'] := by
  intro context bare t
  exact ⟨means_block_imp bare fun context bare t => (h context bare t).1,
    means_block_imp bare fun context bare t => (h context bare t).2⟩

/-- Nor does the place of a tag, or its indentation if it includes no partial. -/
theorem alike_single {placed other : PlacedTag} {indent indent' : Indent}
    (same : other.tag = placed.tag)
    (same_indent : placed.tag.sigil = .inclusion → indent' = indent) :
    Alike host setting (placed.single indent) (other.single indent') := by
  intro context bare t
  unfold PlacedTag.single
  rw [same]
  cases hs : placed.tag.sigil with
  | escaped | ampersand | triple => simp only [means_single, node]
  | inclusion =>
    rw [same_indent hs]
    simp only [means_single, node]
  | _ => exact Iff.rfl

end Nodes

end Render

namespace Request

variable {request : Request} {config : Config} {t : Text}

/-- What a render may come to, when no lambda can be come to from its view. -/
theorem gives_plan_iff (free : request.view.LambdaFree host) :
    (∃ fuel, (request.plan fuel config).Gives host t) ↔
      ∃ source nodes view, request.template = .string source ∧
        Template.compile source (request.setting config).tags = .ok nodes ∧
        request.view.Settles host view ∧
        Render.Means host (request.setting config) nodes (.root view) t := by
  constructor
  · rintro ⟨fuel, h⟩
    simp only [plan] at h
    split at h
    · rename_i source hs
      obtain ⟨nodes, hn, h⟩ := h
      obtain ⟨view, hv, h⟩ := Plan.gives_bind.1 h
      exact ⟨source, nodes, view, hs, hn, ⟨fuel, hv⟩, fuel, h⟩
    · exact h.elim
  · rintro ⟨source, nodes, view, hs, hn, ⟨fuel, hv⟩, more, h⟩
    obtain ⟨hview, hbares⟩ := Value.gives_settle free (Nat.le_max_left fuel more) hv
    refine ⟨max fuel more, ?_⟩
    simp only [plan, hs]
    exact ⟨nodes, hn, Plan.gives_bind.2 ⟨view, hview,
      Render.gives_text (Context.covers_root hbares) (Nat.le_max_right ..) h⟩⟩

/-- Requests whose sources compile alike may come to the same. -/
theorem gives_plan_congr (free : request.view.LambdaFree host) {source other : Text}
    (hs : request.template = .string source)
    (hcompile : (∃ nodes, Template.compile source (request.setting config).tags = .ok nodes) ↔
      ∃ nodes, Template.compile other (request.setting config).tags = .ok nodes)
    (halike : ∀ nodes again, Template.compile source (request.setting config).tags = .ok nodes →
      Template.compile other (request.setting config).tags = .ok again →
      Render.Alike host (request.setting config) nodes again) :
    (∃ fuel, (request.plan fuel config).Gives host t) ↔
      ∃ fuel, ({ request with template := .string other }.plan fuel config).Gives host t := by
  have hbare : ∀ {view}, request.view.Settles host view → (Context.root view).Bare host := by
    rintro view ⟨fuel, hv⟩
    exact Context.covers_root (Value.gives_settle free le_rfl hv).2
  rw [gives_plan_iff free, @gives_plan_iff _ { request with template := .string other } _ _ free]
  constructor
  · rintro ⟨_, nodes, view, hsource, hn, hv, h⟩
    obtain rfl : source = _ := Value.string.inj (hs.symm.trans hsource)
    obtain ⟨again, ha⟩ := hcompile.1 ⟨nodes, hn⟩
    exact ⟨other, again, view, rfl, ha, hv, (halike nodes again hn ha _ (hbare hv) t).1 h⟩
  · rintro ⟨_, again, view, hother, ha, hv, h⟩
    obtain rfl : other = _ := Value.string.inj hother
    obtain ⟨nodes, hn⟩ := hcompile.2 ⟨again, ha⟩
    exact ⟨source, nodes, view, hs, hn, hv, (halike nodes again hn ha _ (hbare hv) t).2 h⟩

end Request
end Stencil
