import Stencil.Engine
import Stencil.Proofs.Value.Wraps

/-!
# Rendering wrapped views

The plan of a render whose view is wrapped sheds to the plan of the same render of the view itself.
Each place that asks what a value is, settles it first: the view at the root, what each key of a path
leads to, what decides about a section, its items, and the items of a list that is shown as text. So
the views in force are always bare, and what is wrapped in them is unwrapped where it is looked up.
-/

namespace Stencil

open Plan (Sheds)
open Value (Bares LambdaFree SameText)

variable {host : Host} {n fuel more : Nat}

namespace Value

variable {w v : Value}

theorem covers_self (n : Nat) (free : LambdaFree host v) : Covers host n v v :=
  ⟨wraps_self host n v, free⟩

theorem forall₂_covers_self {items : List Value} (n : Nat) (free : LambdaFree host (.list items)) :
    List.Forall₂ (Covers host n) items items :=
  List.forall₂_same.2 fun _ hm => covers_self n (free.item hm)

theorem forall₂_entries_self {entries : List (Text × Value)} (n : Nat)
    (free : LambdaFree host (.map entries)) : List.Forall₂
      (fun entry other => entry.1 = other.1 ∧ Covers host n entry.2 other.2) entries entries :=
  List.forall₂_same.2 fun _ hm => ⟨rfl, covers_self n (free.entry hm)⟩

theorem Bares.covers (h : Bares host n w v) : Covers host n w v := by
  cases h with
  | same _ free => exact covers_self _ free
  | list h =>
    refine ⟨.list (h.imp fun _ _ => (·.wraps)), ?_⟩
    intro called hr
    cases hr with
    | item hm hr =>
      obtain ⟨_, -, hc⟩ := exists_of_mem_of_forall₂ h.flip hm
      exact hc.free called hr
  | map h =>
    refine ⟨.map (h.imp fun _ _ he => ⟨he.1, he.2.wraps⟩), ?_⟩
    intro called hr
    cases hr with
    | entry hm hr =>
      obtain ⟨_, -, -, hc⟩ := exists_of_mem_of_forall₂ h.flip hm
      exact hc.free called hr

theorem rel_lookup {entries others : List (Text × Value)} (h : List.Forall₂
    (fun entry other => entry.1 = other.1 ∧ Covers host n entry.2 other.2) entries others)
    (key : Text) : Option.Rel (Covers host n) (entries.lookup key) (others.lookup key) := by
  induction h with
  | nil => exact .none
  | @cons entry other entries others he _ ih =>
    obtain ⟨name, w⟩ := entry
    obtain ⟨_, v⟩ := other
    obtain ⟨rfl, hc⟩ := he
    simp only [List.lookup_cons]
    split
    · exact .some hc
    · exact ih

/-- A key leads to nothing in both, or to a value that is covered. -/
theorem Bares.get? (h : Bares host n w v) (key : Text) :
    Option.Rel (Covers host n) (w.get? key) (v.get? key) := by
  cases h with
  | list => exact .none
  | map h => exact rel_lookup (h.imp fun _ _ he => ⟨he.1, he.2.succ⟩) key
  | same hk free =>
    cases w with
    | map entries => exact rel_lookup (forall₂_entries_self n free) key
    | _ => exact .none

theorem Bares.isTruthy_eq (h : Bares host n w v) : w.isTruthy = v.isTruthy := by
  cases h with
  | same | map => rfl
  | list h => cases h <;> rfl

end Value

namespace Context

/-- The views in force, each bare. -/
def Covers (host : Host) (n : Nat) (covering context : Context) : Prop :=
  List.Forall₂ (Bares host n) covering.views context.views

variable {covering context : Context} {w v : Value}

theorem covers_root (h : Bares host n w v) : Covers host n (root w) (root v) :=
  .cons h .nil

theorem Covers.push (h : Covers host n covering context) (hb : Bares host n w v) :
    Covers host n (covering.push w) (context.push v) :=
  .cons hb h

theorem Covers.view (h : Covers host n covering context) :
    Bares host n covering.view context.view := by
  cases h with
  | cons hb => exact hb

theorem Covers.find? (h : Covers host n covering context) (key : Text) :
    Option.Rel (Value.Covers host n) (covering.find? key) (context.find? key) := by
  have hviews : ∀ {views others : List Value}, List.Forall₂ (Bares host n) views others →
      Option.Rel (Value.Covers host n) (views.findSome? (Value.get? key))
        (others.findSome? (Value.get? key)) := by
    intro views others h
    induction h with
    | nil => exact .none
    | @cons w v _ _ hb _ ih =>
      have hget := hb.get? key
      simp only [List.findSome?_cons]
      generalize w.get? key = found at hget
      generalize v.get? key = found' at hget
      cases hget with
      | some hc => exact .some hc
      | none => exact ih
  exact hviews h

theorem sheds_descend (keys : List Text) (h : Bares host n w v) (hle : fuel + n ≤ more) :
    Sheds host (Option.Rel (Bares host n)) (descend more keys w) (descend fuel keys v) := by
  induction keys generalizing w v with
  | nil => exact .done (.some h)
  | cons key keys ih =>
    have hget := h.get? key
    simp only [descend]
    generalize w.get? key = found at hget
    generalize v.get? key = found' at hget
    cases hget with
    | none => exact .done .none
    | some hc => exact (Value.sheds_settle hc hle).bind fun _ _ => ih

theorem sheds_lookup (h : Covers host n covering context) (hle : fuel + n ≤ more) (path : KeyPath) :
    Sheds host (Option.Rel (Bares host n)) (covering.lookup more path) (context.lookup fuel path) := by
  rcases path with _ | _ | ⟨key, keys⟩
  · exact .done (.some h.view)
  · exact .done .none
  · have hfind := h.find? key
    simp only [lookup]
    generalize covering.find? key = found at hfind
    generalize context.find? key = found' at hfind
    cases hfind with
    | none => exact .done .none
    | some hc => exact (Value.sheds_settle hc hle).bind fun _ _ hb => sheds_descend keys hb hle

end Context

namespace Render

variable {setting : Setting} {expand other : Expand} {covering context : Context}
  {found found' : Option Value}

/-- A way to render further sources, and one for contexts that cover. -/
def Expand.Sheds (host : Host) (n : Nat) (other expand : Expand) : Prop :=
  ∀ source tags {covering context}, Context.Covers host n covering context →
    Plan.Sheds host Eq (other source tags covering) (expand source tags context)

theorem sheds_interpolated (h : Option.Rel (Bares host n) found found') (hle : fuel + n ≤ more) :
    Sheds host Eq (interpolated more setting other covering found)
      (interpolated fuel setting expand context found') := by
  -- a value whose text is shown
  have htext : ∀ {w v : Value}, Bares host n w v → Sheds host Eq
      ((w.settleDeep more).bind fun w => .done (some w.output))
      ((v.settleDeep fuel).bind fun v => .done (some v.output)) :=
    fun hb => (Value.sheds_settleDeep hb.covers hle).map fun _ _ => congrArg some
  cases h with
  | none => exact .done rfl
  | @some w v hb =>
    have hb' := hb
    cases hb with
    | list | map => exact htext hb'
    | same hk free =>
      cases w with
      | null => exact .done rfl
      | lambda called => exact absurd (.refl _) (free called)
      | pending => exact absurd rfl hk
      | _ => exact htext hb'

theorem sheds_deciding (h : Option.Rel (Bares host n) found found') :
    Sheds host (Option.Rel (Bares host n)) (deciding more found) (deciding fuel found') := by
  cases h with
  | none => exact .done .none
  | @some w v hb =>
    have hb' := hb
    cases hb with
    | list | map => exact .done (.some hb')
    | same hk free =>
      cases w with
      | lambda called => exact absurd (.refl _) (free called)
      | _ => exact .done (.some hb')

theorem isShown_eq (h : Option.Rel (Bares host n) found found') : isShown found = isShown found' := by
  cases h with
  | none => rfl
  | some hb => exact hb.isTruthy_eq

theorem sheds_shown {children children' : Context → Plan Text} {w v : Value}
    (hchildren : ∀ {covering context}, Context.Covers host n covering context →
      Sheds host Eq (children covering) (children' context))
    (hc : Context.Covers host n covering context) (hb : Bares host n w v) (hle : fuel + n ≤ more)
    (raw : Thunk Text) (tags : Tags) :
    Sheds host Eq (shown more other children raw tags covering w)
      (shown fuel expand children' raw tags context v) := by
  -- each item is settled, and then a view
  have hitems : ∀ {items others : List Value}, List.Forall₂ (Value.Covers host n) items others →
      Sheds host Eq (shown more other children raw tags covering (.list items))
        (shown fuel expand children' raw tags context (.list others)) := by
    intro items others h
    refine (Sheds.each (S := Eq) h fun item other hi => ?_).map fun ds cs hs => ?_
    · exact (Value.sheds_settle hi hle).bind fun _ _ hb => hchildren (hc.push hb)
    · rw [List.forall₂_eq_eq_eq] at hs
      exact congrArg List.flatten hs
  have hb' := hb
  cases hb with
  | list h => exact hitems (h.imp fun _ _ => Value.Covers.succ)
  | map => exact hchildren (hc.push hb')
  | same hk free =>
    cases w with
    | list items => exact hitems (Value.forall₂_covers_self n free)
    | map entries => exact hchildren (hc.push hb')
    | lambda called => exact absurd (.refl _) (free called)
    | _ => exact hchildren hc

theorem sheds_together {siblings siblings' : List (Context → Plan Text)}
    (h : List.Forall₂ (fun sibling sibling' => ∀ {covering context},
      Context.Covers host n covering context → Sheds host Eq (sibling covering) (sibling' context))
      siblings siblings') (hc : Context.Covers host n covering context) :
    Sheds host Eq (together siblings covering) (together siblings' context) := by
  refine (Sheds.each (S := Eq) h fun _ _ hs => hs hc).map fun ds cs hs => ?_
  rw [List.forall₂_eq_eq_eq] at hs
  exact congrArg List.flatten hs

mutual
theorem sheds_node (setting : Setting) (he : Expand.Sheds host n other expand) (hle : fuel + n ≤ more) :
    (node' : Node) → {covering context : Context} → Context.Covers host n covering context →
      Sheds host Eq (node more setting other node' covering) (node fuel setting expand node' context)
  | .text _, _, _, _ => .done rfl
  | .comment _, _, _, _ => .done rfl
  | .interpolation path escape _, _, _, hc => by
    refine (Context.sheds_lookup hc hle path).bind fun found found' hf => ?_
    refine (sheds_interpolated hf hle).bind fun shown shown' hs => ?_
    subst hs
    cases shown with
    | none => exact .done rfl
    | some t => exact .done rfl
  | .inclusion name indent _, _, _, hc => by
    rw [node, node]
    cases setting.partials name with
    | none => exact .done rfl
    | some source => exact he _ _ hc
  | .block path inverted children raw tags _, covering, context, hc => by
    have hchildren : ∀ {covering context : Context}, Context.Covers host n covering context →
        Sheds host Eq (together (nodes more setting other children) covering)
          (together (nodes fuel setting expand children) context) :=
      fun hc => sheds_together (sheds_nodes setting he hle children) hc
    simp only [node]
    refine (Context.sheds_lookup hc hle path).bind fun found found' hf => ?_
    refine (sheds_deciding hf).bind fun value value' hv => ?_
    have hshown := isShown_eq hv
    cases inverted with
    | true =>
      simp only [if_true, hshown]
      split
      · exact .done rfl
      · exact hchildren hc
    | false =>
      cases hv with
      | none => exact .done rfl
      | some hb =>
        simp only [hb.isTruthy_eq, Bool.false_eq_true, if_false]
        split
        · exact sheds_shown hchildren hc hb hle raw tags
        · exact .done rfl

theorem sheds_nodes (setting : Setting) (he : Expand.Sheds host n other expand)
    (hle : fuel + n ≤ more) :
    (ns : List Node) → List.Forall₂ (fun sibling sibling' => ∀ {covering context},
      Context.Covers host n covering context → Sheds host Eq (sibling covering) (sibling' context))
      (nodes more setting other ns) (nodes fuel setting expand ns)
  | [] => .nil
  | first :: rest => .cons (sheds_node setting he hle first) (sheds_nodes setting he hle rest)
end

theorem sheds_text (setting : Setting) (hle : fuel + n ≤ more) (ns : List Node)
    (hc : Context.Covers host n covering context) :
    Sheds host Eq (text setting more ns covering) (text setting fuel ns context) := by
  induction fuel generalizing more ns covering context with
  | zero =>
    cases more with
    | zero | succ =>
      refine sheds_together (sheds_nodes setting ?_ hle ns) hc
      exact fun _ _ _ _ _ => .exhausted _
  | succ fuel ih =>
    obtain ⟨more, rfl⟩ : ∃ k, more = k + 1 := ⟨more - 1, by omega⟩
    refine sheds_together (sheds_nodes setting ?_ hle ns) hc
    intro source tags _ _ hc
    exact .compile source tags fun nested _ => ih (by omega) nested hc

end Render

/-- The plan of a render sheds to that of the same render of what its view covers. -/
theorem Request.sheds_plan {request : Request} {view : Value} (h : Value.Covers host n view request.view)
    (hle : fuel + n ≤ more) (config : Config) :
    Sheds host Eq ({ request with view }.plan more config) (request.plan fuel config) := by
  obtain ⟨template, covered, partials, tags, escape⟩ := request
  simp only [plan, setting]
  cases template with
  | string source =>
    refine .compile source _ fun nodes _ => (Value.sheds_settle h hle).bind fun _ _ hb => ?_
    exact Render.sheds_text _ hle nodes (Context.covers_root hb)
  | _ => exact .fail _

end Stencil
