import Mathlib.Order.WellFoundedSet
import Stencil.Proofs.Plan.Depth
import Stencil.Proofs.Template.Margin

/-!
# Partials that do not include each other in circles

Which partials a partial includes can be read off its own text: where it is included, its text is
indented and compiled anew, but the names in it stay the same. If finitely many partials include each
other in no circle, every template nests only so deep.
-/

namespace Stencil

theorem Partials.mem_of_ofList {entries : List (Text × Text)} {name source : Text}
    (h : Partials.ofList entries name = some source) : (name, source) ∈ entries := by
  obtain ⟨front, back, he, -⟩ := List.lookup_eq_some_iff.1 h
  rw [← List.mem_reverse, he]
  simp

/-- A list gives texts to finitely many names. -/
theorem Partials.finite_ofList (entries : List (Text × Text)) :
    {name | (Partials.ofList entries name).isSome}.Finite := by
  refine (List.finite_toSet (entries.map Prod.fst)).subset fun name hname => ?_
  obtain ⟨source, hs⟩ := Option.isSome_iff_exists.1 hname
  exact List.mem_map_of_mem (f := Prod.fst) (mem_of_ofList hs)

/-- The text of one partial, compiled under a pair, has a partial tag for the other at any depth. -/
def Partials.Includes (partials : Partials) (tags : Tags) (name other : Text) : Prop :=
  ∃ source nodes indent span, partials name = some source ∧
    Template.compile source tags = .ok nodes ∧ Within (.inclusion other indent span) nodes

section
variable {padding source other name : Text} {first : Bool} {tags : Tags} {nodes again : List Node}
  {all others : List PlacedTag} {indent : Indent} {span : Span}

/-- Each partial among padded nodes is one of the original, with its name padded. -/
theorem Node.exists_within_of_padded
    (h : List.Forall₂ (Node.Padded padding first source all others) (Node.withoutTexts nodes)
      (Node.withoutTexts again)) (hw : Within (.inclusion name indent span) again) :
    ∃ found i s, Within (.inclusion found i s) nodes ∧ name = (Indent.mk padding false).apply found := by
  generalize hn : Node.inclusion name indent span = node at hw
  induction hw generalizing nodes with
  | here hm =>
    subst hn
    obtain ⟨original, ho, hp⟩ :=
      exists_of_mem_of_forall₂ h.flip (List.mem_filter.2 ⟨hm, rfl⟩)
    cases hp with
    | inclusion => exact ⟨_, _, _, .here (List.mem_filter.1 ho).1, rfl⟩
  | inside hm _ ih =>
    obtain ⟨original, ho, hp⟩ :=
      exists_of_mem_of_forall₂ h.flip (List.mem_filter.2 ⟨hm, rfl⟩)
    cases hp with
    | block _ _ _ _ _ within =>
      obtain ⟨found, i, s, hw, hname⟩ := ih within
      exact ⟨found, i, s, .inside (List.mem_filter.1 ho).1 hw, hname⟩

namespace Template

/-- The indentation that a partial is given is blank. -/
theorem isBlank_of_within (h : compile source tags = .ok nodes)
    (hw : Within (.inclusion name indent span) nodes) : Line.isBlank indent.padding = true := by
  obtain ⟨pieces, -, hn⟩ := compile_eq_ok_iff_nested.1 h
  obtain ⟨placed, he, -⟩ := hn.inclusion_of_within hw
  rcases List.mem_append.1 he with he | he
  · obtain ⟨line, -, he⟩ := List.mem_flatMap.1 he
    exact Line.isBlank_of_mem_events he
  · exact Line.isBlank_of_mem_events he

/-- Each partial of an indented source is one of the source, with its name padded. -/
theorem exists_within_of_apply (blank : Line.isBlank indent.padding = true)
    (h : compile (indent.apply source) tags = .ok again) {i : Indent}
    (hw : Within (.inclusion name i span) again) :
    ∃ nodes found j s, compile source tags = .ok nodes ∧ Within (.inclusion found j s) nodes ∧
      name = (Indent.mk indent.padding false).apply found := by
  by_cases ne_nil : indent.padding = []
  · rw [Indent.apply_of_isEmpty (by simp [Indent.isEmpty, ne_nil])] at h
    exact ⟨again, name, i, span, h, hw, (Indent.apply_of_isEmpty (by simp [Indent.isEmpty, ne_nil]) _).symm⟩
  · obtain ⟨nodes, hc⟩ := (exists_compile_padded_iff blank ne_nil indent.firstLine source tags).1
      ⟨again, h⟩
    obtain ⟨pieces, hr, hn⟩ := compile_eq_ok_iff_nested.1 hc
    obtain ⟨others, hothers, hnested⟩ := compile_eq_ok_iff_nested.1 h
    obtain ⟨found, hfound, hp⟩ := hr.padded blank ne_nil indent.firstLine 0
    obtain rfl := hothers.unique hfound
    -- the tags of the indented source draw no other nodes than those it compiles to
    obtain ⟨drawn, hdrawn, halike⟩ :=
      hn.redraw_along Nested.draws_padded (hr.pairs_padded blank hothers hp)
    have hbuild := Builder.build_eq_ok_iff.2 hdrawn
    rw [Builder.build_eq_ok_iff.2 hnested] at hbuild
    obtain rfl := Except.ok.inj hbuild
    obtain ⟨found, j, s, hfound, hname⟩ := Node.exists_within_of_padded halike hw
    exact ⟨nodes, found, j, s, hc, hfound, hname⟩

end Template

/-- A partial includes, wherever it is included itself, what its own text has partial tags for. -/
theorem Partials.includes_of_apply {partials : Partials} {part : Text}
    (hnames : ∀ name other, partials.Includes tags name other → '\n' ∉ other)
    (blank : Line.isBlank indent.padding = true) (hs : partials part = some source)
    (h : Template.compile (indent.apply source) tags = .ok again) {i : Indent}
    (hw : Within (.inclusion name i span) again) : partials.Includes tags part name := by
  obtain ⟨nodes, found, j, s, hc, hfound, rfl⟩ := Template.exists_within_of_apply blank h hw
  have hincludes : partials.Includes tags part found := ⟨source, nodes, j, s, hs, hc, hfound⟩
  rwa [Indent.apply_rest, Indent.pad_of_no_feed (hnames _ _ hincludes)]

end

section
variable {host : Host} {ids : PendingId → Prop} {n : Nat} {setting : Setting}

/-- The text of a partial is light to render, however it is indented. -/
def Partials.Light (host : Host) (ids : PendingId → Prop) (n : Nat) (setting : Setting)
    (name : Text) : Prop :=
  ∀ (indent : Indent) source nodes, Line.isBlank indent.padding = true →
    setting.partials name = some source →
    Template.compile (indent.apply source) setting.tags = .ok nodes →
    Render.Nests host ids n setting nodes

/-- Nodes are light if the partials are that they have tags for. -/
theorem Render.nests_of_partials {source : Text} {ns : List Node}
    (hc : Template.compile source setting.tags = .ok ns)
    (h : ∀ name indent span, Within (.inclusion name indent span) ns →
      (setting.partials name).isSome → Partials.Light host ids n setting name) :
    Nests host ids n setting ns := by
  refine Expands.nests fun name indent span source nested hw hs hn => ?_
  exact h name indent span hw (by simp [hs]) indent source nested (Template.isBlank_of_within hc hw)
    hs hn

variable (hfinite : {name | (setting.partials name).isSome}.Finite)
  (hnames : ∀ name other, setting.partials.Includes setting.tags name other → '\n' ∉ other)
  (hacyclic : ∀ name, ¬ Relation.TransGen (setting.partials.Includes setting.tags) name name)
include hfinite hnames hacyclic

/-- By induction along the inclusions, which end. -/
theorem Partials.light_of_acyclic {name : Text} (hname : (setting.partials name).isSome) :
    Partials.Light host ids n setting name := by
  let below (other name : Text) : Prop :=
    Relation.TransGen (setting.partials.Includes setting.tags) name other
  have hbelow : IsStrictOrder Text below :=
    { irrefl := hacyclic, trans := fun _ _ _ h h' => h'.trans h }
  have hwf : {name | (setting.partials name).isSome}.WellFoundedOn below := hfinite.wellFoundedOn
  refine hwf.induction (P := Partials.Light host ids n setting) hname fun name _ ih => ?_
  intro indent source nodes blank hs hc
  refine Render.nests_of_partials hc fun other i span hw hother => ih other hother (.single ?_)
  exact includes_of_apply hnames blank hs hc hw

/-- So every template is light. -/
theorem Render.nests_of_acyclic {source : Text} {ns : List Node}
    (hc : Template.compile source setting.tags = .ok ns) : Nests host ids n setting ns :=
  nests_of_partials hc fun _ _ _ _ hname => Partials.light_of_acyclic hfinite hnames hacyclic hname

end

/-- When partials include each other in no circle, the plan of a render of finite data is confined
from a bound on. -/
theorem Request.exists_confined_of_acyclic {host : Host} {request : Request} {config : Config}
    (hfinite : {name | (request.partials name).isSome}.Finite)
    (hnames : ∀ name other,
      request.partials.Includes (request.setting config).tags name other → '\n' ∉ other)
    (hacyclic : ∀ name,
      ¬ Relation.TransGen (request.partials.Includes (request.setting config).tags) name name)
    (hview : request.view.IsFinite host) (free : request.view.LambdaFree host) :
    ∃ bound, ∀ fuel, bound ≤ fuel →
      (request.plan fuel config).Confined host (Value.Reaches host request.view <| .pending ·) bound := by
  obtain ⟨n, hn⟩ := hview.exists_shallow free fun id h => h
  refine exists_confined_plan (fun source ns _ hc => ?_) hn
  exact @Render.nests_of_acyclic _ _ _ (request.setting config) hfinite hnames hacyclic _ _ hc

end Stencil
