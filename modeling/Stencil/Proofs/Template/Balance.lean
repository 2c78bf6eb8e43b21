import Mathlib.Data.List.Forall2
import Stencil.Proofs.Template.Shift

/-!
# Balanced tags

Whether the sections of a source match depends on the names in its tags alone. A source compiles
when it can be read and its tags balance.
-/

namespace Stencil

namespace Sections

/-- The names of the open sections, innermost first, after one more tag. -/
def step (opened : List Text) (placed : PlacedTag) : Option (List Text) :=
  match placed.tag.sigil with
  | .block | .inverted => some (placed.tag.name :: opened)
  | .close =>
    match opened with
    | [] => none
    | name :: outer => if name = placed.tag.name then some outer else none
  | _ => some opened

def run (opened : List Text) (tags : List PlacedTag) : Option (List Text) :=
  tags.foldlM step opened

/-- Each section that opens closes in its turn. -/
def Balanced (tags : List PlacedTag) : Prop :=
  run [] tags = some []

theorem run_cons (opened : List Text) (placed : PlacedTag) (tags : List PlacedTag) :
    run opened (placed :: tags) = (step opened placed).bind fun opened => run opened tags := rfl

theorem run_append (opened : List Text) (front back : List PlacedTag) :
    run opened (front ++ back) = (run opened front).bind fun opened => run opened back :=
  List.foldlM_append

/-- After balanced tags others balance as they do on their own. -/
theorem Balanced.append_iff {front : List PlacedTag} (h : Balanced front) (back : List PlacedTag) :
    Balanced (front ++ back) ↔ Balanced back := by
  rw [Balanced, run_append, h]
  rfl

section

variable {f : Text → Text} (inj : Function.Injective f)
include inj

theorem step_renamed (opened : List Text) {placed other : PlacedTag}
    (sigil : other.tag.sigil = placed.tag.sigil) (name : other.tag.name = f placed.tag.name) :
    step (opened.map f) other = (step opened placed).map (List.map f) := by
  cases hs : placed.tag.sigil with
  | close =>
    cases opened with
    | nil => simp [step, sigil, hs]
    | cons innermost outer =>
      by_cases hn : innermost = placed.tag.name
      · simp [step, sigil, hs, name, hn]
      · simp [step, sigil, hs, name, hn, inj.eq_iff]
  | _ => simp [step, sigil, hs, name]

/-- Names that are told apart as before balance as before. -/
theorem balanced_iff_of_renamed {tags others : List PlacedTag}
    (h : List.Forall₂ (fun placed other => other.tag.sigil = placed.tag.sigil ∧
      other.tag.name = f placed.tag.name) tags others) : Balanced others ↔ Balanced tags := by
  have hrun : ∀ opened, run (opened.map f) others = (run opened tags).map (List.map f) := by
    induction h with
    | nil => exact fun _ => rfl
    | cons hfirst _ ih =>
      intro opened
      rw [run_cons, run_cons, step_renamed inj opened hfirst.1 hfirst.2]
      cases step opened _ with
      | none => rfl
      | some next => exact ih next
  have hempty := hrun []
  rw [List.map_nil] at hempty
  rw [Balanced, Balanced, hempty]
  cases run [] tags <;> simp

end

end Sections

namespace Builder

variable {source : Text} {b : Builder source}

def names (b : Builder source) : List Text :=
  b.opened.map fun opened => opened.placed.tag.name

/-- A step of the builder succeeds when the names allow it, and leaves the sections open that they
tell. -/
theorem step_names (placed : PlacedTag) (indent : Indent) :
    (b.step (.tag placed indent)).toOption.map names = Sections.step b.names placed := by
  cases hs : placed.tag.sigil with
  | close =>
    cases ho : b.opened with
    | nil => simp [step, hs, close, ho, Sections.step, names, Except.toOption]
    | cons innermost outer =>
      by_cases hn : innermost.placed.tag.name = placed.tag.name
      · simp [step, hs, close, ho, hn, Sections.step, names, Except.toOption]
      · simp [step, hs, close, ho, hn, Sections.step, names, Except.toOption]
  | _ => simp [step, hs, Sections.step, names, push, enter, Except.toOption]

theorem run_names (events : List Event) :
    (b.run events).toOption.map names = Sections.run b.names (Event.tags events) := by
  induction events generalizing b with
  | nil => rfl
  | cons e events ih =>
    rw [run_cons]
    cases e with
    | text t =>
      rw [step_text]
      exact ih
    | tag placed indent =>
      have hstep := step_names (b := b) placed indent
      rw [Event.tags_tag, Sections.run_cons, ← hstep]
      cases b.step (.tag placed indent) with
      | error fault => rfl
      | ok built => exact ih

/-- Events build a tree just when their tags balance. -/
theorem exists_build_iff {events : List Event} :
    (∃ nodes, build source events = .ok nodes) ↔ Sections.Balanced (Event.tags events) := by
  have hrun : _ = Sections.run [] (Event.tags events) := run_names (b := empty source) events
  rw [Sections.Balanced, ← hrun, build]
  cases (empty source).run events with
  | error fault =>
    refine iff_of_false ?_ (by simp [Except.toOption])
    rintro ⟨nodes, h⟩
    cases h
  | ok built =>
    change (∃ nodes, built.finish = .ok nodes) ↔ some built.names = some []
    rw [finish, names, Option.some_inj, List.map_eq_nil_iff]
    split
    · rename_i ho
      exact iff_of_true ⟨_, rfl⟩ ho
    · rename_i ho
      exact iff_of_false (by simp) (by simp [ho])

end Builder

/-- A source compiles just when it can be read to its end and its tags balance. -/
theorem Template.exists_compile_iff {source : Text} {tags : Tags} :
    (∃ nodes, compile source tags = .ok nodes) ↔
      ∃ pieces, Reading tags 0 source pieces ∧ Sections.Balanced (Piece.tags pieces) := by
  have hbuild : ∀ pieces, (∃ nodes, Builder.build source (Piece.events pieces) = .ok nodes) ↔
      Sections.Balanced (Piece.tags pieces) := by
    intro pieces
    rw [Builder.exists_build_iff, Piece.tags_events]
  simp only [compile_eq_ok_iff, ← hbuild]
  constructor
  · rintro ⟨nodes, pieces, hr, hb⟩
    exact ⟨pieces, hr, nodes, hb⟩
  · rintro ⟨pieces, hr, nodes, hb⟩
    exact ⟨nodes, pieces, hr, hb⟩

end Stencil
