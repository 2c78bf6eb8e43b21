import Stencil.Proofs.Template.Balance
import Stencil.Proofs.Template.Redraw

/-!
# Events in exchange for a tag

Events of two sources that go together one by one, but that some tags of the first have events of the
second instead.
-/

namespace Stencil

/-- The second does the same wherever it stands: only a partial depends on its indentation. -/
inductive Event.Same : Event → Event → Prop
  | text (t : Text) : Same (.text t) (.text t)
  | tag {placed other : PlacedTag} {indent again : Indent} (same : other.tag = placed.tag)
    (indented : placed.tag.sigil = .inclusion → again = indent) :
    Same (.tag placed indent) (.tag other again)

/-- The events go together, where `instead` says what a tag may be exchanged for. -/
inductive Event.Exchanged (instead : PlacedTag → Indent → List Event → Prop) :
    List Event → List Event → Prop
  | nil : Exchanged instead [] []
  | same {e again : Event} {events others : List Event} (h : e.Same again)
    (rest : Exchanged instead events others) : Exchanged instead (e :: events) (again :: others)
  | instead {placed : PlacedTag} {indent : Indent} {more events others : List Event}
    (h : instead placed indent more) (rest : Exchanged instead events others) :
    Exchanged instead (.tag placed indent :: events) (more ++ others)

namespace Event

variable {instead : PlacedTag → Indent → List Event → Prop}
  {events others front back first second : List Event}

theorem Same.refl (e : Event) : e.Same e := by
  cases e with
  | text t => exact .text t
  | tag placed indent => exact .tag rfl fun _ => rfl

namespace Exchanged

theorem of_same (h : List.Forall₂ Same events others) : Exchanged instead events others := by
  induction h with
  | nil => exact .nil
  | cons h _ ih => exact .same h ih

theorem append (h : Exchanged instead front first) (ho : Exchanged instead back second) :
    Exchanged instead (front ++ back) (first ++ second) := by
  induction h with
  | nil => exact ho
  | same h _ ih => exact .same h ih
  | instead h _ ih =>
    rw [List.append_assoc]
    exact .instead h ih

/-- Where the first can be parted, the second can. -/
theorem exists_split (h : Exchanged instead (front ++ back) others) :
    ∃ first second, others = first ++ second ∧ Exchanged instead front first ∧
      Exchanged instead back second := by
  induction front generalizing others with
  | nil => exact ⟨[], others, rfl, .nil, h⟩
  | cons e front ih =>
    rw [List.cons_append] at h
    cases h with
    | @same _ again _ _ h rest =>
      obtain ⟨first, second, rfl, hf, hb⟩ := ih rest
      exact ⟨again :: first, second, rfl, .same h hf, hb⟩
    | @instead _ _ more _ _ h rest =>
      obtain ⟨first, second, rfl, hf, hb⟩ := ih rest
      exact ⟨more ++ first, second, by simp, .instead h hf, hb⟩

end Exchanged
end Event

namespace Sections

/-- Sections that are open from before stay open below. -/
theorem run_append_opened {opened outer left : List Text} {tags : List PlacedTag}
    (h : run opened tags = some left) : run (opened ++ outer) tags = some (left ++ outer) := by
  induction tags generalizing opened with
  | nil =>
    cases h
    rfl
  | cons placed tags ih =>
    rw [run_cons, Option.bind_eq_some_iff] at h
    obtain ⟨next, hs, hr⟩ := h
    have hstep : step (opened ++ outer) placed = some (next ++ outer) := by
      unfold step at hs ⊢
      split at hs
      · cases hs
        rfl
      · cases hs
        rfl
      · cases opened with
        | nil => cases hs
        | cons name opened =>
          simp only [List.cons_append] at hs ⊢
          split at hs
          · rename_i named
            cases hs
            exact if_pos named
          · cases hs
      · cases hs
        rfl
    rw [run_cons, hstep]
    exact ih hr

/-- Balanced tags leave the open sections as they are. -/
theorem Balanced.run_eq {tags : List PlacedTag} (h : Balanced tags) (opened : List Text) :
    run opened tags = some opened :=
  @run_append_opened [] opened [] tags h

theorem step_of_isSingle {placed : PlacedTag} (h : placed.tag.sigil.isSingle = true)
    (opened : List Text) : step opened placed = some opened := by
  unfold step
  cases hs : placed.tag.sigil <;> simp_all [Sigil.isSingle]

end Sections

/-- Events in exchange for a tag that belongs to no section, which leave no section open. -/
def Event.Neutral (instead : PlacedTag → Indent → List Event → Prop) : Prop :=
  ∀ placed indent more, instead placed indent more →
    placed.tag.sigil.isSingle = true ∧ Sections.Balanced (Event.tags more)

/-- Events go together only if their sections do. -/
theorem Event.Exchanged.balanced_iff {instead : PlacedTag → Indent → List Event → Prop}
    {events others : List Event} (h : Event.Exchanged instead events others)
    (neutral : Event.Neutral instead) :
    Sections.Balanced (Event.tags events) ↔ Sections.Balanced (Event.tags others) := by
  have hrun : ∀ opened, Sections.run opened (Event.tags events) =
      Sections.run opened (Event.tags others) := by
    induction h with
    | nil => exact fun _ => rfl
    | same h _ ih =>
      cases h with
      | text t => exact ih
      | @tag placed other _ _ same _ =>
        intro opened
        have hstep : Sections.step opened other = Sections.step opened placed := by
          unfold Sections.step
          rw [same]
        rw [tags_tag, tags_tag, Sections.run_cons, Sections.run_cons, hstep]
        exact congrArg _ (funext ih)
    | instead h _ ih =>
      intro opened
      obtain ⟨single, balanced⟩ := neutral _ _ _ h
      rw [tags_tag, Sections.run_cons, Sections.step_of_isSingle single, tags_append,
        Sections.run_append, balanced.run_eq]
      exact ih opened
  rw [Sections.Balanced, hrun, Sections.Balanced]

end Stencil
