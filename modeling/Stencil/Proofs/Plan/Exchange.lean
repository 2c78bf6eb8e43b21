import Stencil.Proofs.Plan.Meaning
import Stencil.Proofs.Template.Exchange

/-!
# What an exchange means

A tree whose tags have events in exchange that come to what they come to is a tree that means the
same, however deep in sections the tags are.
-/

namespace Stencil

variable {host : Host} {setting : Setting}

/-- Events in exchange for a single tag that are a tree of their own, one that means what the tag
does. -/
def Event.Equivalent (host : Host) (setting : Setting) (source : Text)
    (instead : PlacedTag → Indent → List Event → Prop) : Prop :=
  ∀ placed indent more, instead placed indent more → placed.tag.sigil.isSingle = true ∧
    ∃ nodes, Nested source more nodes ∧ Render.Alike host setting (placed.single indent) nodes

namespace Nested

variable {source other : Text} {instead : PlacedTag → Indent → List Event → Prop}
  {events others : List Event} {nodes : List Node}

open Render (Alike)

/-- A text goes with a text alone. -/
theorem exchanged_text {t : Text} (h : Event.Exchanged instead (events ++ [.text t]) others) :
    ∃ first, others = first ++ [.text t] ∧ Event.Exchanged instead events first := by
  obtain ⟨first, second, rfl, hfirst, hsecond⟩ := h.exists_split
  cases hsecond with
  | same same rest =>
    cases same with
    | text =>
      cases rest
      exact ⟨first, rfl, hfirst⟩

/-- A tag of a section goes with such a tag alone. -/
theorem exchanged_section {placed : PlacedTag} {indent : Indent} {front back : List Event}
    (equivalent : Event.Equivalent host setting other instead)
    (hs : placed.tag.sigil.isSingle = false)
    (h : Event.Exchanged instead (front ++ .tag placed indent :: back) others) :
    ∃ first again j second, others = first ++ .tag again j :: second ∧ again.tag = placed.tag ∧
      Event.Exchanged instead front first ∧ Event.Exchanged instead back second := by
  obtain ⟨first, second, rfl, hfirst, hsecond⟩ := h.exists_split
  cases hsecond with
  | same same rest =>
    cases same with
    | tag same _ => exact ⟨first, _, _, _, rfl, same, hfirst, rest⟩
  | instead hmore rest =>
    have hsingle := (equivalent _ _ _ hmore).1
    simp [hs] at hsingle

theorem alike_append_text {again : List Node} (t : Text) (h : Alike host setting nodes again) :
    Alike host setting (nodes ++ [.text t]) (Node.join again [.text t]) :=
  (h.append (.refl _)).trans (Alike.join again [.text t]).symm

/-- What nodes mean is kept. -/
theorem exchange (equivalent : Event.Equivalent host setting other instead)
    (h : Nested source events nodes) (he : Event.Exchanged instead events others) :
    ∃ again, Nested other others again ∧ Alike host setting nodes again := by
  induction h generalizing others with
  | nil =>
    cases he
    exact ⟨[], .nil, .refl _⟩
  | text t fresh _ ih =>
    obtain ⟨first, rfl, hfirst⟩ := exchanged_text he
    obtain ⟨again, hnested, halike⟩ := ih hfirst
    exact ⟨_, hnested.append_text t, alike_append_text t halike⟩
  | @more events nodes u t _ ih =>
    obtain ⟨first, rfl, hfirst⟩ := exchanged_text he
    obtain ⟨again, hnested, halike⟩ := ih hfirst
    refine ⟨_, hnested.append_text t, .trans ?_ (alike_append_text t halike)⟩
    have hcut := (@Alike.refl host setting nodes).append (.texts u t)
    simpa using hcut
  | @single events nodes placed indent single _ ih =>
    obtain ⟨first, second, rfl, hfirst, hsecond⟩ := he.exists_split
    obtain ⟨again, hnested, halike⟩ := ih hfirst
    cases hsecond with
    | same same rest =>
      cases rest
      cases same with
      | @tag _ found _ j same indented =>
        have hsingle : found.tag.sigil.isSingle = true := by rwa [same]
        exact ⟨_, .single j hsingle hnested, halike.append (Render.alike_single same indented)⟩
    | instead hmore rest =>
      cases rest
      obtain ⟨-, inside, hinside, hmeans⟩ := equivalent _ _ _ hmore
      rw [List.append_nil]
      exact ⟨_, hnested.append hinside,
        (halike.append hmeans).trans (Alike.join again inside).symm⟩
  | @block events inner nodes children opener closer i j opens closes named _ _ ihf ihw =>
    have hopener : opener.tag.sigil.isSingle = false := by
      cases hs : opener.tag.sigil <;> simp_all [Sigil.opens, Sigil.isSingle]
    have hcloser : closer.tag.sigil.isSingle = false := by rw [closes]; rfl
    obtain ⟨first, opening, i', rest, rfl, hopening, hfirst, hrest⟩ :=
      exchanged_section equivalent hopener he
    obtain ⟨middle, closing, j', last, rfl, hclosing, hmiddle, hlast⟩ :=
      exchanged_section equivalent hcloser hrest
    cases hlast
    obtain ⟨again, hnested, halike⟩ := ihf hfirst
    obtain ⟨within, hwithin, hchildren⟩ := ihw hmiddle
    have hopens : opening.tag.sigil.opens = true := by rwa [hopening]
    have hcloses : closing.tag.sigil = .close := by rwa [hclosing]
    have hnamed : opening.tag.name = closing.tag.name := by rwa [hopening, hclosing]
    refine ⟨_, .block i' j' hopens hcloses hnamed hnested hwithin, halike.append ?_⟩
    rw [PlacedTag.enclose, PlacedTag.enclose, hopening]
    exact hchildren.block

end Nested
end Stencil
