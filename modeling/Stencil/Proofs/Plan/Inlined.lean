import Mathlib
import Stencil.Proofs.Plan.Exchange
import Stencil.Proofs.Template.Inlined

/-!
# What a partial in its own place means

Where the text of a partial fits in the place of a tag that includes it, the source with the tag and
the source with the text compile alike and mean the same.
-/

namespace Stencil

open Event (spell)
open Piece (atoms)

theorem Indent.apply_of_no_feed {indent : Indent} (kept : indent.firstLine = false) {t : Text}
    (no_feed : '\n' ∉ t) : indent.apply t = t := by
  obtain ⟨padding, fresh⟩ := indent
  obtain rfl : fresh = false := kept
  rw [apply_rest, pad_of_no_feed no_feed]

theorem Piece.map_shift_zero (pieces : List Piece) : pieces.map (shift 0) = pieces := by
  refine (List.map_congr_left fun piece _ => ?_).trans (List.map_id pieces)
  cases piece with
  | lineEnd t => rfl
  | item item => cases item <;> rfl

/-- Items that hold a character which is seen give their events in order. -/
theorem Reading.spell_events_of_items {tags : Tags} {n : Nat} {t : Text} {pieces : List Piece}
    (h : Reading tags n t pieces) {items : List Item} (hi : pieces.flatMap atoms = items.map .item)
    (keeps : Line.lone? items = none) : ∃ indent,
      spell (Piece.events pieces) = spell (Piece.spread indent (items.map .item)) := by
  have hbody : Line.body items [] = items := if_neg (by simp)
  have hspell := @Line.spell_events_closeLines items [] Piece.feeds_nil (by rwa [hbody])
  rw [List.append_nil, ← hi, h.laid.spell_events, hi] at hspell
  have hnone : spell (Piece.events (Piece.closeLines ([] : List Piece).tail)) = [] := rfl
  rw [hnone] at hspell
  exact ⟨_, by simpa using hspell⟩

namespace Template.Fits

variable {host : Host} {setting : Setting} {front raw back part : Text} {placed : PlacedTag}
  {inside : List Piece} {items : List Item} (h : Fits setting.tags front raw back part placed)
  (seen : Template.Seen setting.tags part back)
  (hpart : setting.partials placed.tag.name = some part)
include h seen hpart

/-- The events of the partial in exchange for the tag. -/
theorem equivalent (hinside : Reading setting.tags 0 part inside)
    (hitems : inside.flatMap atoms = items.map .item) :
    Event.Equivalent host setting (front ++ (part ++ back))
      (Piece.Inlined placed ((items.map (Item.shift front.size)).map Piece.item)) := by
  rintro _ indent _ ⟨rfl, kept, other, rfl⟩
  refine ⟨by rw [h.includes]; rfl, ?_⟩
  obtain ⟨nodes, hcompile⟩ := h.compiles
  obtain ⟨pieces, hpieces, hnested⟩ := compile_eq_ok_iff_nested.1 hcompile
  obtain rfl := hpieces.unique hinside
  obtain ⟨before, c, after, hsolid, space, tab, -⟩ := h.exists_solid seen hinside hitems
  have keeps : Line.lone? items = none := Line.lone?_of_solid (by simp [hsolid]) space tab
  obtain ⟨told, hspell⟩ := hinside.spell_events_of_items hitems keeps
  have hplain : ∀ found ∈ Piece.tags (items.map .item), found.tag.sigil ≠ .inclusion := by
    intro found hf
    rw [← hitems, Piece.tags_flatMap_atoms, ← placed_of_reading hinside] at hf
    exact (h.plain found hf).1
  have hsame : List.Forall₂ Event.Same (spell (Piece.events pieces))
      (spell (Piece.spread other ((items.map (Item.shift front.size)).map .item))) := by
    rw [hspell, ← Piece.map_shift_items]
    have hspread := Piece.forall₂_spread hplain 0 front.size told other
    rw [Piece.map_shift_zero] at hspread
    exact Event.forall₂_spell hspread
  -- nothing is exchanged within the partial
  obtain ⟨again, hagain, halike⟩ := @Nested.exchange host setting _ (front ++ (part ++ back))
    (fun _ _ _ => False) _ _ _ (fun _ _ _ => False.elim) (hnested.spell hinside.written)
    (.of_same hsame)
  refine ⟨again, hagain, .trans (fun context bare t => ?_) halike⟩
  rw [PlacedTag.single, h.includes]
  exact Render.means_inclusion hpart (by rwa [indent.apply_of_no_feed kept h.no_feed])

/-- What the two sources compile to means the same. -/
theorem alike {nodes again : List Node}
    (hn : compile (front ++ (raw ++ back)) setting.tags = .ok nodes)
    (ha : compile (front ++ (part ++ back)) setting.tags = .ok again) :
    Render.Alike host setting nodes again := by
  obtain ⟨_, hcompile⟩ := h.compiles
  obtain ⟨inside, hinside, -⟩ := compile_eq_ok_iff_nested.1 hcompile
  obtain ⟨items, hitems⟩ := hinside.laid.exists_items_of_no_feed h.no_feed
  obtain ⟨pieces, hpieces, hnodes⟩ := compile_eq_ok_iff_nested.1 hn
  obtain ⟨others, hothers, hagain⟩ := compile_eq_ok_iff_nested.1 ha
  have hexchanged := (h.exchanged seen hinside hitems).2 pieces others hpieces hothers
  obtain ⟨found, hfound, halike⟩ := (hnodes.spell hpieces.written).exchange
    (h.equivalent seen hpart hinside hitems) hexchanged
  -- the tree of the events is the only one
  have hsame := Builder.build_eq_ok_iff.2 ((Nested.spell_iff hothers.written).1 hfound)
  rw [Builder.build_eq_ok_iff.2 hagain] at hsame
  cases hsame
  exact halike

end Template.Fits

namespace Request

variable {host : Host} {request : Request} {config : Config} {front raw back part t : Text}
  {placed : PlacedTag}

/-- A render may come to a text with the tag just when it may with the text of the partial. -/
theorem gives_inlined (free : request.view.LambdaFree host)
    (h : Template.Fits (request.setting config).tags front raw back part placed)
    (seen : Template.Seen (request.setting config).tags part back)
    (hpart : (request.setting config).partials placed.tag.name = some part)
    (hs : request.template = .string (front ++ (raw ++ back))) :
    (∃ fuel, (request.plan fuel config).Gives host t) ↔
      ∃ fuel, ({ request with template := .string (front ++ (part ++ back)) }.plan fuel config).Gives
        host t :=
  gives_plan_congr free hs (h.exists_compile_iff seen) fun _ _ hn ha => h.alike seen hpart hn ha

end Request
end Stencil
