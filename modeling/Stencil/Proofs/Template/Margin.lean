import Stencil.Proofs.Plan.Prospect
import Stencil.Proofs.Template.Indented
import Stencil.Proofs.Template.Pairs

/-!
# The margin of a padded text

Each line of a padded text starts with the padding, unless it holds nothing, or nothing but a
carriage return. Of the tags on it, the one that stands alone and the first of several hand the
padding on to their partials.
-/

namespace Stencil

/-- No run of a text that is read goes over a line end. -/
theorem Laid.whole {n : Nat} {t : Text} {pieces : List Piece} (h : Laid n t pieces) :
    (∀ u, .item (.text u) ∈ pieces → '\n' ∉ u) ∧
      ∀ u, .lineEnd u ∈ pieces → u = ['\n'] ∨ u = ['\r', '\n'] := by
  induction h with
  | nil => simp
  | text ne_nil no_feed whole after ih => simpa [no_feed] using ih
  | lineEnd terminator after ih => simpa [terminator] using ih
  | tag solid span after ih => simpa using ih

namespace Line

/-- What is on a line is among the pieces. -/
theorem of_mem_split (ps : List Piece) :
    (∀ line ∈ (split ps).1, (∀ item ∈ line.items, .item item ∈ ps) ∧ .lineEnd line.terminator ∈ ps) ∧
      ∀ item ∈ (split ps).2, .item item ∈ ps := by
  have hall := flatMap_pieces_split ps
  refine ⟨fun line hl => ?_, fun item hi => ?_⟩
  · have hpieces : ∀ piece ∈ line.pieces, piece ∈ ps := by
      intro piece hp
      rw [← hall]
      exact List.mem_append_left _ (List.mem_flatMap.2 ⟨line, hl, hp⟩)
    exact ⟨fun item hi => hpieces _ (by simp [pieces, hi]), hpieces _ (by simp [pieces])⟩
  · rw [← hall]
    exact List.mem_append_right _ (List.mem_map_of_mem hi)

/-- Runs of text and partial tags. -/
structure Plain (items : List Item) : Prop where
  no_feed : ∀ t, .text t ∈ items → '\n' ∉ t
  inclusion : ∀ placed, .tag placed ∈ items → placed.tag.sigil = .inclusion

theorem Plain.tail {item : Item} {items : List Item} (h : Plain (item :: items)) : Plain items :=
  ⟨fun t ht => h.no_feed t (List.mem_cons_of_mem _ ht),
    fun placed hp => h.inclusion placed (List.mem_cons_of_mem _ hp)⟩

/-- What ends a line that has an end. -/
def IsEnd (terminator : Text) : Prop :=
  terminator = ['\n'] ∨ terminator = ['\r', '\n']

/-- What is read of text and partial tags. -/
theorem plain_split {n : Nat} {t : Text} {ps : List Piece} (h : Laid n t ps)
    (inclusion : ∀ placed ∈ Piece.tags ps, placed.tag.sigil = .inclusion) :
    (∀ line ∈ (split ps).1, Plain line.items ∧ IsEnd line.terminator) ∧ Plain (split ps).2 := by
  obtain ⟨hlines, hlast⟩ := of_mem_split ps
  have hplain : ∀ items : List Item, (∀ item ∈ items, .item item ∈ ps) → Plain items := fun items hi =>
    ⟨fun t ht => h.whole.1 t (hi _ ht),
      fun placed hp => inclusion placed (List.mem_filterMap.2 ⟨_, hi _ hp, rfl⟩)⟩
  exact ⟨fun line hl => ⟨hplain _ (hlines line hl).1, h.whole.2 _ (hlines line hl).2⟩,
    hplain _ hlast⟩

/-- The items of a line that starts with the margin, if it needs one. -/
inductive Margined (margin : Text) : List Item → Prop
  | empty : Margined margin []
  | lastReturn : Margined margin [.text ['\r']]
  | padded (t : Text) (items : List Item) : Margined margin (.text (margin ++ t) :: items)

/-- A shorter margin. -/
theorem Margined.shorten {margin padding : Text} {items : List Item}
    (h : Margined padding items) (hm : margin <+: padding) : Margined margin items := by
  cases h with
  | empty => exact .empty
  | lastReturn => exact .lastReturn
  | padded t items =>
    obtain ⟨more, rfl⟩ := hm
    rw [List.append_assoc]
    exact .padded (more ++ t) items

/-- All lines start with the margin; the first does if it is fresh. -/
inductive AllMargined (margin : Text) : (fresh : Bool) → List Line × List Item → Prop
  | last {fresh : Bool} {items : List Item} (h : fresh = true → Margined margin items) :
    AllMargined margin fresh ([], items)
  | more {fresh : Bool} {line : Line} {lines : List Line} {last : List Item}
    (h : fresh = true → Margined margin line.items)
    (rest : AllMargined margin true (lines, last)) : AllMargined margin fresh (line :: lines, last)

section
variable {margin padding : Text} {fresh : Bool} {pieces others : List Piece}

theorem AllMargined.shorten {lines : List Line × List Item}
    (h : AllMargined padding fresh lines) (hm : margin <+: padding) :
    AllMargined margin fresh lines := by
  induction h with
  | last h => exact .last fun hf => (h hf).shorten hm
  | more h _ ih => exact .more (fun hf => (h hf).shorten hm) ih

theorem AllMargined.onFirst {f : List Item → List Item} {lines : List Line × List Item}
    (h : AllMargined margin false lines)
    (hf : fresh = true → ∀ items, Margined margin (f items)) :
    AllMargined margin fresh (Line.onFirst f lines) := by
  cases h with
  | last => exact .last fun hfresh => hf hfresh _
  | more _ rest => exact .more (fun hfresh => hf hfresh _) rest

/-- The lines of a padded source start with the padding. -/
theorem allMargined_split (h : Piece.Padded padding fresh pieces others) :
    AllMargined padding fresh (split others) := by
  induction h with
  | nil => exact .last fun _ => .empty
  | lineEnd terminator _ ih => exact .more (fun _ => .empty) ih
  | lastReturn => exact .last fun _ => .lastReturn
  | text t _ ih =>
    rw [split_item]
    exact ih.onFirst nofun
  | tag same _ ih =>
    rw [split_item]
    exact ih.onFirst nofun
  | freshText t _ ih =>
    rw [split_item]
    exact ih.onFirst fun _ items => .padded t items
  | @freshTag pieces padded placed again same _ ih =>
    rw [split_item, split_item]
    have hafter : AllMargined padding false (Line.onFirst (.tag again :: ·) (split padded)) :=
      ih.onFirst nofun
    refine hafter.onFirst fun _ items => ?_
    have hm : Margined padding (.text (padding ++ []) :: items) := .padded [] _
    rwa [List.append_nil] at hm

end

section
variable {items : List Item} {placed : PlacedTag}

theorem mem_of_lone (h : lone? items = some placed) : .tag placed ∈ items := by
  have hm : placed ∈ items.filterMap placed? := by
    rw [filterMap_placed?_of_lone h]
    exact List.mem_singleton_self _
  obtain ⟨item, hi, hp⟩ := List.mem_filterMap.1 hm
  cases item with
  | text t => cases hp
  | tag found =>
    cases hp
    exact hi

/-- What is in front of a tag that stands alone is blank. -/
theorem isBlank_preceding (h : lone? items = some placed) : isBlank (preceding items) = true := by
  have hall : items.all admitsLone = true := by
    unfold lone? at h
    split at h
    · split at h
      · assumption
      · cases h
    · cases h
  clear h
  induction items with
  | nil => rfl
  | cons item items ih =>
    rw [List.all_cons, Bool.and_eq_true] at hall
    cases item with
    | text t => rw [preceding, isBlank_append, show isBlank t = true from hall.1, ih hall.2, Bool.and_true]
    | tag _ => rfl

theorem isBlank_inline (t : Text) : isBlank (Indent.inline t).padding = true := by
  simp only [Indent.inline, isBlank, List.all_map, List.all_eq_true, Function.comp_apply]
  intro c _
  split <;> rfl

/-- Whatever padding a tag hands on is blank. -/
theorem isBlank_of_mem_events {line : Line} {indent : Indent} (h : .tag placed indent ∈ line.events) :
    isBlank indent.padding = true := by
  obtain ⟨before, after, -, ⟨hl, rfl⟩ | ⟨-, rfl⟩⟩ := of_mem_events h
  · exact isBlank_preceding hl
  · split
    · exact isBlank_inline _
    · rfl

/-- What comes before the first tag of a line starts with the margin. -/
theorem Margined.prefix_preceding {margin : Text} (h : Margined margin items)
    (hp : .tag placed ∈ items) : margin <+: preceding items := by
  cases h with
  | empty => cases hp
  | lastReturn => simp at hp
  | padded t items => exact ⟨t ++ preceding items, by simp [preceding]⟩

/-- A blank margin is kept in the padding up to the column of a tag. -/
theorem prefix_inline {margin t : Text} (blank : isBlank margin = true) (h : margin <+: t) :
    margin <+: (Indent.inline t).padding := by
  obtain ⟨more, rfl⟩ := h
  rw [Indent.inline_append blank]
  exact List.prefix_append _ _

end

end Line

namespace Template

variable {source : Text} {tags : Tags} {nodes : List Node} {indent : Indent}

/-- A source of nothing but text and partial tags. -/
def OnlyPartials (source : Text) (tags : Tags) : Prop :=
  ∀ placed ∈ Template.placed source tags, placed.tag.sigil = .inclusion

/-- What is read of a padded source: partial tags, on lines that start with the padding. -/
theorem OnlyPartials.exists_reading (h : OnlyPartials source tags)
    (blank : Line.isBlank indent.padding = true)
    (hc : compile (indent.apply source) tags = .ok nodes) :
    ∃ pieces, Reading tags 0 (indent.apply source) pieces ∧
      Nested (indent.apply source) (Piece.events pieces) nodes ∧
      (∀ placed ∈ Piece.tags pieces, placed.tag.sigil = .inclusion) ∧
      (indent.padding ≠ [] → Line.AllMargined indent.padding indent.firstLine (Line.split pieces)) := by
  obtain ⟨others, hr, hn⟩ := compile_eq_ok_iff_nested.1 hc
  refine ⟨others, hr, hn, ?_⟩
  by_cases ne_nil : indent.padding = []
  · rw [Indent.apply_of_isEmpty (by simp [Indent.isEmpty, ne_nil])] at hr
    refine ⟨?_, fun hne => absurd ne_nil hne⟩
    rw [← placed_of_reading hr]
    exact h
  · obtain ⟨pieces, hp⟩ := hr.of_padded blank 0
    obtain ⟨again, hr', hpadded⟩ := hp.padded blank ne_nil indent.firstLine 0
    obtain rfl := hr'.unique hr
    refine ⟨fun placed hm => ?_, fun _ => Line.allMargined_split hpadded⟩
    obtain ⟨found, hf, same, -⟩ :=
      exists_of_mem_of_forall₂ (hp.tags_padded blank hr hpadded).flip hm
    rw [same.sigil]
    exact h found (placed_of_reading hp ▸ hf)

end Template
end Stencil
