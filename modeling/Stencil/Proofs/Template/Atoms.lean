import Stencil.Proofs.Template.PaddedLine

/-!
# Pieces character by character

How text is cut into runs makes no difference to the tree, so the pieces of a source may be taken
character by character. That way those of a text put together from others are theirs, one after the
other; only a carriage return has to be told whether a line feed follows.
-/

namespace Stencil

/-- An item with each character of its text on its own. -/
def Item.singles : Item → List Item
  | .text t => t.map fun c => .text [c]
  | item => [item]

namespace Piece

def singles : Piece → List Piece
  | .item i => i.singles.map .item
  | piece => [piece]

/-- A character outside of the tags. -/
def ofChar (c : Char) : Piece :=
  if c = '\n' then .lineEnd ['\n'] else .item (.text [c])

/-- The characters of a piece, also those of a line end, each on its own. -/
def atoms : Piece → List Piece
  | .item (.tag placed) => [.item (.tag placed)]
  | piece => piece.outside.map ofChar

/-- Puts a carriage return to the line feed that follows it. -/
def closeLines : List Piece → List Piece
  | .item (.text ['\r']) :: .lineEnd ['\n'] :: pieces => .lineEnd ['\r', '\n'] :: closeLines pieces
  | piece :: pieces => piece :: closeLines pieces
  | [] => []

/-- No line end is cut in two between these pieces. -/
def Apart (front back : List Piece) : Prop :=
  ∀ before, front = before ++ [.item (.text ['\r'])] → back.head? ≠ some (.lineEnd ['\n'])

variable {front back pieces : List Piece} {piece : Piece}

theorem closeLines_cons (h : Apart [piece] pieces) :
    closeLines (piece :: pieces) = piece :: closeLines pieces := by
  rw [closeLines.eq_def]
  split
  · rename_i heq
    obtain ⟨rfl, rfl⟩ := List.cons.inj heq
    exact absurd rfl (h [] rfl)
  · rename_i heq
    obtain ⟨rfl, rfl⟩ := List.cons.inj heq
    rfl
  · contradiction

theorem apart_single (h : ∀ more, piece = .item (.text ['\r']) →
    pieces = .lineEnd ['\n'] :: more → False) : Apart [piece] pieces := by
  intro before hb hn
  obtain ⟨more, hmore⟩ := List.head?_eq_some_iff.1 hn
  refine h more ?_ hmore
  cases before with
  | nil => simpa using hb
  | cons => simp at hb

theorem closeLines_append (h : Apart front back) :
    closeLines (front ++ back) = closeLines front ++ closeLines back := by
  induction front using closeLines.induct with
  | case1 pieces ih =>
    have hrest : Apart pieces back := fun before hb =>
      h (.item (.text ['\r']) :: .lineEnd ['\n'] :: before) (by rw [hb]; rfl)
    simp [closeLines, ih hrest]
  | case2 piece pieces hne ih =>
    have hrest : Apart pieces back := fun before hb => h (piece :: before) (by rw [hb]; rfl)
    have hself : Apart [piece] pieces := apart_single hne
    have happend : Apart [piece] (pieces ++ back) := by
      intro before hb
      cases pieces with
      | nil => exact h before hb
      | cons other pieces => exact hself before hb
    rw [List.cons_append, closeLines_cons happend, ih hrest, closeLines_cons hself, List.cons_append]
  | case3 => rfl

/-- Where no line ends there is nothing to put together. -/
theorem closeLines_items (items : List Item) : closeLines (items.map .item) = items.map .item := by
  induction items with
  | nil => rfl
  | cons item items ih =>
    rw [List.map_cons, closeLines_cons, ih]
    intro before _ hn
    cases items <;> simp at hn

theorem atoms_text {t : Text} (no_feed : '\n' ∉ t) :
    atoms (.item (.text t)) = (Item.singles (.text t)).map .item := by
  have hchar : ∀ c ∈ t, ofChar c = .item (.text [c]) := by
    intro c hc
    rw [ofChar, if_neg]
    rintro rfl
    exact no_feed hc
  simpa [atoms, outside, Item.singles] using hchar

end Piece

open Piece

/-- A line that starts with a line feed starts so in the text. -/
theorem Laid.head_of_atoms {n : Nat} {t : Text} {pieces : List Piece} (h : Laid n t pieces)
    (hf : (pieces.flatMap atoms).head? = some (.lineEnd ['\n'])) : t.head? = some '\n' := by
  cases h with
  | nil => simp at hf
  | text ne_nil no_feed whole after =>
    obtain ⟨c, t, rfl⟩ := List.exists_cons_of_ne_nil ne_nil
    rw [List.flatMap_cons, atoms_text no_feed] at hf
    simp [Item.singles] at hf
  | lineEnd terminator after =>
    rcases terminator with rfl | rfl
    · rfl
    · simp [atoms, outside, ofChar] at hf
  | tag => simp [atoms] at hf

/-- Put together again, the characters of pieces are their single characters and their line ends. -/
theorem Laid.closeLines_atoms {n : Nat} {t : Text} {pieces : List Piece} (h : Laid n t pieces) :
    closeLines (pieces.flatMap atoms) = pieces.flatMap singles := by
  induction h with
  | nil => rfl
  | @text n t rest pieces ne_nil no_feed whole after ih =>
    rw [List.flatMap_cons, List.flatMap_cons, atoms_text no_feed, closeLines_append,
      closeLines_items, ih]
    · rfl
    · intro before hb hf
      obtain ⟨front, last, rfl⟩ := (List.eq_nil_or_concat t).resolve_left ne_nil
      obtain rfl : last = '\r' := by
        rw [List.concat_eq_append] at hb
        have hlast := congrArg List.getLast? hb
        simpa [Item.singles] using hlast
      exact whole front (List.concat_eq_append ..) (after.head_of_atoms hf)
  | lineEnd terminator after ih =>
    rcases terminator with rfl | rfl
    · rw [List.flatMap_cons, List.flatMap_cons, ← ih]
      rfl
    · rw [List.flatMap_cons, List.flatMap_cons, ← ih]
      rfl
  | tag solid span after ih =>
    rw [List.flatMap_cons, List.flatMap_cons, ← ih]
    rfl

/-- The events of one event character by character. -/
def Event.chars : Event → List Event
  | .text t => t.map fun c => .text [c]
  | e => [e]

namespace Event

/-- Events with their texts character by character. -/
def spell (events : List Event) : List Event :=
  events.flatMap chars

variable {events front back : List Event}

@[simp] theorem spell_nil : spell [] = [] := rfl

@[simp] theorem spell_append : spell (front ++ back) = spell front ++ spell back :=
  List.flatMap_append

theorem spell_text (t : Text) : spell [.text t] = t.map fun c => .text [c] := by
  simp [spell, chars]

theorem spell_cons (e : Event) (events : List Event) : spell (e :: events) = e.chars ++ spell events :=
  rfl

@[simp] theorem tags_spell (events : List Event) : tags (spell events) = tags events := by
  induction events with
  | nil => rfl
  | cons e events ih =>
    rw [spell_cons, tags_append, ih]
    cases e with
    | text t =>
      have hnone : tags (t.map fun c => Event.text [c]) = [] := by
        simp [tags, List.filterMap_map, placed?, Function.comp_def]
      rw [chars, hnone, tags_text, List.nil_append]
    | tag placed indent => rfl

theorem tag_mem_spell {placed : PlacedTag} {indent : Indent} :
    .tag placed indent ∈ spell events ↔ .tag placed indent ∈ events := by
  simp only [spell, List.mem_flatMap]
  constructor
  · rintro ⟨e, he, hm⟩
    cases e with
    | text t => simp [chars] at hm
    | tag other more =>
      rwa [List.mem_singleton.1 hm]
  · exact fun h => ⟨_, h, List.mem_singleton_self _⟩

end Event

/-- What is nested is nested character by character. -/
theorem Nested.spell {source : Text} {events : List Event} {nodes : List Node}
    (h : Nested source events nodes) (written : .text [] ∉ events) :
    Nested source (Event.spell events) nodes := by
  have htext : ∀ t : Text, t ≠ [] → Nested source (Event.spell [.text t]) [.text t] := by
    intro t ht
    obtain ⟨front, last, rfl⟩ := (List.eq_nil_or_concat t).resolve_left ht
    rw [List.concat_eq_append, Event.spell_text]
    clear ht
    induction front using List.reverseRecOn generalizing last with
    | nil => exact .text [last] (by simp [EndsInText]) .nil
    | append_singleton front c ih =>
      rw [List.map_append]
      exact @Nested.more source _ [] (front ++ [c]) [last] (ih c)
  induction h with
  | nil => exact .nil
  | @text events nodes t fresh _ ih =>
    rw [List.mem_append, not_or] at written
    have ht : t ≠ [] := fun ht => written.2 (by simp [ht])
    have happend := (ih written.1).append (htext t ht)
    rwa [Node.join_text_of_not_endsInText fresh, ← Event.spell_append] at happend
  | @more events nodes u t _ ih =>
    rw [List.mem_append, not_or] at written
    have ht : t ≠ [] := fun ht => written.2 (by simp [ht])
    have happend := (ih written.1).append (htext t ht)
    rwa [Node.join_text_of_endsInText, ← Event.spell_append] at happend
  | single indent single _ ih =>
    rw [List.mem_append, not_or] at written
    rw [Event.spell_append]
    exact .single indent single (ih written.1)
  | block i j opens closes named _ _ ihf ihw =>
    simp only [List.mem_append, List.mem_cons, not_or] at written
    have hspell : ∀ events inner : List Event, ∀ opener closer i j,
        Event.spell (events ++ .tag opener i :: (inner ++ [.tag closer j])) =
          Event.spell events ++ .tag opener i :: (Event.spell inner ++ [.tag closer j]) := by
      intro events inner opener closer i j
      rw [Event.spell_append, Event.spell_cons, Event.spell_append]
      rfl
    rw [hspell]
    exact .block i j opens closes named (ihf written.1) (ihw written.2.2.1)

/-- Character by character the tree is the same. -/
theorem Nested.spell_iff {source : Text} {events : List Event} {nodes : List Node}
    (written : .text [] ∉ events) :
    Nested source (Event.spell events) nodes ↔ Nested source events nodes := by
  refine ⟨fun h => ?_, fun h => h.spell written⟩
  have hbalanced : Sections.Balanced (Event.tags events) := by
    rw [← Event.tags_spell, ← Builder.exists_build_iff]
    exact ⟨nodes, Builder.build_eq_ok_iff.2 h⟩
  obtain ⟨others, ho⟩ := (@Builder.exists_build_iff source events).2 hbalanced
  have hother := Builder.build_eq_ok_iff.1 ho
  have hsame := Builder.build_eq_ok_iff.2 (hother.spell written)
  rw [Builder.build_eq_ok_iff.2 h] at hsame
  cases hsame
  exact hother

end Stencil
