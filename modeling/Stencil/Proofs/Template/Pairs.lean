import Stencil.Proofs.Template.Balance
import Stencil.Proofs.Template.Layout
import Stencil.Proofs.Template.Redraw

/-!
# Matched tags

A source compiles when its scan meets no failure and its tags balance, and nothing but the tags tells
the shape of the tree: its sections are the matched pairs of tags, and hold what stands between them.
-/

namespace Stencil

/-- The tag that a token holds the body of. -/
def Token.tag? (token : Token) : Option Tag :=
  match token.kind with
  | .body | .change => some (.parse token.raw)
  | _ => none

theorem Token.filterMap_tag?_run (start : Nat) (raw : Text) :
    (Token.run start raw).filterMap Token.tag? = [] := by
  cases raw <;> rfl

namespace Reading

variable {source : Text} {tags : Tags} {start : Nat} {rest : Text} {pieces : List Piece}

theorem failure_scanFrom (h : Reading tags start rest pieces) :
    (Tokens.scanFrom source tags start rest).failure = none := by
  induction h with
  | text valid no_opening => rw [Tokens.scanFrom_of_none valid no_opening]
  | tag valid opens reads changes _ ih =>
    rw [Tokens.scanFrom_of_tag valid opens reads changes]
    exact ih

/-- A scan without a failure reads every tag that it has a body of. -/
theorem of_scanFrom (h : (Tokens.scanFrom source tags start rest).failure = none) :
    ∃ pieces, Reading tags start rest pieces ∧ (Piece.tags pieces).map PlacedTag.tag =
      (Tokens.scanFrom source tags start rest).list.filterMap Token.tag? := by
  refine Tokens.scanFrom_induction source (motive := fun tags start rest tokens =>
    tokens.failure = none → ∃ pieces, Reading tags start rest pieces ∧
      (Piece.tags pieces).map PlacedTag.tag = tokens.list.filterMap Token.tag?)
    ?invalid ?text ?malformed ?tag tags start rest h
  case invalid =>
    intro tags start rest invalid h
    cases h
  case text =>
    intro tags start rest valid no_opening _
    exact ⟨_, .text valid no_opening, by simp [Token.filterMap_tag?_run]⟩
  case malformed =>
    intro tags start rest before inside fault valid opens _ h
    cases h
  case tag =>
    intro tags start rest before inside found next tokens valid opens reads changes ih h
    obtain ⟨pieces, hr, ht⟩ := ih h
    refine ⟨_, .tag valid opens reads changes hr, ?_⟩
    have hbody : Token.tag? ⟨found.kind, found.body, start + before.size + tags.opening.size⟩ =
        some (.parse found.body) := by
      rcases Token.Inside.kind_of_read? reads with hk | hk <;> simp [Token.tag?, hk]
    have hopening : Token.tag? ⟨.opening, tags.opening, start + before.size⟩ = none := rfl
    have hclosing : ∀ raw start, Token.tag? ⟨.closing, raw, start⟩ = none := fun _ _ => rfl
    simp [Tokens.prepend, Token.filterMap_tag?_run, hopening, hbody, hclosing, ht]

end Reading

namespace Sections

/-- The tags up to the closing tag that belongs to an opening tag before them, and the closing tag,
when so many more sections have been opened since. -/
def partner? : (depth : Nat) → List PlacedTag → Option (List PlacedTag × PlacedTag)
  | _, [] => none
  | depth, placed :: tags =>
    match placed.tag.sigil, depth with
    | .close, 0 => some ([], placed)
    | .close, depth + 1 => (partner? depth tags).map fun (inner, closer) => (placed :: inner, closer)
    | .block, depth | .inverted, depth =>
      (partner? (depth + 1) tags).map fun (inner, closer) => (placed :: inner, closer)
    | _, depth => (partner? depth tags).map fun (inner, closer) => (placed :: inner, closer)

/-- An opening tag, the closing tag that belongs to it, and the tags between them. -/
structure Pair where
  opener : PlacedTag
  inner : List PlacedTag
  closer : PlacedTag

/-- The matched pairs among tags, in the order of their opening tags. -/
def pairs : List PlacedTag → List Pair
  | [] => []
  | placed :: tags =>
    if placed.tag.sigil.opens then
      ((partner? 0 tags).map fun (inner, closer) => ⟨placed, inner, closer⟩).toList ++ pairs tags
    else pairs tags

end Sections

/-- These nodes, none of them a text, are what these tags draw: a tag by itself gives its own node,
or none if it changes the pair, and a section holds what the tags between its two draw, and texts. -/
inductive Drawn (source : Text) : List PlacedTag → List Node → Prop
  | nil : Drawn source [] []
  | single {placed : PlacedTag} {tags : List PlacedTag} {nodes : List Node} (indent : Indent)
    (single : placed.tag.sigil.isSingle = true) (rest : Drawn source tags nodes) :
    Drawn source (placed :: tags) (placed.single indent ++ nodes)
  | block {opener closer : PlacedTag} {inner tags : List PlacedTag} {children nodes : List Node}
    (opens : opener.tag.sigil.opens = true) (closes : closer.tag.sigil = .close)
    (named : opener.tag.name = closer.tag.name)
    (within : Drawn source inner (Node.withoutTexts children)) (rest : Drawn source tags nodes) :
    Drawn source (opener :: (inner ++ closer :: tags))
      (opener.enclose source closer children :: nodes)

namespace Drawn

variable {source : Text} {front back : List PlacedTag} {nodes more : List Node}

theorem append (h : Drawn source front nodes) (hb : Drawn source back more) :
    Drawn source (front ++ back) (nodes ++ more) := by
  induction h with
  | nil => exact hb
  | single indent single _ ih =>
    rw [List.cons_append, List.append_assoc]
    exact .single indent single ih
  | block opens closes named within _ _ ih =>
    simp only [List.cons_append, List.append_assoc]
    exact .block opens closes named within ih

/-- A nesting is drawn by its tags. -/
theorem of_nested {events : List Event} (h : Nested source events nodes) :
    Drawn source (Event.tags events) (Node.withoutTexts nodes) := by
  induction h with
  | nil => exact .nil
  | text t _ _ ih => simpa using ih
  | more u t _ ih => simpa using ih
  | @single events nodes placed indent single _ ih =>
    have hone : Drawn source [placed] (placed.single indent ++ []) := .single indent single .nil
    simpa using ih.append hone
  | @block events inner nodes children opener closer i j opens closes named _ _ ihf ihw =>
    have hone : Drawn source (opener :: (Event.tags inner ++ [closer]))
        [opener.enclose source closer children] := .block opens closes named ihw .nil
    simpa using ihf.append hone

end Drawn

namespace Sections

variable {source : Text} {front : List PlacedTag} {nodes : List Node}

theorem partner?_of_single {placed : PlacedTag} (h : placed.tag.sigil.isSingle = true) (depth : Nat)
    (tags : List PlacedTag) : partner? depth (placed :: tags) =
      (partner? depth tags).map fun (inner, closer) => (placed :: inner, closer) := by
  cases hs : placed.tag.sigil <;> simp_all [partner?, Sigil.isSingle]

theorem partner?_of_opens {placed : PlacedTag} (h : placed.tag.sigil.opens = true) (depth : Nat)
    (tags : List PlacedTag) : partner? depth (placed :: tags) =
      (partner? (depth + 1) tags).map fun (inner, closer) => (placed :: inner, closer) := by
  cases hs : placed.tag.sigil <;> simp_all [partner?, Sigil.opens]

theorem partner?_close {placed : PlacedTag} (h : placed.tag.sigil = .close)
    (tags : List PlacedTag) : partner? 0 (placed :: tags) = some ([], placed) := by
  simp [partner?, h]

theorem partner?_close_succ {placed : PlacedTag} (h : placed.tag.sigil = .close) (depth : Nat)
    (tags : List PlacedTag) : partner? (depth + 1) (placed :: tags) =
      (partner? depth tags).map fun (inner, closer) => (placed :: inner, closer) := by
  simp [partner?, h]

/-- No partner of an earlier tag is among tags that draw nodes of their own. -/
theorem partner?_append (h : Drawn source front nodes) (depth : Nat) (back : List PlacedTag) :
    partner? depth (front ++ back) =
      (partner? depth back).map fun (inner, closer) => (front ++ inner, closer) := by
  induction h generalizing depth back with
  | nil => simp
  | single indent single _ ih =>
    rw [List.cons_append, partner?_of_single single, ih, Option.map_map]
    rfl
  | block opens closes _ _ _ ihw ih =>
    rw [List.cons_append, List.append_assoc, List.cons_append, partner?_of_opens opens, ihw,
      partner?_close_succ closes, ih]
    simp only [Option.map_map]
    congr 1
    funext ⟨inner, closer⟩
    simp

theorem pairs_of_single {placed : PlacedTag} (h : placed.tag.sigil.isSingle = true)
    (tags : List PlacedTag) : pairs (placed :: tags) = pairs tags := by
  cases hs : placed.tag.sigil <;> simp_all [pairs, Sigil.isSingle, Sigil.opens]

theorem pairs_of_close {placed : PlacedTag} (h : placed.tag.sigil = .close)
    (tags : List PlacedTag) : pairs (placed :: tags) = pairs tags := by
  simp [pairs, h, Sigil.opens]

/-- An opening tag belongs with the closing tag after the nodes that it encloses. -/
theorem pairs_of_opens {opener closer : PlacedTag} (opens : opener.tag.sigil.opens = true)
    (closes : closer.tag.sigil = .close) (h : Drawn source front nodes) (tags : List PlacedTag) :
    pairs (opener :: (front ++ closer :: tags)) =
      ⟨opener, front, closer⟩ :: pairs (front ++ closer :: tags) := by
  rw [pairs, if_pos opens, partner?_append h, partner?_close closes]
  simp

theorem pairs_append (h : Drawn source front nodes) (back : List PlacedTag) :
    pairs (front ++ back) = pairs front ++ pairs back := by
  induction h generalizing back with
  | nil => rfl
  | single indent single _ ih =>
    rw [List.cons_append, pairs_of_single single, pairs_of_single single, ih]
  | @block opener closer inner tags children nodes opens closes named within _ ihw ih =>
    rw [List.cons_append, List.append_assoc, List.cons_append, pairs_of_opens opens closes within,
      pairs_of_opens opens closes within, ihw, ihw, pairs_of_close closes, pairs_of_close closes, ih]
    simp

/-- The section that a matched pair gives: it holds what the tags between the two draw, and texts. -/
def Pair.Gives (source : Text) (pair : Pair) (node : Node) : Prop :=
  pair.opener.tag.name = pair.closer.tag.name ∧
    ∃ children, node = pair.opener.enclose source pair.closer children ∧
      Drawn source pair.inner (Node.withoutTexts children)

end Sections

mutual
/-- The sections in a node, itself included, in the order of their opening tags. -/
def Node.sections : Node → List Node
  | .block path inverted children raw tags span =>
    .block path inverted children raw tags span :: allSections children
  | _ => []

def Node.allSections : List Node → List Node
  | [] => []
  | node :: nodes => node.sections ++ allSections nodes
end

namespace Node

theorem allSections_append (front back : List Node) :
    allSections (front ++ back) = allSections front ++ allSections back := by
  induction front with
  | nil => rfl
  | cons node front ih => simp [allSections, ih]

theorem allSections_single (placed : PlacedTag) (indent : Indent) :
    allSections (placed.single indent) = [] := by
  unfold PlacedTag.single
  cases placed.tag.sigil <;> rfl

theorem allSections_withoutTexts (nodes : List Node) :
    allSections (withoutTexts nodes) = allSections nodes := by
  induction nodes with
  | nil => rfl
  | cons node nodes ih =>
    have hcons := allSections_append (withoutTexts [node]) (withoutTexts nodes)
    rw [← withoutTexts_append, List.singleton_append, ih] at hcons
    rw [hcons]
    cases node <;> simp [withoutTexts, isText, allSections, sections]

end Node

/-- Section by section, what has been drawn is given by the matched pairs. -/
theorem Drawn.sections {source : Text} {tags : List PlacedTag} {nodes : List Node}
    (h : Drawn source tags nodes) :
    List.Forall₂ (Sections.Pair.Gives source) (Sections.pairs tags) (Node.allSections nodes) := by
  induction h with
  | nil => exact .nil
  | single indent single _ ih =>
    rw [Sections.pairs_of_single single, Node.allSections_append, Node.allSections_single]
    exact ih
  | @block opener closer inner tags children nodes opens closes named within _ ihw ih =>
    rw [Sections.pairs_of_opens opens closes within, Sections.pairs_append within,
      Sections.pairs_of_close closes]
    rw [Node.allSections_withoutTexts] at ihw
    exact .cons ⟨named, children, rfl, within⟩ (List.rel_append ihw ih)

namespace Template

variable {source : Text} {tags : Tags}

theorem placed_of_reading {pieces : List Piece} (h : Reading tags 0 source pieces) :
    placed source tags = Piece.tags pieces := by
  rw [placed, Tokens.read_of_reading h]

/-- A source compiles just when its scan meets no failure and its tags balance. Then its nodes are
drawn by its tags, one section for each matched pair. -/
theorem compile_balanced (source : Text) (tags : Tags) :
    ((Tokens.scan source tags).failure = none → (placed source tags).map PlacedTag.tag =
        (Tokens.scan source tags).list.filterMap Token.tag?) ∧
      ((∃ nodes, compile source tags = .ok nodes) ↔
        (Tokens.scan source tags).failure = none ∧ Sections.Balanced (placed source tags)) ∧
      ∀ nodes, compile source tags = .ok nodes →
        Drawn source (placed source tags) (Node.withoutTexts nodes) ∧
        List.Forall₂ (Sections.Pair.Gives source) (Sections.pairs (placed source tags))
          (Node.allSections nodes) := by
  refine ⟨fun hf => ?_, ⟨fun h => ?_, fun ⟨hf, hb⟩ => ?_⟩, fun nodes h => ?_⟩
  · obtain ⟨pieces, hr, ht⟩ := Reading.of_scanFrom hf
    rw [placed_of_reading hr, ht]
    rfl
  · obtain ⟨pieces, hr, hb⟩ := exists_compile_iff.1 h
    exact ⟨hr.failure_scanFrom, placed_of_reading hr ▸ hb⟩
  · obtain ⟨pieces, hr, -⟩ := Reading.of_scanFrom hf
    exact exists_compile_iff.2 ⟨pieces, hr, placed_of_reading hr ▸ hb⟩
  · obtain ⟨pieces, hr, hn⟩ := compile_eq_ok_iff_nested.1 h
    have hdrawn : Drawn source (placed source tags) (Node.withoutTexts nodes) := by
      rw [placed_of_reading hr, ← Piece.tags_events]
      exact .of_nested hn
    refine ⟨hdrawn, ?_⟩
    rw [← Node.allSections_withoutTexts]
    exact hdrawn.sections

/-- A section in a section, with a change of the pair before the outer one closes. -/
def twoSections : Text :=
  "{{#a}}{{^b}}-{{c}}{{/b}}{{=<% %>=}}<%/ a %>".toList

def twoSectionsNodes : List Node :=
  [.block (.parse ['a']) false
    [.block (.parse ['b']) true [.text ['-'], .interpolation (.parse ['c']) true ⟨13, 18⟩]
      (.mk fun _ => "-{{c}}".toList) default ⟨6, 24⟩]
    (.mk fun _ => "{{^b}}-{{c}}{{/b}}{{=<% %>=}}".toList) default ⟨0, 43⟩]

theorem compile_twoSections : compile twoSections default = .ok twoSectionsNodes := by
  cbv

/-- The two pairs of tags give the two sections. -/
theorem compile_balanced_twoSections :
    compile twoSections default = .ok twoSectionsNodes ∧
      (Tokens.scan twoSections default).failure = none ∧
      Sections.Balanced (placed twoSections default) ∧
      (Sections.pairs (placed twoSections default)).map (fun pair =>
        (pair.opener.span.start, pair.closer.span.start)) = [(0, 35), (6, 18)] ∧
      List.Forall₂ (Sections.Pair.Gives twoSections) (Sections.pairs (placed twoSections default))
        (Node.allSections twoSectionsNodes) := by
  obtain ⟨-, hiff, hdrawn⟩ := compile_balanced twoSections default
  obtain ⟨hf, hb⟩ := hiff.1 ⟨_, compile_twoSections⟩
  exact ⟨compile_twoSections, hf, hb, by cbv, (hdrawn _ compile_twoSections).2⟩

end Template
end Stencil
