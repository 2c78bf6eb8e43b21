import Stencil.Proofs.Template.Balance

/-!
# Sources one after the other

After a line feed a source goes on as if it started there, under the pair in effect by then: no
delimiter holds a line feed, and lines are laid out one by one. Where the two trees meet, a text
joins the text before it.
-/

namespace Stencil

/-- What is left of the start of a line when a front goes. -/
theorem StartsLine.of_append {front back : Text} (h : StartsLine (front ++ back)) :
    StartsLine back := by
  rcases List.eq_nil_or_concat back with rfl | ⟨back, c, rfl⟩
  · exact .nil
  · rcases h with h | ⟨before, h⟩
    · simp at h
    · rw [List.concat_eq_append, ← List.append_assoc] at h
      obtain ⟨-, hc⟩ := List.append_inj' h rfl
      exact .inr ⟨back, by rw [List.concat_eq_append, hc]⟩

theorem Piece.consChar_append {c : Char} {front : List Piece} (h : front ≠ []) (back : List Piece) :
    consChar c (front ++ back) = consChar c front ++ back := by
  cases front with
  | nil => exact absurd rfl h
  | cons piece front =>
    cases piece with
    | lineEnd t => rfl
    | item i => cases i <;> rfl

theorem Piece.ofText_ne_nil {t : Text} (h : t ≠ []) : ofText t ≠ [] := by
  intro hnil
  have := flatMap_outside_ofText t
  simp_all

theorem Piece.ofText_cons {c : Char} {t : Text} (no_feed : c ≠ '\n')
    (whole : c = '\r' → t.head? ≠ some '\n') : ofText (c :: t) = consChar c (ofText t) := by
  rw [ofText.eq_def]
  split
  · simp_all
  · simp_all
  · simp_all
  · rename_i h
    cases h
    rfl

/-- A text that starts at the start of a line is cut on its own. -/
theorem Piece.ofText_append {front : Text} (starts : StartsLine front) (back : Text) :
    ofText (front ++ back) = ofText front ++ ofText back := by
  fun_induction ofText front with
  | case1 => rfl
  | case2 t ih => simp [ofText, ih (@StartsLine.of_append ['\r', '\n'] t starts)]
  | case3 t ih => simp [ofText, ih (@StartsLine.of_append ['\n'] t starts)]
  | case4 c t whole no_feed ih =>
    have hne : t ≠ [] := by
      rintro rfl
      rcases starts with h | ⟨before, h⟩
      · cases h
      · cases before with
        | nil => exact no_feed (List.cons.inj h).1
        | cons d before => simp at h
    obtain ⟨d, t, rfl⟩ := List.exists_cons_of_ne_nil hne
    have hwhole : c = '\r' → (d :: (t ++ back)).head? ≠ some '\n' := by
      rintro rfl hd
      exact whole t rfl (by simpa using hd)
    rw [List.cons_append, List.cons_append, ofText_cons (fun h => no_feed h) hwhole,
      ← List.cons_append, ih (@StartsLine.of_append [c] _ starts), consChar_append (ofText_ne_nil hne)]

/-- No delimiter goes on over a line feed. -/
theorem Tags.IsSide.apart {side front : Text} (h : IsSide side) (starts : StartsLine front) (c : Char)
    (hc : front.getLast? = some c) : c ∉ side := by
  rcases starts with rfl | ⟨before, rfl⟩
  · cases hc
  · intro hmem
    have hblank := h.2 c hmem
    obtain rfl : '\n' = c := by simpa using hc
    revert hblank
    decide

namespace Reading

variable {tags next : Tags} {n : Nat} {t before inside : Text} {found : Token.Inside}
  {pieces : List Piece}

theorem iff_of_tag (valid : tags.Valid)
    (opens : Text.breakAt? tags.opening t = some (before, inside))
    (reads : Token.Inside.read? tags.closing inside = some found)
    (changes : Token.nextTags found.kind found.body tags = .ok next) :
    Reading tags n t pieces ↔ ∃ more, pieces = Piece.ofText before ++ .item (.tag ⟨.parse found.body,
        ⟨n + before.size, n + before.size + tags.opening.size + found.body.size +
          found.closing.size⟩, tags⟩) :: more ∧
      Reading next (n + before.size + tags.opening.size + found.body.size + found.closing.size)
        found.rest more := by
  constructor
  · intro h
    cases h with
    | text valid no_opening => simp [opens] at no_opening
    | tag valid opens' reads' changes' after =>
      obtain ⟨rfl, rfl⟩ : _ = before ∧ _ = inside := by simpa [opens] using opens'.symm
      obtain rfl : _ = found := by simpa [reads] using reads'.symm
      obtain rfl : _ = next := by simpa [changes] using changes'.symm
      exact ⟨_, rfl, after⟩
  · rintro ⟨more, rfl, after⟩
    exact .tag valid opens reads changes after

/-- After text that starts at the start of a line, which holds no tag, the rest is read on its own. -/
theorem append_text_iff {front back : Text} (valid : tags.Valid)
    (none : Text.breakAt? tags.opening front = none) (starts : StartsLine front) :
    Reading tags n (front ++ back) pieces ↔
      ∃ more, pieces = Piece.ofText front ++ more ∧ Reading tags (n + front.size) back more := by
  have hbreak := @Text.breakAt?_append _ _ back (valid.1.apart starts) none
  have hpieces := Piece.ofText_append starts
  constructor
  · intro h
    cases h with
    | text valid no_opening =>
      rw [hbreak, Option.map_eq_none_iff] at no_opening
      exact ⟨_, hpieces back, .text valid no_opening⟩
    | tag valid opens reads changes after =>
      rw [hbreak] at opens
      obtain ⟨⟨before, inside⟩, hs, hcut⟩ := Option.map_eq_some_iff.1 opens
      cases hcut
      rw [Text.size_append, ← Nat.add_assoc] at after ⊢
      rw [hpieces, List.append_assoc]
      exact ⟨_, rfl, .tag valid hs reads changes after⟩
  · rintro ⟨more, rfl, h⟩
    cases h with
    | text valid no_opening =>
      rw [← hpieces]
      exact .text valid (by rw [hbreak, no_opening]; rfl)
    | @tag _ _ _ _ before inside _ _ _ opens reads changes after =>
      have hopens : Text.breakAt? tags.opening (front ++ back) = some (front ++ before, inside) := by
        rw [hbreak, opens]
        rfl
      have hsize : n + front.size + before.size = n + (front ++ before).size := by
        rw [Text.size_append, Nat.add_assoc]
      rw [hsize] at after ⊢
      rw [← List.append_assoc, ← hpieces]
      exact .tag valid hopens reads changes after

/-- A source that ends with a line is read, and then the next one under the pair in effect by then. -/
theorem append_iff {source front back : Text} {first : List Piece} (h : Reading tags n front first)
    (starts : StartsLine front) :
    Reading tags n (front ++ back) pieces ↔ ∃ more, pieces = first ++ more ∧
      Reading (Tokens.scanFrom source tags n front).tags (n + front.size) back more := by
  induction h generalizing pieces with
  | text valid no_opening =>
    rw [Tokens.scanFrom_of_none valid no_opening]
    exact append_text_iff valid no_opening starts
  | @tag tags next start rest before inside found first valid opens reads changes after ih =>
    have hrest := Text.eq_append_of_breakAt? opens
    have hinside := Token.Inside.append_of_read? reads
    have hstarts : StartsLine found.rest := by
      rw [hrest, hinside] at starts
      exact starts.of_append.of_append.of_append.of_append
    have hopens := Text.breakAt?_append_other opens (inside ++ back)
    have hreads := Token.Inside.read?_append_other valid.2 reads (found.rest ++ back)
    have hwhole : rest ++ back = before ++ (tags.opening ++ (inside ++ back)) := by simp [hrest]
    have hafter : inside ++ back = found.body ++ (found.closing ++ (found.rest ++ back)) := by
      rw [hinside]
      simp
    have hsize : start + before.size + tags.opening.size + found.body.size + found.closing.size +
        found.rest.size = start + rest.size := by
      rw [hrest, hinside]
      simp only [Text.size_append]
      omega
    rw [hafter] at hopens
    rw [Tokens.scanFrom_of_tag valid opens reads changes, hwhole, hafter,
      iff_of_tag valid hopens hreads changes]
    simp only [ih hstarts, hsize]
    constructor
    · rintro ⟨_, rfl, more, rfl, hmore⟩
      exact ⟨more, by simp, hmore⟩
    · rintro ⟨more, rfl, hmore⟩
      exact ⟨_, by simp, more, rfl, hmore⟩

theorem append_moved_iff {front back : Text} {first : List Piece} (h : Reading tags 0 front first)
    (starts : StartsLine front) :
    Reading tags 0 (front ++ back) pieces ↔ ∃ moved,
      pieces = first ++ moved.map (Piece.shift front.size) ∧
        Reading (Tokens.scan front tags).tags 0 back moved := by
  rw [@append_iff _ _ _ front _ back _ h starts, Nat.zero_add]
  constructor
  · rintro ⟨more, rfl, hmore⟩
    obtain ⟨moved, rfl, hmoved⟩ := Reading.unshift (show Reading _ (0 + front.size) back more by
      rwa [Nat.zero_add])
    exact ⟨moved, rfl, hmoved⟩
  · rintro ⟨moved, rfl, hmoved⟩
    have hshift := hmoved.shift front.size
    rw [Nat.zero_add] at hshift
    exact ⟨_, rfl, hshift⟩

end Reading

/-- What ends with a line feed ends with a line. -/
theorem Laid.exists_lineEnd {n : Nat} {t : Text} {pieces : List Piece}
    (h : Laid n (t ++ ['\n']) pieces) : ∃ front terminator, pieces = front ++ [.lineEnd terminator] := by
  rcases List.eq_nil_or_concat pieces with rfl | ⟨front, last, rfl⟩
  · generalize hs : t ++ ['\n'] = s at h
    cases h
    simp at hs
  · rw [List.concat_eq_append] at h ⊢
    obtain ⟨u, v, huv, -, hv⟩ := h.of_append
    have hstarts : StartsLine (u ++ v) := .inr ⟨t, huv.symm⟩
    replace hstarts := hstarts.of_append
    cases hv with
    | lineEnd => exact ⟨front, _, rfl⟩
    | text ne_nil no_feed whole after =>
      cases after
      rw [List.append_nil] at hstarts
      rcases hstarts with hnil | ⟨before, rfl⟩
      · exact absurd hnil ne_nil
      · simp at no_feed
    | tag solid span after =>
      cases after
      rw [List.append_nil] at hstarts
      obtain ⟨⟨c, raw, rfl, -⟩, before, d, hlast, hd⟩ := solid
      rcases hstarts with hnil | ⟨before', hfeed⟩
      · cases hnil
      · obtain ⟨-, hn⟩ := List.append_inj' (hlast.symm.trans hfeed) rfl
        obtain rfl : d = '\n' := by simpa using hn
        exact absurd hd (by decide)

namespace Line

/-- A line end parts the lines before it from those after it. -/
theorem split_append (front : List Piece) (terminator : Text) :
    ∃ line lines, split (front ++ [.lineEnd terminator]) = (line :: lines, []) ∧
      ∀ back, split (front ++ .lineEnd terminator :: back) =
        (line :: lines ++ (split back).1, (split back).2) := by
  induction front with
  | nil => exact ⟨⟨[], terminator⟩, [], rfl, fun back => rfl⟩
  | cons piece front ih =>
    obtain ⟨line, lines, hfront, hback⟩ := ih
    cases piece with
    | lineEnd t =>
      refine ⟨⟨[], t⟩, line :: lines, ?_, fun back => ?_⟩
      · simp [split, hfront]
      · simp [split, hback]
    | item item =>
      refine ⟨{ line with items := item :: line.items }, lines, ?_, fun back => ?_⟩
      · simp [split, hfront]
      · simp [split, hback]

end Line

/-- Complete lines give their events whatever follows. -/
theorem Piece.events_append (front : List Piece) (terminator : Text) (back : List Piece) :
    events (front ++ [.lineEnd terminator] ++ back) =
      events (front ++ [.lineEnd terminator]) ++ events back := by
  obtain ⟨line, lines, hfront, hback⟩ := Line.split_append front terminator
  have hnone : Line.events ⟨[], []⟩ = [] := rfl
  rw [List.append_assoc, List.singleton_append, events, hback, events, hfront, hnone, events]
  simp

namespace Node

/-- One list after the other; a text at the end of the first takes in a text that starts the second. -/
def join (front : List Node) : List Node → List Node
  | .text t :: back =>
    match front.getLast? with
    | some (.text u) => front.dropLast ++ .text (u ++ t) :: back
    | _ => front ++ .text t :: back
  | back => front ++ back

@[simp] theorem join_nil (front : List Node) : join front [] = front :=
  List.append_nil front

theorem join_cons_of_not_isText {node : Node} (h : node.isText = false) (front back : List Node) :
    join front (node :: back) = front ++ node :: back := by
  cases node with
  | text t => cases h
  | _ => rfl

theorem join_text_of_endsInText (before : List Node) (u t : Text) (back : List Node) :
    join (before ++ [.text u]) (.text t :: back) = before ++ .text (u ++ t) :: back := by
  simp [join]

theorem join_text_of_not_endsInText {front : List Node} (h : ¬ EndsInText front) (t : Text)
    (back : List Node) : join front (.text t :: back) = front ++ .text t :: back := by
  rw [join]
  split
  · rename_i u hu
    obtain ⟨before, hbefore⟩ := List.getLast?_eq_some_iff.1 hu
    exact absurd ⟨before, u, hbefore⟩ h
  · rfl

/-- A first text of the second list is the end of some text. -/
theorem join_text (front : List Node) : ∃ before u, ∀ t back,
    join front (.text t :: back) = before ++ .text (u ++ t) :: back := by
  by_cases h : EndsInText front
  · obtain ⟨before, u, rfl⟩ := h
    exact ⟨before, u, join_text_of_endsInText before u⟩
  · exact ⟨front, [], join_text_of_not_endsInText h⟩

/-- Only the first node of the second list can be taken in. -/
theorem join_append (front : List Node) {back : List Node} (h : back ≠ []) (more : List Node) :
    join front (back ++ more) = join front back ++ more := by
  obtain ⟨node, back, rfl⟩ := List.exists_cons_of_ne_nil h
  cases ht : node.isText with
  | true =>
    cases node with
    | text t =>
      obtain ⟨before, u, hjoin⟩ := join_text front
      rw [List.cons_append, hjoin, hjoin, List.append_assoc, List.cons_append]
    | _ => cases ht
  | false =>
    rw [List.cons_append, join_cons_of_not_isText ht, join_cons_of_not_isText ht, List.append_assoc,
      List.cons_append]

/-- No text of the second list is in the way of nodes that are none. -/
theorem join_append_of_not_isText (front back : List Node) {more : List Node}
    (h : ∀ node ∈ more.head?, node.isText = false) : join front (back ++ more) = join front back ++ more := by
  by_cases hback : back = []
  · rw [hback, List.nil_append, join_nil]
    cases more with
    | nil => rw [join_nil, List.append_nil]
    | cons node more => exact join_cons_of_not_isText (h node rfl) front more
  · exact join_append front hback more

/-- A last text of the second list is the end of some text. -/
theorem join_concat_text (front back : List Node) : ∃ before u, ∀ t,
    join front (back ++ [.text t]) = before ++ [.text (u ++ t)] := by
  by_cases hback : back = []
  · obtain ⟨before, u, hjoin⟩ := join_text front
    exact ⟨before, u, fun t => by rw [hback, List.nil_append, hjoin]⟩
  · exact ⟨join front back, [], fun t => join_append front hback [.text t]⟩

theorem endsInText_of_join {front back : List Node} (hback : back ≠ [])
    (h : EndsInText (join front back)) : EndsInText back := by
  obtain ⟨back, last, rfl⟩ := (List.eq_nil_or_concat back).resolve_left hback
  rw [List.concat_eq_append] at h ⊢
  cases ht : last.isText with
  | true =>
    cases last with
    | text t => exact ⟨back, t, rfl⟩
    | _ => cases ht
  | false =>
    rw [join_append_of_not_isText front back (by simpa using ht)] at h
    obtain ⟨before, t, hlast⟩ := h
    obtain ⟨-, hlast⟩ := List.append_inj' hlast rfl
    simp_all [isText]

end Node

namespace Nested

variable {source : Text} {first second : List Event} {front back : List Node}

/-- A text after nested events joins a text before it. -/
theorem append_text (h : Nested source first front) (t : Text) :
    Nested source (first ++ [.text t]) (Node.join front [.text t]) := by
  by_cases fresh : EndsInText front
  · obtain ⟨before, u, rfl⟩ := fresh
    rw [Node.join_text_of_endsInText]
    exact .more u t h
  · rw [Node.join_text_of_not_endsInText fresh]
    exact .text t fresh h

/-- Nested events can follow nested events. -/
theorem append (hf : Nested source first front) (hb : Nested source second back) :
    Nested source (first ++ second) (Node.join front back) := by
  induction hb with
  | nil => simpa using hf
  | @text events nodes t fresh _ ih =>
    rw [← List.append_assoc]
    by_cases hnodes : nodes = []
    · subst hnodes
      exact append_text (by simpa using ih) t
    · rw [Node.join_append front hnodes]
      exact .text t (fun h => fresh (Node.endsInText_of_join hnodes h)) ih
  | @more events nodes u t _ ih =>
    obtain ⟨before, w, hjoin⟩ := Node.join_concat_text front nodes
    rw [hjoin] at ih ⊢
    rw [← List.append_assoc, ← List.append_assoc w]
    exact .more (w ++ u) t ih
  | @single events nodes placed indent single _ ih =>
    have htext : ∀ node ∈ (placed.single indent).head?, node.isText = false := by
      unfold PlacedTag.single
      cases placed.tag.sigil <;> simp [Node.isText]
    rw [Node.join_append_of_not_isText front nodes htext, ← List.append_assoc]
    exact .single indent single ih
  | @block events inner nodes children opener closer i j opens closes named _ within ihf _ =>
    have htext : ∀ node ∈ [opener.enclose source closer children].head?, node.isText = false := by
      simp [PlacedTag.enclose, Node.isText]
    rw [Node.join_append_of_not_isText front nodes htext, ← List.append_assoc]
    exact .block i j opens closes named ihf within

/-- The tree of a source is the tree of its events in a longer source. -/
theorem extend {part : Text} {pieces : List Piece} {nodes : List Node}
    (h : Nested part (Piece.events pieces) nodes) (laid : Laid 0 part pieces) (back : Text) :
    Nested (part ++ back) (Piece.events pieces) nodes := by
  have hembeds : Embeds (part ++ back) 0 part :=
    fun _ _ ha hb => Text.slice_part [] part back ha hb
  have hshift := h.shift hembeds (laid.inside_events)
  rwa [Node.shifts_zero, Event.map_shift_zero] at hshift

/-- The tree of a source that others come before is further on by their size. -/
theorem move {part : Text} {pieces : List Piece} {nodes : List Node}
    (h : Nested part (Piece.events pieces) nodes) (laid : Laid 0 part pieces) (front : Text) :
    Nested (front ++ part) ((Piece.events pieces).map (Event.shift front.size))
      (Node.shifts front.size nodes) := by
  have hembeds : Embeds (front ++ part) front.size part := by
    intro a b ha hb
    simpa using Text.slice_part front part [] ha hb
  exact h.shift hembeds laid.inside_events

end Nested

/-- Tags balance alike further on in a source. -/
theorem Sections.balanced_map_shift (k : Nat) (tags : List PlacedTag) :
    Balanced (tags.map (PlacedTag.shift k)) ↔ Balanced tags := by
  rw [Balanced, run, List.foldlM_map]
  rfl

namespace Template

/-- After a source that ends with a line feed the next one compiles as on its own, under the pair in
effect by then, and its nodes follow, further on by the size of the first. -/
theorem compile_append {front back : Text} {tags : Tags} {nodes : List Node}
    (compiles : compile front tags = .ok nodes) (feed : front.getLast? = some '\n') :
    ((∃ all, compile (front ++ back) tags = .ok all) ↔
        ∃ more, compile back (Tokens.scan front tags).tags = .ok more) ∧
      ∀ more, compile back (Tokens.scan front tags).tags = .ok more →
        compile (front ++ back) tags = .ok (Node.join nodes (Node.shifts front.size more)) := by
  obtain ⟨before, hfront⟩ := List.getLast?_eq_some_iff.1 feed
  obtain ⟨first, hfirst, hnodes⟩ := compile_eq_ok_iff_nested.1 compiles
  have hread : ∀ pieces, Reading tags 0 (front ++ back) pieces ↔ ∃ moved,
      pieces = first ++ moved.map (Piece.shift front.size) ∧
        Reading (Tokens.scan front tags).tags 0 back moved :=
    fun pieces => hfirst.append_moved_iff (.inr ⟨before, hfront⟩)
  have hbalanced : Sections.Balanced (Piece.tags first) := by
    rw [← Piece.tags_events, ← Builder.exists_build_iff]
    exact ⟨nodes, Builder.build_eq_ok_iff.2 hnodes⟩
  have hbalance : ∀ moved,
      Sections.Balanced (Piece.tags (first ++ moved.map (Piece.shift front.size))) ↔
        Sections.Balanced (Piece.tags moved) := by
    intro moved
    rw [Piece.tags_append, hbalanced.append_iff, Piece.tags_map_shift, Sections.balanced_map_shift]
  constructor
  · rw [exists_compile_iff, exists_compile_iff]
    constructor
    · rintro ⟨pieces, hpieces, hb⟩
      obtain ⟨moved, rfl, hmoved⟩ := (hread pieces).1 hpieces
      exact ⟨moved, hmoved, (hbalance moved).1 hb⟩
    · rintro ⟨moved, hmoved, hb⟩
      exact ⟨_, (hread _).2 ⟨moved, rfl, hmoved⟩, (hbalance moved).2 hb⟩
  · intro more h
    obtain ⟨moved, hmoved, hmore⟩ := compile_eq_ok_iff_nested.1 h
    obtain ⟨lines, terminator, hlines⟩ := (hfront ▸ hfirst.laid).exists_lineEnd
    refine compile_eq_ok_iff_nested.2 ⟨_, (hread _).2 ⟨moved, rfl, hmoved⟩, ?_⟩
    rw [hlines, Piece.events_append, ← hlines, Piece.events_map_shift]
    exact (hnodes.extend hfirst.laid back).append (hmore.move hmoved.laid front)

/-- The first line changes the pair, and the last line of the first source is open to more text. -/
def twoLines : Text :=
  "a{{=<% %>=}}\nb\n".toList

theorem compile_append_twoLines :
    compile twoLines default = .ok [.text "a\nb\n".toList] ∧
      twoLines.getLast? = some '\n' ∧
      compile "c<%x%>".toList ⟨['<', '%'], ['%', '>']⟩ =
        .ok [.text ['c'], .interpolation (.parse ['x']) true ⟨1, 6⟩] ∧
      compile (twoLines ++ "c<%x%>".toList) default =
        .ok [.text "a\nb\nc".toList, .interpolation (.parse ['x']) true ⟨16, 21⟩] := by
  have hfirst : compile twoLines default = .ok [.text "a\nb\n".toList] := by cbv
  have hscan : (Tokens.scan twoLines default).tags = ⟨['<', '%'], ['%', '>']⟩ := by cbv
  have hsecond : compile "c<%x%>".toList ⟨['<', '%'], ['%', '>']⟩ =
      .ok [.text ['c'], .interpolation (.parse ['x']) true ⟨1, 6⟩] := by cbv
  refine ⟨hfirst, rfl, hsecond, ?_⟩
  exact (compile_append hfirst rfl).2 _ (hscan ▸ hsecond)

end Template
end Stencil
