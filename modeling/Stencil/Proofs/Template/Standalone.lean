import Stencil.Proofs.Template.Laid

/-!
# Tags that stand alone

Whether a tag stands alone can be read off the source: the line before it, back to the last line
feed, and the line after it hold spaces and tabs only. Other tags need no mention, and neither do
line feeds inside of tags, because a delimiter holds no blank.
-/

namespace Stencil

/-- The first line and its line end. A carriage return belongs to a line feed that follows it. -/
def Text.cutLine : Text → Text × Text
  | [] => ([], [])
  | '\n' :: _ => ([], ['\n'])
  | '\r' :: '\n' :: _ => ([], ['\r', '\n'])
  | c :: t => (c :: (cutLine t).1, (cutLine t).2)

namespace PlacedTag

/-- What the source holds before a tag since the last line feed. -/
def lineFront (source : Text) (placed : PlacedTag) : Text :=
  Location.lastLine (source.takeBytes placed.span.start)

/-- What the source holds after a tag up to the next line end, and that line end. -/
def lineBack (source : Text) (placed : PlacedTag) : Text × Text :=
  (source.dropBytes placed.span.stop).cutLine

def Standalone (source : Text) (placed : PlacedTag) : Prop :=
  placed.tag.sigil.canStandAlone = true ∧ Line.isBlank (placed.lineFront source) = true ∧
    Line.isBlank (placed.lineBack source).1 = true

instance (source : Text) (placed : PlacedTag) : Decidable (placed.Standalone source) :=
  inferInstanceAs (Decidable (_ ∧ _ ∧ _))

/-- The bytes that go with a tag: its own and, if it stands alone, all others of its line. -/
def taken (source : Text) (placed : PlacedTag) : Span :=
  if placed.Standalone source then
    ⟨placed.span.start - (placed.lineFront source).size,
      placed.span.stop + (placed.lineBack source).1.size + (placed.lineBack source).2.size⟩
  else placed.span

end PlacedTag

theorem Line.isBlank_append (s t : Text) : isBlank (s ++ t) = (isBlank s && isBlank t) := by
  simp [isBlank]

/-- The narrow blanks are blanks. -/
theorem Line.isBlank_cons_of_solid {c : Char} (h : Text.isBlank c = false) (t : Text) :
    isBlank (c :: t) = false := by
  have hs : c ≠ ' ' := by rintro rfl; revert h; decide
  have ht : c ≠ '\t' := by rintro rfl; revert h; decide
  simp [isBlank, hs, ht]

namespace Text

theorem cutLine_cons {c : Char} {t : Text} (no_feed : c ≠ '\n')
    (whole : c = '\r' → t.head? ≠ some '\n') :
    cutLine (c :: t) = (c :: (cutLine t).1, (cutLine t).2) := by
  rw [cutLine.eq_def]
  split
  · simp_all
  · simp_all
  · simp_all
  · rename_i h
    cases h
    rfl

/-- A run of text belongs to the line. -/
theorem cutLine_append {t rest : Text} (no_feed : '\n' ∉ t) (whole : EndsWhole t rest) :
    cutLine (t ++ rest) = (t ++ (cutLine rest).1, (cutLine rest).2) := by
  induction t with
  | nil => rfl
  | cons c t ih =>
    rw [List.mem_cons, not_or] at no_feed
    have hwhole : c = '\r' → (t ++ rest).head? ≠ some '\n' := by
      rintro rfl
      cases t with
      | nil => exact whole [] rfl
      | cons d t =>
        have : '\n' ≠ d := fun hd => no_feed.2 (hd ▸ List.mem_cons_self ..)
        simpa using this.symm
    rw [List.cons_append, cutLine_cons (Ne.symm no_feed.1) hwhole,
      ih no_feed.2 fun front hf => whole (c :: front) (by rw [hf]; rfl)]
    rfl

theorem cutLine_lineEnd {t : Text} (h : t = ['\n'] ∨ t = ['\r', '\n']) (rest : Text) :
    cutLine (t ++ rest) = ([], t) := by
  rcases h with rfl | rfl <;> rfl

end Text

namespace Location

/-- What ends with a solid character is not blank in its last line. -/
theorem isBlank_lastLine_of_solid {c : Char} (h : Text.isBlank c = false) (front : Text) :
    Line.isBlank (lastLine (front ++ [c])) = false := by
  have hc : '\n' ∉ [c] := by
    simp only [List.mem_singleton]
    rintro rfl
    revert h
    decide
  rw [lastLine_append hc, Line.isBlank_append, Line.isBlank_cons_of_solid h, Bool.and_false]

end Location

/-- What comes before a line: nothing, or a text that ends with a line feed. -/
def StartsLine (front : Text) : Prop :=
  front = [] ∨ ∃ before, front = before ++ ['\n']

theorem StartsLine.nil : StartsLine [] := .inl rfl

theorem StartsLine.lastLine {front : Text} (h : StartsLine front) : Location.lastLine front = [] := by
  rcases h with rfl | ⟨before, rfl⟩
  · rfl
  · exact Location.lastLine_feed before

theorem StartsLine.endsWhole {front t : Text} (h : StartsLine (front ++ t)) (rest : Text) :
    EndsWhole t rest := by
  rintro u rfl
  rcases h with h | ⟨before, h⟩
  · simp at h
  · have := List.append_inj' (show (front ++ u) ++ ['\r'] = before ++ ['\n'] by simpa using h) rfl
    simp at this

namespace Line

/-- The text of items outside of the tags. -/
def outside (items : List Item) : Text :=
  (items.map Piece.item).flatMap Piece.outside

@[simp] theorem outside_text (t : Text) (items : List Item) :
    outside (.text t :: items) = t ++ outside items := rfl

/-- Spaces and tabs, and no tag. -/
def isSpace : Item → Bool
  | .text t => isBlank t
  | .tag _ => false

variable {front t : Text} {items : List Item} {placed : PlacedTag}

theorem filterMap_placed?_of_isSpace (space : items.all isSpace = true) :
    items.filterMap placed? = [] := by
  rw [List.filterMap_eq_nil_iff]
  intro item hi
  have := List.all_eq_true.1 space item hi
  cases item with
  | text t => rfl
  | tag placed => simp [isSpace] at this

/-- Items without a tag are the text that they cover. -/
theorem eq_outside {n : Nat} (h : Laid n t (items.map .item))
    (none : items.filterMap placed? = []) : t = outside items := by
  induction items generalizing n t with
  | nil =>
    cases h
    rfl
  | cons item items ih =>
    cases item with
    | tag placed => simp [placed?] at none
    | text u =>
      cases h with
      | text ne_nil no_feed whole after =>
        rw [outside_text, ih after (by simpa [placed?] using none)]

theorem feed_notMem_outside (space : items.all isSpace = true) : '\n' ∉ outside items := by
  induction items with
  | nil => simp [outside]
  | cons item items ih =>
    rw [List.all_cons, Bool.and_eq_true] at space
    cases item with
    | tag placed => simp [isSpace] at space
    | text t =>
      rw [outside_text, List.mem_append, not_or]
      refine ⟨fun h => ?_, ih space.2⟩
      have := List.all_eq_true.1 space.1 _ h
      revert this
      decide

/-- Items that are not blank leave a line that is not. -/
theorem isBlank_lastLine_append {n : Nat} (front : Text) (h : Laid n t (items.map .item)) :
    isBlank (Location.lastLine (front ++ t)) =
      (isBlank (Location.lastLine front) && items.all isSpace) := by
  induction items generalizing n front t with
  | nil =>
    cases h
    simp
  | cons item items ih =>
    rw [List.all_cons]
    cases item with
    | text u =>
      cases h with
      | text ne_nil no_feed whole after =>
        rw [← List.append_assoc, ih _ after, Location.lastLine_append no_feed, isBlank_append,
          Bool.and_assoc]
        rfl
    | tag placed =>
      cases h with
      | tag solid span after =>
        obtain ⟨-, u, c, rfl, hc⟩ := solid
        rw [← List.append_assoc, ih _ after, ← List.append_assoc,
          Location.isBlank_lastLine_of_solid hc]
        simp [isSpace]

/-- Items before a tag are blank if the line before it is. -/
theorem isBlank_lastLine {n : Nat} (starts : StartsLine front) (h : Laid n t (items.map .item)) :
    isBlank (Location.lastLine (front ++ t)) = items.all isSpace := by
  rw [isBlank_lastLine_append front h, starts.lastLine]
  simp [isBlank]

/-- The piece at the end of a line. -/
def ending (terminator : Text) : List Piece :=
  if terminator.isEmpty then [] else [.lineEnd terminator]

/-- Items after a tag are blank if the line after it is. -/
theorem isBlank_cutLine {n : Nat} {terminator rest : Text}
    (h : Laid n t (items.map .item ++ ending terminator)) (last : terminator = [] → rest = []) :
    isBlank (t ++ rest).cutLine.1 = items.all isSpace ∧
      (items.all isSpace = true → (t ++ rest).cutLine = (outside items, terminator) ∧
        t = outside items ++ terminator) := by
  induction items generalizing n t with
  | nil =>
    cases terminator with
    | nil =>
      cases h
      simp [last rfl, Text.cutLine, isBlank, outside]
    | cons c terminator =>
      cases h with
      | lineEnd ht after =>
        cases after
        rw [List.append_assoc, Text.cutLine_lineEnd ht]
        simp [isBlank, outside]
  | cons item items ih =>
    cases item with
    | text u =>
      cases h with
      | @text n u rest' pieces ne_nil no_feed whole after =>
        obtain ⟨hb, hc⟩ := ih after
        have hwhole : EndsWhole u (rest' ++ rest) := by
          refine whole.append fun hnil => last ?_
          subst hnil
          have := List.append_eq_nil_iff.1 after.eq_nil
          simpa [ending] using this.2
        rw [List.append_assoc, Text.cutLine_append no_feed hwhole, isBlank_append, hb]
        refine ⟨by simp [isSpace], fun space => ?_⟩
        rw [List.all_cons, Bool.and_eq_true] at space
        obtain ⟨hcut, ht⟩ := hc space.2
        rw [hcut, outside_text, ht]
        simp
    | tag placed =>
      cases h with
      | tag solid span after =>
        obtain ⟨⟨c, u, rfl, hc⟩, -⟩ := solid
        have hn : c ≠ '\n' := by rintro rfl; revert hc; decide
        have hr : c ≠ '\r' := by rintro rfl; revert hc; decide
        rw [List.cons_append, List.cons_append, Text.cutLine_cons hn fun h => absurd h hr,
          isBlank_cons_of_solid hc]
        simp [isSpace]

theorem all_admitsLone (items : List Item) (h : items.filterMap placed? = []) :
    items.all admitsLone = items.all isSpace := by
  rw [Bool.eq_iff_iff, List.all_eq_true, List.all_eq_true]
  rw [List.filterMap_eq_nil_iff] at h
  refine forall₂_congr fun item hi => ?_
  cases item with
  | text t => rfl
  | tag placed => simpa [placed?] using h _ hi

/-- A tag stands alone if it may and all else on the line is blank. -/
theorem lone?_append (before after : List Item) (placed : PlacedTag) :
    lone? (before ++ .tag placed :: after) =
      if placed.tag.sigil.canStandAlone && before.all isSpace && after.all isSpace then
        some placed
      else none := by
  have hsplit : (before ++ .tag placed :: after).filterMap placed? =
      before.filterMap placed? ++ placed :: after.filterMap placed? := by
    simp [placed?]
  rw [lone?, hsplit]
  by_cases hb : before.filterMap placed? = []
  · by_cases ha : after.filterMap placed? = []
    · rw [hb, ha, List.nil_append]
      simp only [List.all_append, List.all_cons, all_admitsLone _ hb, all_admitsLone _ ha, admitsLone]
      cases before.all isSpace <;> cases after.all isSpace <;>
        cases placed.tag.sigil.canStandAlone <;> rfl
    · have hspace : after.all isSpace = false := by
        rw [← Bool.not_eq_true]
        exact fun h => ha (filterMap_placed?_of_isSpace h)
      obtain ⟨q, qs, hq⟩ := List.exists_cons_of_ne_nil ha
      simp [hspace, hb, hq]
  · have hspace : before.all isSpace = false := by
      rw [← Bool.not_eq_true]
      exact fun h => hb (filterMap_placed?_of_isSpace h)
    obtain ⟨q, qs, hq⟩ := List.exists_cons_of_ne_nil hb
    cases qs <;> simp [hspace, hq]

theorem preceding_append {before : List Item} (h : before.filterMap placed? = [])
    (after : List Item) (placed : PlacedTag) :
    preceding (before ++ .tag placed :: after) = outside before := by
  induction before with
  | nil => rfl
  | cons item before ih =>
    cases item with
    | text t => rw [List.cons_append, preceding, ih (by simpa [placed?] using h), outside_text]
    | tag found => simp [placed?] at h

/-- A line where it stands in a source: between what comes before it and the rest. -/
structure Stands (line : Line) (front t rest : Text) : Prop where
  starts : StartsLine front
  laid : Laid front.size t (line.items.map .item ++ ending line.terminator)
  last : line.terminator = [] → rest = []

namespace Stands

variable {line : Line} {rest : Text} {before after : List Item}

/-- A line can be cut around each of its tags. -/
theorem cut (h : line.Stands front t rest) (hp : line.items = before ++ .tag placed :: after) :
    ∃ u raw v, t = u ++ (raw ++ v) ∧ Laid front.size u (before.map .item) ∧ Solid raw ∧
      placed.span = ⟨(front ++ u).size, (front ++ u).size + raw.size⟩ ∧
      Laid ((front ++ u).size + raw.size) v (after.map .item ++ ending line.terminator) := by
  have hlaid := h.laid
  rw [hp, List.map_append, List.map_cons, List.append_assoc] at hlaid
  obtain ⟨u, raw, v, rfl, hu, solid, span, hv⟩ := hlaid.cut
  rw [← Text.size_append] at span hv
  exact ⟨u, raw, v, rfl, hu, solid, span, hv⟩

variable (h : line.Stands front t rest)
include h

theorem standalone_iff (hp : line.items = before ++ .tag placed :: after) :
    placed.Standalone (front ++ (t ++ rest)) ↔ lone? line.items = some placed := by
  obtain ⟨u, raw, v, rfl, hu, -, hspan, hv⟩ := h.cut hp
  have hsource : front ++ (u ++ (raw ++ v) ++ rest) = (front ++ u) ++ (raw ++ (v ++ rest)) := by
    simp
  have hfront : placed.lineFront (front ++ (u ++ (raw ++ v) ++ rest)) =
      Location.lastLine (front ++ u) := by
    rw [PlacedTag.lineFront, hspan, hsource, Text.takeBytes_size_append]
  have hback : placed.lineBack (front ++ (u ++ (raw ++ v) ++ rest)) = (v ++ rest).cutLine := by
    rw [PlacedTag.lineBack, hspan, hsource, Text.dropBytes_size_add]
    exact congrArg _ (Text.dropBytes_size_append raw _)
  rw [PlacedTag.Standalone, hfront, hback, isBlank_lastLine h.starts hu,
    (isBlank_cutLine hv h.last).1, hp, lone?_append]
  simp [and_assoc]

/-- On a line that keeps its text a tag takes itself. -/
theorem of_none (hp : line.items = before ++ .tag placed :: after)
    (lone : lone? line.items = none) : placed.taken (front ++ (t ++ rest)) = placed.span := by
  rw [PlacedTag.taken, if_neg]
  rw [h.standalone_iff hp, lone]
  simp

/-- A tag that stands alone takes its line. -/
theorem of_lone (hp : line.items = before ++ .tag placed :: after)
    (lone : lone? line.items = some placed) :
    placed.lineFront (front ++ (t ++ rest)) = preceding line.items ∧
      placed.taken (front ++ (t ++ rest)) = ⟨front.size, front.size + t.size⟩ := by
  have halone := (h.standalone_iff hp).2 lone
  obtain ⟨u, raw, v, rfl, hu, -, hspan, hv⟩ := h.cut hp
  have hsource : front ++ (u ++ (raw ++ v) ++ rest) = (front ++ u) ++ (raw ++ (v ++ rest)) := by
    simp
  have hspace : before.all isSpace = true ∧ after.all isSpace = true := by
    rw [hp, lone?_append] at lone
    split at lone
    · simp_all
    · cases lone
  obtain ⟨hcut, rfl⟩ := (isBlank_cutLine hv h.last).2 hspace.2
  obtain rfl := eq_outside hu (filterMap_placed?_of_isSpace hspace.1)
  have hfront : placed.lineFront (front ++ (outside before ++ (raw ++ (outside after ++
      line.terminator)) ++ rest)) = outside before := by
    rw [PlacedTag.lineFront, hspan, hsource, Text.takeBytes_size_append,
      Location.lastLine_append (feed_notMem_outside hspace.1), h.starts.lastLine, List.nil_append]
  have hback : placed.lineBack (front ++ (outside before ++ (raw ++ (outside after ++
      line.terminator)) ++ rest)) = (outside after, line.terminator) := by
    rw [PlacedTag.lineBack, hspan, hsource, Text.dropBytes_size_add, ← hcut]
    exact congrArg _ (Text.dropBytes_size_append raw _)
  constructor
  · rw [hfront, hp, preceding_append (filterMap_placed?_of_isSpace hspace.1)]
  · rw [PlacedTag.taken, if_pos halone, hfront, hback, hspan]
    simp only [Text.size_append, Span.mk.injEq]
    omega

end Stands

theorem pieces_eq {line : Line} (h : line.terminator ≠ []) :
    line.pieces = line.items.map .item ++ ending line.terminator := by
  simp [pieces, ending, h]

/-- The first line of a text stands there, and the next line can start after it. -/
theorem stands_of_laid {line : Line} {more : List Piece} (starts : StartsLine front)
    (h : Laid front.size t (line.pieces ++ more)) :
    ∃ u rest, t = u ++ rest ∧ line.terminator ≠ [] ∧ line.Stands front u rest ∧
      StartsLine (front ++ u) ∧ Laid (front ++ u).size rest more := by
  obtain ⟨u, rest, rfl, hu, hrest⟩ := h.of_append
  obtain ⟨v, w, rfl, -, hw⟩ := hu.of_append
  cases hw with
  | lineEnd terminator after =>
    cases after
    have hne : line.terminator ≠ [] := by rcases terminator with h | h <;> simp [h]
    refine ⟨_, rest, rfl, hne, ⟨starts, pieces_eq hne ▸ hu, fun h => absurd h hne⟩, .inr ?_,
      by simpa using hrest⟩
    rcases terminator with h | h
    · exact ⟨front ++ v, by simp [h]⟩
    · exact ⟨front ++ (v ++ ['\r']), by simp [h]⟩

/-- The items after the last line end stand there too. -/
theorem stands_of_last (starts : StartsLine front) (h : Laid front.size t (items.map .item)) :
    Stands ⟨items, []⟩ front t [] :=
  ⟨starts, by simpa [ending] using h, fun _ => rfl⟩

end Line
end Stencil
