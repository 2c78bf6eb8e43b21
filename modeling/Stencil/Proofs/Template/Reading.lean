import Stencil.Proofs.Token.Scan
import Stencil.Template.Compile

/-!
# Readings

How a source is read to its end when nothing in it is malformed: what stands before a tag, the tag,
and the rest under the pair in effect then. A source compiles when it has a reading and the pieces of
the reading build a tree.
-/

namespace Stencil

/-- A text that starts at a byte offset under a pair is read in these pieces. -/
inductive Reading : Tags → Nat → Text → List Piece → Prop
  | text {tags : Tags} {start : Nat} {rest : Text} (valid : tags.Valid)
    (no_opening : Text.breakAt? tags.opening rest = none) :
    Reading tags start rest (Piece.ofText rest)
  | tag {tags next : Tags} {start : Nat} {rest before inside : Text} {found : Token.Inside}
    {pieces : List Piece} (valid : tags.Valid)
    (opens : Text.breakAt? tags.opening rest = some (before, inside))
    (reads : Token.Inside.read? tags.closing inside = some found)
    (changes : Token.nextTags found.kind found.body tags = .ok next)
    (after : Reading next (start + before.size + tags.opening.size + found.body.size +
      found.closing.size) found.rest pieces) :
    Reading tags start rest (Piece.ofText before ++ .item (.tag ⟨.parse found.body,
      ⟨start + before.size, start + before.size + tags.opening.size + found.body.size +
        found.closing.size⟩, tags⟩) :: pieces)

namespace Piece

variable {source : Text} {failure : Option Error} {opened : Option Nat} {body : Option Token}
  {tags : Tags}

theorem ofTokens_run (start : Nat) (raw : Text) (tokens : List Token) :
    ofTokens source failure opened body tags (Token.run start raw ++ tokens) =
      (ofText raw ++ (ofTokens source failure opened body tags tokens).1,
        (ofTokens source failure opened body tags tokens).2) := by
  cases raw with
  | nil => simp [Token.run, ofText]
  | cons c t => simp [Token.run, ofTokens]

/-- The tokens of a tag become one piece. -/
theorem ofTokens_tag {opening body closing : Token} {next : Tags}
    (ho : opening.kind = .opening) (hb : body.kind = .body ∨ body.kind = .change)
    (hc : closing.kind = .closing) (hn : Token.nextTags body.kind body.raw tags = .ok next)
    (tokens : List Token) :
    ofTokens source failure none none tags (opening :: body :: closing :: tokens) =
      (.item (.tag ⟨.parse body.raw, ⟨opening.start, closing.stop⟩, tags⟩) ::
          (ofTokens source failure none none next tokens).1,
        (ofTokens source failure none none next tokens).2) := by
  rcases hb with hb | hb
  · rw [hb] at hn
    simp [ofTokens, ho, hb, hc, hn]
  · rw [hb] at hn
    simp [ofTokens, ho, hb, hc, hn]

/-- The tokens up to the end of a tag become the text before it and the tag. -/
theorem ofTokens_prepend {start : Nat} {before opening : Text} {found : Token.Inside} {next : Tags}
    (kind : found.kind = .body ∨ found.kind = .change)
    (changes : Token.nextTags found.kind found.body tags = .ok next) (tokens : Tokens) :
    let stop := start + before.size + opening.size + found.body.size + found.closing.size
    let prepended := tokens.prepend
      (Token.run start before ++ [⟨.opening, opening, start + before.size⟩,
        ⟨found.kind, found.body, start + before.size + opening.size⟩,
        ⟨.closing, found.closing, start + before.size + opening.size + found.body.size⟩])
    ofTokens source prepended.failure none none tags prepended.list =
      (ofText before ++ .item (.tag ⟨.parse found.body, ⟨start + before.size, stop⟩, tags⟩) ::
          (ofTokens source tokens.failure none none next tokens.list).1,
        (ofTokens source tokens.failure none none next tokens.list).2) := by
  intro stop prepended
  simp only [prepended, Tokens.prepend, List.append_assoc, List.cons_append, List.nil_append]
  rw [ofTokens_run, ofTokens_tag rfl kind rfl changes]
  rfl

end Piece

namespace Tokens

variable {source : Text} {tags : Tags} {start : Nat} {rest : Text}

/-- The pieces that a scan yields, and what stops it. -/
abbrev read (source : Text) (tags : Tags) (start : Nat) (rest : Text) : List Piece × Option Error :=
  Piece.ofTokens source (scanFrom source tags start rest).failure none none tags
    (scanFrom source tags start rest).list

theorem read_of_none (valid : tags.Valid) (h : Text.breakAt? tags.opening rest = none) :
    read source tags start rest = (Piece.ofText rest, none) := by
  rw [read, scanFrom_of_none valid h, ← List.append_nil (Token.run start rest), Piece.ofTokens_run]
  simp [Piece.ofTokens]

/-- A tag that can be read comes before what is read after it. -/
theorem read_of_tag {before inside : Text} {found : Token.Inside} {next : Tags}
    (valid : tags.Valid) (opens : Text.breakAt? tags.opening rest = some (before, inside))
    (reads : Token.Inside.read? tags.closing inside = some found)
    (changes : Token.nextTags found.kind found.body tags = .ok next) :
    let stop := start + before.size + tags.opening.size + found.body.size + found.closing.size
    read source tags start rest =
      (Piece.ofText before ++
          .item (.tag ⟨.parse found.body, ⟨start + before.size, stop⟩, tags⟩) ::
            (read source next stop found.rest).1,
        (read source next stop found.rest).2) := by
  intro stop
  rw [read, scanFrom_of_tag valid opens reads changes]
  exact Piece.ofTokens_prepend (Token.Inside.kind_of_read? reads) changes _

/-- What has a reading is read so. -/
theorem read_of_reading {pieces : List Piece} (h : Reading tags start rest pieces) :
    read source tags start rest = (pieces, none) := by
  induction h with
  | text valid no_opening => exact read_of_none valid no_opening
  | tag valid opens reads changes _ ih => rw [read_of_tag valid opens reads changes, ih]

/-- What is read to its end has a reading. -/
theorem reading_of_read (h : (read source tags start rest).2 = none) :
    Reading tags start rest (read source tags start rest).1 := by
  refine scanFrom_induction source (motive := fun tags start rest tokens =>
    (Piece.ofTokens source tokens.failure none none tags tokens.list).2 = none →
      Reading tags start rest (Piece.ofTokens source tokens.failure none none tags tokens.list).1)
    ?invalid ?text ?malformed ?tag tags start rest h
  case invalid =>
    intro tags start rest invalid h
    simp [Piece.ofTokens] at h
  case text =>
    intro tags start rest valid no_opening _
    rw [← List.append_nil (Token.run start rest), Piece.ofTokens_run]
    simpa [Piece.ofTokens] using Reading.text valid no_opening
  case malformed =>
    intro tags start rest before inside fault valid opens _ h
    rw [Piece.ofTokens_run] at h
    simp [Piece.ofTokens] at h
  case tag =>
    intro tags start rest before inside found next tokens valid opens reads changes ih h
    rw [Piece.ofTokens_prepend (Token.Inside.kind_of_read? reads) changes] at h ⊢
    exact .tag valid opens reads changes (ih h)

end Tokens

theorem Reading.unique {tags : Tags} {start : Nat} {rest : Text} {pieces others : List Piece}
    (h : Reading tags start rest pieces) (ho : Reading tags start rest others) : pieces = others := by
  have hread : Tokens.read rest tags start rest = (pieces, none) := Tokens.read_of_reading h
  rw [Tokens.read_of_reading ho] at hread
  exact (Prod.mk.inj hread).1.symm

namespace Piece

/-- The events of the lines that pieces make up. -/
def events (pieces : List Piece) : List Event :=
  (Line.split pieces).1.flatMap Line.events ++ Line.events ⟨(Line.split pieces).2, []⟩

end Piece

/-- The tree that events build over a source. -/
def Builder.build (source : Text) (events : List Event) : Except Error (List Node) := do
  let built ← (Builder.empty source).run events
  built.finish

namespace Template

variable {source : Text} {tags : Tags} {nodes : List Node}

/-- What is read to its end compiles to the tree of its events. -/
theorem compile_of_read {pieces : List Piece} (h : Tokens.read source tags 0 source = (pieces, none)) :
    compile source tags = Builder.build source (Piece.events pieces) := by
  have hcompile : compile source tags = (do
      let built ← (Builder.empty source).run ((Line.split pieces).1.flatMap Line.events)
      let built ← built.run (Line.events ⟨(Line.split pieces).2, []⟩)
      built.finish) := by
    rw [Tokens.read] at h
    simp only [compile, ofTokens, Tokens.scan, h]
  rw [hcompile, Builder.build, Piece.events, Builder.run_append]
  cases (Builder.empty source).run ((Line.split pieces).1.flatMap Line.events) <;> rfl

/-- Nothing else compiles. -/
theorem read_of_compile (h : compile source tags = .ok nodes) :
    (Tokens.read source tags 0 source).2 = none := by
  rcases hr : Tokens.read source tags 0 source with ⟨pieces, _ | error⟩
  · rfl
  · rw [Tokens.read] at hr
    simp only [compile, ofTokens, Tokens.scan, hr] at h
    cases hb : (Builder.empty source).run ((Line.split pieces).1.flatMap Line.events) <;>
      rw [hb] at h <;> cases h

theorem compile_eq_ok_iff : compile source tags = .ok nodes ↔
    ∃ pieces, Reading tags 0 source pieces ∧
      Builder.build source (Piece.events pieces) = .ok nodes := by
  constructor
  · intro h
    have hstop := read_of_compile h
    have hread := Tokens.reading_of_read hstop
    exact ⟨_, hread, compile_of_read (Prod.ext rfl hstop) ▸ h⟩
  · rintro ⟨pieces, hr, hb⟩
    rw [compile_of_read (Tokens.read_of_reading hr), hb]

end Template
end Stencil
