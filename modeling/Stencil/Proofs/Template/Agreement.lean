import Stencil.Proofs.Template.Pairs
import Stencil.Proofs.Template.Within
import Stencil.Proofs.Token.Agreement

/-!
# Tags as a scan and as the reader of its tokens see them

The pair in effect at each tag is computed twice: by the scanner, which looks for the tag, and by the
reader of the tokens, which records the pair. Both have the same pair at every tag, and the reader
meets no fault of its own.
-/

namespace Stencil

namespace Token

variable {front tokens back : List Token} {opening body closing : Token}

/-- The tag that the reader places for three tokens after others. -/
def place (tags : Tags) (front : List Token) (opening body closing : Token) : PlacedTag :=
  ⟨.parse body.raw, ⟨opening.start, closing.stop⟩, inEffect tags front⟩

/-- A whole tag among the tokens from a tag on is that tag or comes after it. -/
theorem WholeTag.of_cons {first second third : Token}
    (hb : second.kind = .body ∨ second.kind = .change) (hc : third.kind = .closing)
    (h : WholeTag (first :: second :: third :: tokens) front opening body closing) :
    (front = [] ∧ opening = first ∧ body = second ∧ closing = third) ∨
      ∃ more, front = first :: second :: third :: more ∧ WholeTag tokens more opening body closing := by
  obtain ⟨opens, back, hlist⟩ := h
  match front, hlist with
  | [], hlist =>
    simp only [List.nil_append, List.cons.injEq] at hlist
    obtain ⟨rfl, rfl, rfl, -⟩ := hlist
    exact .inl ⟨rfl, rfl, rfl, rfl⟩
  | [_], hlist =>
    simp only [List.cons_append, List.nil_append, List.cons.injEq] at hlist
    simp [hlist.2.1, opens] at hb
  | [_, _], hlist =>
    simp only [List.cons_append, List.nil_append, List.cons.injEq] at hlist
    simp [hlist.2.2.1, opens] at hc
  | _ :: _ :: _ :: more, hlist =>
    simp only [List.cons_append, List.cons.injEq] at hlist
    obtain ⟨rfl, rfl, rfl, hback⟩ := hlist
    exact .inr ⟨more, rfl, opens, back, hback⟩

/-- No whole tag starts with a run of text. -/
theorem WholeTag.of_run {start : Nat} {before : Text}
    (h : WholeTag (run start before ++ tokens) front opening body closing) :
    ∃ more, front = run start before ++ more ∧ WholeTag tokens more opening body closing := by
  cases before with
  | nil => exact ⟨front, rfl, h⟩
  | cons c t =>
    obtain ⟨opens, back, hlist⟩ := h
    cases front with
    | nil =>
      obtain ⟨rfl, -⟩ := List.cons.inj hlist
      cases opens
    | cons token front =>
      obtain ⟨rfl, hrest⟩ := List.cons.inj hlist
      exact ⟨front, rfl, opens, back, hrest⟩

theorem WholeTag.append (h : WholeTag tokens front opening body closing) (before : List Token) :
    WholeTag (before ++ tokens) (before ++ front) opening body closing := by
  obtain ⟨opens, back, rfl⟩ := h
  exact ⟨opens, back, by simp⟩

/-- The tags that are placed are those of the tokens. -/
def Places (tags : Tags) (tokens : List Token) (placed : List PlacedTag) : Prop :=
  ∀ tag, tag ∈ placed ↔ ∃ front opening body closing,
    WholeTag tokens front opening body closing ∧ tag = place tags front opening body closing

theorem places_of_short {tags : Tags} {start : Nat} {before : Text} {last : List Token}
    (short : last.length ≤ 1) : Places tags (run start before ++ last) [] := by
  intro tag
  refine iff_of_false List.not_mem_nil ?_
  rintro ⟨front, opening, body, closing, h, -⟩
  obtain ⟨more, -, opens, back, hlast⟩ := h.of_run
  have := congrArg List.length hlast
  simp only [List.length_append, List.length_cons] at this
  omega

theorem Places.cons {tags next : Tags} {start : Nat} {before : Text} {first second third : Token}
    {placed : List PlacedTag} (ho : first.kind = .opening)
    (hb : second.kind = .body ∨ second.kind = .change) (hc : third.kind = .closing)
    (changes : nextTags second.kind second.raw tags = .ok next) (h : Places next tokens placed) :
    Places tags (run start before ++ first :: second :: third :: tokens)
      (⟨.parse second.raw, ⟨first.start, third.stop⟩, tags⟩ :: placed) := by
  have heffect : ∀ more, inEffect tags (run start before ++ first :: second :: third :: more) =
      inEffect next more := by
    intro more
    have hfold := foldl_effect_tag ho hb hc changes
    rw [inEffect, List.foldl_append, foldl_effect_run,
      show first :: second :: third :: more = [first, second, third] ++ more from rfl,
      List.foldl_append, hfold, inEffect]
  have hfirst : inEffect tags (run start before) = tags := by rw [inEffect, foldl_effect_run]
  intro tag
  rw [List.mem_cons, h tag]
  constructor
  · rintro (rfl | ⟨front, opening, body, closing, hw, rfl⟩)
    · exact ⟨run start before, first, second, third, ⟨ho, tokens, rfl⟩, by rw [place, hfirst]⟩
    · have hwhole := hw.append (run start before ++ [first, second, third])
      simp only [List.append_assoc, List.cons_append, List.nil_append] at hwhole
      exact ⟨_, opening, body, closing, hwhole, by rw [place, place, heffect]⟩
  · rintro ⟨front, opening, body, closing, hw, rfl⟩
    obtain ⟨more, rfl, hmore⟩ := hw.of_run
    obtain ⟨rfl, rfl, rfl, rfl⟩ | ⟨rest, rfl, hrest⟩ := hmore.of_cons hb hc
    · left
      rw [List.append_nil, place, hfirst]
    · exact .inr ⟨rest, opening, body, closing, hrest, by rw [place, place, heffect]⟩

end Token

namespace Tokens

variable (source : Text) (tags : Tags)

/-- Whatever failure is told to end the tokens of a scan, the reader stops with that failure and no
other, and places the tags of the tokens. -/
theorem places_ofTokens (start : Nat) (rest : Text) (failure : Option Error)
    (h : failure.isSome = (scanFrom source tags start rest).failure.isSome) :
    let reading := Piece.ofTokens source failure none none tags (scanFrom source tags start rest).list
    Token.Places tags (scanFrom source tags start rest).list (Piece.tags reading.1) ∧
      reading.2 = failure := by
  refine scanFrom_induction source (motive := fun tags start rest tokens =>
    ∀ failure : Option Error, failure.isSome = tokens.failure.isSome →
      Token.Places tags tokens.list
          (Piece.tags (Piece.ofTokens source failure none none tags tokens.list).1) ∧
        (Piece.ofTokens source failure none none tags tokens.list).2 = failure)
    ?invalid ?text ?malformed ?tag tags start rest failure h
  case invalid =>
    intro tags start rest invalid failure h
    exact ⟨@Token.places_of_short tags 0 [] [] (Nat.zero_le 1), by simp [Piece.ofTokens]⟩
  case text =>
    intro tags start rest valid none failure h
    rw [← List.append_nil (Token.run start rest), Piece.ofTokens_run]
    refine ⟨?_, by simp [Piece.ofTokens]⟩
    have hshort : ([] : List Token).length ≤ 1 := Nat.zero_le 1
    simpa [Piece.ofTokens] using Token.places_of_short hshort
  case malformed =>
    intro tags start rest before inside fault valid opens malformed failure h
    obtain ⟨error, rfl⟩ := Option.isSome_iff_exists.1 (h.trans rfl)
    rw [Piece.ofTokens_run]
    refine ⟨?_, by simp [Piece.ofTokens]⟩
    have hshort : [Token.mk .opening tags.opening (start + before.size)].length ≤ 1 := Nat.le_refl 1
    simpa [Piece.ofTokens] using Token.places_of_short hshort
  case tag =>
    intro tags start rest before inside found next tokens valid opens reads changes ih failure h
    obtain ⟨hplaces, hstop⟩ := ih failure h
    have hkind := Token.Inside.kind_of_read? reads
    simp only [prepend, List.append_assoc, List.cons_append, List.nil_append]
    rw [Piece.ofTokens_run, Piece.ofTokens_tag rfl hkind rfl changes]
    refine ⟨?_, hstop⟩
    simpa using hplaces.cons rfl hkind rfl changes

variable {source tags}

theorem places_placed : Token.Places tags (scan source tags).list (Template.placed source tags) :=
  (places_ofTokens source tags 0 source _ rfl).1

end Tokens

namespace Template

/-- A tag that has been placed comes from three tokens, and has the pair that the scanner has in
effect before them. -/
theorem exists_wholeTag_of_mem {source : Text} {tags : Tags} {tag : PlacedTag}
    (h : tag ∈ placed source tags) :
    ∃ front opening body closing before,
      Token.WholeTag (Tokens.scan source tags).list front opening body closing ∧
        Scanner.Yields source (.start tags) front before ∧
        tag = ⟨.parse body.raw, ⟨opening.start, closing.stop⟩, before.tags⟩ := by
  obtain ⟨front, opening, body, closing, hw, rfl⟩ := (Tokens.places_placed tag).1 h
  obtain ⟨before, -, hfront, -, hbefore, -⟩ := Scanner.decides hw
  exact ⟨front, opening, body, closing, before, hw, hfront, by rw [Token.place, hbefore]⟩

/-- The scanner and the reader of its tokens agree on every tag. The scanner takes a tag for a change
of the pair, and ends it with an extra brace, just when its body says so; the pair that the reader
computes is the one that the scanner has then; a tag and a section have the pair that the scanner has
in effect where the tag, or the section's first tag, opens; and the reader stops only where the scan
has failed, with the failure that it is told. -/
theorem scan_agrees (source : Text) (tags : Tags) :
    let tokens := Tokens.scan source tags
    (∀ front opening body closing, Token.WholeTag tokens.list front opening body closing →
      ∃ before after, Scanner.Yields source (.start tags) front before ∧
        Scanner.Yields source before [opening, body, closing] after ∧
        (body.kind = .change ↔ (Tag.parse body.raw).sigil = .delimiters) ∧
        (closing.raw = '}' :: before.tags.closing ↔ (Tag.parse body.raw).sigil = .triple) ∧
        Token.nextTags body.kind body.raw before.tags = .ok after.tags ∧
        ⟨.parse body.raw, ⟨opening.start, closing.stop⟩, before.tags⟩ ∈ placed source tags) ∧
    (∀ tag ∈ placed source tags, ∃ front opening body closing before,
      Token.WholeTag tokens.list front opening body closing ∧
        Scanner.Yields source (.start tags) front before ∧
        tag = ⟨.parse body.raw, ⟨opening.start, closing.stop⟩, before.tags⟩) ∧
    (∀ nodes, compile source tags = .ok nodes → ∀ path inverted children raw pair span,
      Within (.block path inverted children raw pair span) nodes →
        ∃ front opening body closing before,
          Token.WholeTag tokens.list front opening body closing ∧ opening.start = span.start ∧
            (Tag.parse body.raw).sigil.opens = true ∧
            Scanner.Yields source (.start tags) front before ∧ pair = before.tags) ∧
    ∀ failure : Option Error, failure.isSome = tokens.failure.isSome →
      (Piece.ofTokens source failure none none tags tokens.list).2 = failure := by
  intro tokens
  refine ⟨?decides, fun tag => exists_wholeTag_of_mem, ?sections, fun failure h => ?stops⟩
  case decides =>
    intro front opening body closing hw
    obtain ⟨before, after, hfront, htag, hbefore, hnext, hchange, hextra⟩ := Scanner.decides hw
    refine ⟨before, after, hfront, htag, hchange, hextra, hnext, ?_⟩
    exact (Tokens.places_placed _).2 ⟨front, opening, body, closing, hw, by rw [Token.place, hbefore]⟩
  case sections =>
    intro nodes hc path inverted children raw pair span hw
    obtain ⟨pieces, hr, hn⟩ := compile_eq_ok_iff_nested.1 hc
    obtain ⟨opener, inner, closer, ⟨front, i, j, back, hevents⟩, opens, -, hblock⟩ :=
      hn.block_of_within hw
    have hopener : opener ∈ placed source tags := by
      rw [placed_of_reading hr, ← Piece.tags_events, hevents]
      simp
    obtain ⟨front, opening, body, closing, before, hwhole, hfront, rfl⟩ :=
      exists_wholeTag_of_mem hopener
    simp only [PlacedTag.enclose, Node.block.injEq] at hblock
    obtain ⟨-, -, -, -, rfl, rfl⟩ := hblock
    exact ⟨front, opening, body, closing, before, hwhole, rfl, opens, hfront, rfl⟩
  case stops => exact (Tokens.places_ofTokens source tags 0 source failure h).2

/-- The tag after a change of the pair is recorded with the new pair, which the scanner has there. -/
theorem scan_agrees_twoSections :
    ⟨.parse "/ a ".toList, ⟨35, 43⟩, ⟨['<', '%'], ['%', '>']⟩⟩ ∈ placed twoSections default ∧
      ∃ front opening body closing before,
        Token.WholeTag (Tokens.scan twoSections default).list front opening body closing ∧
          Scanner.Yields twoSections (.start default) front before ∧
          (⟨.parse "/ a ".toList, ⟨35, 43⟩, ⟨['<', '%'], ['%', '>']⟩⟩ : PlacedTag) =
            ⟨.parse body.raw, ⟨opening.start, closing.stop⟩, before.tags⟩ := by
  have hmem : ⟨.parse "/ a ".toList, ⟨35, 43⟩, ⟨['<', '%'], ['%', '>']⟩⟩ ∈
      placed twoSections default :=
    List.mem_of_getElem? (i := 5) (by cbv)
  exact ⟨hmem, (scan_agrees twoSections default).2.1 _ hmem⟩

end Template
end Stencil
