import Stencil.Proofs.Indent.Padding
import Stencil.Proofs.Template.Append

/-!
# Reading a padded source

A padded source is read in the same tags as the source itself. The names in them are padded too,
where a line starts in them, and on each line that is not empty the padding comes first.
-/

namespace Stencil

variable {padding after : Text} (blank : Line.isBlank padding = true)

namespace Text

variable {t : Text}

theorem getLast?_pad_eq_iff {c : Char} (hc : isBlank c = false) (blank : Line.isBlank padding = true) :
    (Indent.pad padding after t).getLast? = some c ↔ t.getLast? = some c := by
  rcases List.eq_nil_or_concat t with rfl | ⟨s, d, rfl⟩
  · rfl
  · rw [List.concat_eq_append, Indent.pad_append]
    by_cases hd : d = '\n'
    · subst hd
      have hblank := Indent.all_isBlank_feed_lead blank after
      have hfeed : '\n' ≠ c := by
        rintro rfl
        exact absurd hc (by decide)
      rw [Indent.pad_feed, Indent.pad_nil, List.append_nil, List.nil_append]
      refine iff_of_false (fun h => ?_) (by simpa using hfeed)
      obtain ⟨front, last, hlast⟩ :=
        (List.eq_nil_or_concat ('\n' :: Indent.lead padding after)).resolve_left (by simp)
      rw [hlast, List.concat_eq_append, ← List.append_assoc, List.getLast?_concat] at h
      obtain rfl : last = c := Option.some.inj h
      have := List.all_eq_true.1 hblank last (by simp [hlast])
      simp [hc] at this
    · simp [Indent.pad_cons hd]

end Text

namespace Tag

include blank

theorem exists_dropEquals_pad (t : Text) : ∃ other,
    dropEquals (Indent.pad padding after t) = Indent.pad padding other (dropEquals t) := by
  have hlast := @Text.getLast?_pad_eq_iff padding after t '=' (by decide) blank
  unfold dropEquals
  by_cases h : t.getLast? = some '='
  · rw [if_pos (hlast.2 h), if_pos h]
    obtain ⟨s, rfl⟩ := List.getLast?_eq_some_iff.1 h
    refine ⟨'=' :: after, ?_⟩
    rw [Indent.pad_append, Indent.pad_cons (by decide), Indent.pad_nil, List.dropLast_concat,
      List.dropLast_concat]
    rfl
  · rw [if_neg fun hpad => h (hlast.1 hpad), if_neg h]
    exact ⟨after, rfl⟩

omit blank in
theorem splitSigil_pad {t : Text} (h : ∀ c ∈ t.head?, Text.isBlank c = false) :
    splitSigil (Indent.pad padding after t) =
      ((splitSigil t).1, Indent.pad padding after (splitSigil t).2) := by
  cases t with
  | nil => rfl
  | cons c t =>
    have hc : c ≠ '\n' := by
      rintro rfl
      exact absurd (h _ rfl) (by decide)
    rw [Indent.pad_cons hc, splitSigil, splitSigil]
    cases Sigil.ofChar? c with
    | some sigil => rfl
    | none => rw [Indent.pad_cons hc]

/-- A padded body asks for the same, under a padded name. -/
theorem parse_pad (after body : Text) :
    (parse (Indent.pad padding after body)).sigil = (parse body).sigil ∧
      (parse (Indent.pad padding after body)).name = Indent.pad padding [] (parse body).name := by
  have hhead : ∀ c ∈ body.trimStart.head?, Text.isBlank c = false := by
    intro c hc
    obtain ⟨u, hu⟩ := List.head?_eq_some_iff.1 (Option.mem_def.1 hc)
    exact Text.isBlank_of_trimStart hu
  have hsplit := @splitSigil_pad padding after _ hhead
  simp only [parse, (Indent.trimStart_pad blank).1, hsplit]
  refine ⟨trivial, ?_⟩
  split
  · obtain ⟨other, hother⟩ := exists_dropEquals_pad blank (splitSigil body.trimStart).2
    rw [hother, Indent.trim_pad blank]
  · rw [Indent.trim_pad blank]

end Tag

namespace Tags

include blank

theorem changeNames?_pad (body : Text) : changeNames? (Indent.pad padding after body) =
    (changeNames? body).map (Indent.pad padding ['=']) := by
  unfold changeNames?
  rw [Indent.trim_pad blank]
  cases body.trim with
  | nil => rfl
  | cons c t =>
    by_cases hc : c = '='
    · subst hc
      rw [Indent.pad_cons (by decide)]
      have hlast := @Text.getLast?_pad_eq_iff padding [] t '=' (by decide) blank
      by_cases h : t.getLast? = some '='
      · obtain ⟨s, rfl⟩ := List.getLast?_eq_some_iff.1 h
        have hpad : Indent.pad padding [] (s ++ ['=']) = Indent.pad padding ['='] s ++ ['='] := by
          rw [Indent.pad_append, Indent.pad_cons (by decide)]
          rfl
        simp [hpad]
      · simp [h, hlast]
    · simp [Indent.pad, hc]

theorem ofChange_pad {body : Text} {next : Tags} :
    ofChange (Indent.pad padding after body) = .ok next ↔ ofChange body = .ok next := by
  unfold ofChange
  rw [changeNames?_pad blank]
  cases changeNames? body with
  | none => simp
  | some names =>
    simp only [Option.map_some, Indent.words_pad blank]
    split <;> simp

end Tags

include blank

/-- A padded change names the same pair. -/
theorem Token.nextTags_pad (after : Text) {kind : TokenKind} {body : Text} {tags next : Tags} :
    Token.nextTags kind (Indent.pad padding after body) tags = .ok next ↔
      Token.nextTags kind body tags = .ok next := by
  unfold nextTags
  split
  · exact Tags.ofChange_pad blank
  · rfl

/-- A tag of a padded text ends where it did. -/
theorem Token.Inside.read?_pad {closing rest : Text} (side : Tags.IsSide closing) :
    read? closing (Indent.pad padding after rest) = (read? closing rest).map fun found =>
      ⟨found.kind, Indent.pad padding (found.closing ++ (found.rest ++ after)) found.body,
        found.closing, Indent.pad padding after found.rest⟩ := by
  obtain ⟨htrim, hlead⟩ := @Indent.trimStart_pad padding after rest blank
  have hsides : ∀ {c : Char}, Text.isBlank c = false → Tags.IsSide (c :: closing) := by
    intro c hc
    refine ⟨by simp, ?_⟩
    simpa [hc] using side.2
  by_cases hequals : ∃ t, rest.trimStart = '=' :: t
  · obtain ⟨t, ht⟩ := hequals
    rw [ht, Indent.pad_cons (by decide)] at htrim
    rw [ht] at hlead
    rw [read?_of_equals ht, read?_of_equals htrim, Indent.breakAt?_pad blank (hsides (by decide)), hlead]
    cases hb : Text.breakAt? ('=' :: closing) t with
    | none => rfl
    | some cut =>
      have hcut := Text.eq_append_of_breakAt? hb
      simp [Indent.pad_append, Indent.pad_cons, hcut]
  by_cases hbrace : ∃ t, rest.trimStart = '{' :: t
  · obtain ⟨t, ht⟩ := hbrace
    rw [ht, Indent.pad_cons (by decide)] at htrim
    rw [ht] at hlead
    rw [read?_of_brace ht, read?_of_brace htrim, Indent.breakAt?_pad blank (hsides (by decide)), hlead]
    cases hb : Text.breakAt? ('}' :: closing) t with
    | none => rfl
    | some cut =>
      have hcut := Text.eq_append_of_breakAt? hb
      simp [Indent.pad_append, Indent.pad_cons, hcut]
  · have hplain : ∀ c, (∀ t, rest.trimStart ≠ c :: t) →
        ∀ t, Text.trimStart (Indent.pad padding after rest) ≠ c :: t := by
      intro c h t
      rw [htrim]
      cases hs : rest.trimStart with
      | nil => simp
      | cons d u =>
        rintro hpad
        exact h u (by rw [hs, (List.cons.inj hpad).1])
    rw [read?_of_plain (not_exists.1 hequals) (not_exists.1 hbrace),
      read?_of_plain (hplain _ (not_exists.1 hequals)) (hplain _ (not_exists.1 hbrace)),
      Indent.breakAt?_pad blank side]
    cases Text.breakAt? closing rest with
    | none => rfl
    | some cut => rfl

omit blank

/-- The same tag in a padded source. -/
structure PlacedTag.Padded (padding : Text) (placed padded : PlacedTag) : Prop where
  sigil : padded.tag.sigil = placed.tag.sigil
  name : padded.tag.name = (Indent.mk padding false).apply placed.tag.name
  tags : padded.tags = placed.tags

/-- Pieces of a padded source beside those of the source; `fresh` says that they start a line which
is to be padded unless it is empty. -/
inductive Piece.Padded (padding : Text) : (fresh : Bool) → List Piece → List Piece → Prop
  | nil {fresh : Bool} : Padded padding fresh [] []
  | lineEnd {fresh : Bool} {pieces padded : List Piece} (terminator : Text)
    (more : Padded padding true pieces padded) :
    Padded padding fresh (.lineEnd terminator :: pieces) (.lineEnd terminator :: padded)
  /-- A carriage return alone on the last line. -/
  | lastReturn : Padded padding true [.item (.text ['\r'])] [.item (.text ['\r'])]
  | text {pieces padded : List Piece} (t : Text) (more : Padded padding false pieces padded) :
    Padded padding false (.item (.text t) :: pieces) (.item (.text t) :: padded)
  | tag {pieces padded : List Piece} {placed again : PlacedTag}
    (same : PlacedTag.Padded padding placed again) (more : Padded padding false pieces padded) :
    Padded padding false (.item (.tag placed) :: pieces) (.item (.tag again) :: padded)
  | freshText {pieces padded : List Piece} (t : Text) (more : Padded padding false pieces padded) :
    Padded padding true (.item (.text t) :: pieces) (.item (.text (padding ++ t)) :: padded)
  | freshTag {pieces padded : List Piece} {placed again : PlacedTag}
    (same : PlacedTag.Padded padding placed again) (more : Padded padding false pieces padded) :
    Padded padding true (.item (.tag placed) :: pieces)
      (.item (.text padding) :: .item (.tag again) :: padded)

namespace Piece

theorem Padded.consChar {pieces padded : List Piece} (c : Char)
    (h : Padded padding false pieces padded) :
    Padded padding false (Piece.consChar c pieces) (Piece.consChar c padded) := by
  cases h with
  | nil => exact .text [c] .nil
  | lineEnd terminator more => exact .text [c] (.lineEnd terminator more)
  | text t more => exact .text (c :: t) more
  | tag same more => exact .text [c] (.tag same more)

/-- What may follow a text that is cut into pieces: nothing, or a tag. -/
inductive Tail (padding : Text) : Text → List Piece → List Piece → Prop
  | nil : Tail padding [] [] []
  | tag {d : Char} {after : Text} {pieces padded : List Piece} {placed again : PlacedTag}
    (solid : Text.isBlank d = false) (same : PlacedTag.Padded padding placed again)
    (more : Padded padding false pieces padded) :
    Tail padding (d :: after) (.item (.tag placed) :: pieces) (.item (.tag again) :: padded)

variable {t : Text} {pieces others : List Piece}

theorem Tail.padded (h : Tail padding after pieces others) : Padded padding false pieces others := by
  cases h with
  | nil => exact .nil
  | tag solid same more => exact .tag same more

theorem consChar_append_tail (h : Tail padding after pieces others) (c : Char)
    (front : List Piece) : consChar c (front ++ pieces) = consChar c front ++ pieces ∧
      consChar c (front ++ others) = consChar c front ++ others := by
  cases front with
  | nil => cases h <;> exact ⟨rfl, rfl⟩
  | cons piece front => exact ⟨consChar_append (by simp) _, consChar_append (by simp) _⟩

theorem exists_consChar (c : Char) (pieces : List Piece) :
    ∃ t more, consChar c pieces = .item (.text t) :: more := by
  unfold consChar
  split
  · exact ⟨_, _, rfl⟩
  · exact ⟨_, _, rfl⟩

/-- Blanks in front of a text join its first run. -/
theorem ofText_blanks_append (blank : Line.isBlank padding = true) (t : Text) :
    ofText (padding ++ t) = padding.foldr consChar (ofText t) := by
  induction padding with
  | nil => rfl
  | cons c padding ih =>
    obtain ⟨-, hfeed, hreturn, -⟩ := Line.of_mem_blank blank (List.mem_cons_self ..)
    have hrest : Line.isBlank padding = true := by
      rw [Line.isBlank, List.all_cons, Bool.and_eq_true] at blank
      exact blank.2
    rw [List.cons_append, ofText_cons hfeed (fun h => absurd h hreturn), ih hrest, List.foldr_cons]

theorem foldr_consChar_text (front t : Text) (more : List Piece) :
    front.foldr consChar (.item (.text t) :: more) = .item (.text (front ++ t)) :: more := by
  induction front with
  | nil => rfl
  | cons c front ih => rw [List.foldr_cons, ih]; rfl

theorem foldr_consChar_tag {front : Text} (ne_nil : front ≠ []) (placed : PlacedTag)
    (more : List Piece) : front.foldr consChar (.item (.tag placed) :: more) =
      .item (.text front) :: .item (.tag placed) :: more := by
  induction front with
  | nil => exact absurd rfl ne_nil
  | cons c front ih =>
    cases front with
    | nil => rfl
    | cons d front => rw [List.foldr_cons, ih (by simp)]; rfl

/-- A line that is not empty starts with text or with a tag. -/
theorem startsEmpty_of_lineEnd (tail : Tail padding after pieces others)
    (h : ofText t ++ pieces = [] ∨ ∃ terminator more, ofText t ++ pieces = .lineEnd terminator :: more) :
    Indent.startsEmpty (t ++ after) = true := by
  cases t with
  | nil =>
    cases tail with
    | nil => rfl
    | tag solid same more => simp [ofText] at h
  | cons c t =>
    by_cases hfeed : c = '\n'
    · subst hfeed
      rfl
    · rw [List.cons_append, Indent.startsEmpty_cons hfeed]
      by_cases hwhole : c = '\r' → t.head? ≠ some '\n'
      · obtain ⟨u, more, hcons⟩ := exists_consChar c (ofText t)
        rw [ofText_cons hfeed hwhole, hcons] at h
        simp at h
      · rw [Classical.not_imp, not_not] at hwhole
        simp [hwhole.1, List.head?_append, hwhole.2]

theorem Padded.of_lineEnd {fresh other : Bool} {terminator : Text} {more back : List Piece}
    (h : Padded padding fresh (.lineEnd terminator :: more) back) :
    Padded padding other (.lineEnd terminator :: more) back := by
  cases h with
  | lineEnd _ more => exact .lineEnd _ more

/-- An empty line is not padded. -/
theorem Padded.of_startsEmpty (tail : Tail padding after pieces others)
    (empty : Indent.startsEmpty (t ++ after) = true)
    (h : Padded padding false (ofText t ++ pieces) (ofText (Indent.pad padding after t) ++ others)) :
    Padded padding true (ofText t ++ pieces) (ofText (Indent.pad padding after t) ++ others) := by
  have hsolid : ∀ d ∈ after.head?, d ≠ '\n' ∧ d ≠ '\r' := by
    intro d hd
    cases tail with
    | nil => cases hd
    | tag solid same more =>
      cases hd
      constructor <;> rintro rfl <;> exact absurd solid (by decide)
  cases t with
  | nil =>
    cases tail with
    | nil => exact .nil
    | tag solid same more =>
      obtain ⟨hfeed, hreturn⟩ := hsolid _ rfl
      rw [List.nil_append, Indent.startsEmpty_cons hfeed] at empty
      simp [hreturn] at empty
  | cons c t =>
    by_cases hfeed : c = '\n'
    · subst hfeed
      exact h.of_lineEnd
    · rw [List.cons_append, Indent.startsEmpty_cons hfeed] at empty
      simp only [Bool.and_eq_true, Bool.or_eq_true, decide_eq_true_eq] at empty
      obtain ⟨rfl, hrest⟩ := empty
      cases t with
      | cons d t =>
        obtain rfl : d = '\n' := by simpa using hrest
        exact h.of_lineEnd
      | nil =>
        cases tail with
        | nil => exact .lastReturn
        | tag solid same more =>
          obtain ⟨hd, -⟩ := hsolid _ rfl
          simp [hd] at hrest

/-- The pieces of a text that starts a line, once those of a text that does not are known. -/
theorem Padded.fresh (blank : Line.isBlank padding = true) (ne_nil : padding ≠ [])
    (tail : Tail padding after pieces others)
    (h : Padded padding false (ofText t ++ pieces) (ofText (Indent.pad padding after t) ++ others)) :
    Padded padding true (ofText t ++ pieces)
      (ofText (Indent.lead padding (t ++ after) ++ Indent.pad padding after t) ++ others) := by
  by_cases empty : Indent.startsEmpty (t ++ after) = true
  · rw [Indent.lead, if_pos empty]
    exact h.of_startsEmpty tail empty
  · have happend : ∀ front : Text,
        front.foldr Piece.consChar (ofText (Indent.pad padding after t)) ++ others =
          front.foldr Piece.consChar (ofText (Indent.pad padding after t) ++ others) := by
      intro front
      induction front with
      | nil => rfl
      | cons c front ih =>
        rw [List.foldr_cons, List.foldr_cons, ← ih, (consChar_append_tail tail c _).2]
    have hends := mt (startsEmpty_of_lineEnd tail) empty
    rw [not_or] at hends
    rw [Indent.lead, if_neg empty, ofText_blanks_append blank, happend]
    generalize ofText t ++ pieces = front at h hends
    generalize ofText (Indent.pad padding after t) ++ others = back at h
    cases h with
    | nil => exact absurd rfl hends.1
    | lineEnd terminator more => exact absurd ⟨_, _, rfl⟩ hends.2
    | text t more =>
      rw [foldr_consChar_text]
      exact .freshText t more
    | tag same more =>
      rw [foldr_consChar_tag ne_nil]
      exact .freshTag same more

theorem padded_ofText (blank : Line.isBlank padding = true) (ne_nil : padding ≠ [])
    (tail : Tail padding after pieces others) :
    Padded padding false (ofText t ++ pieces)
      (ofText (Indent.pad padding after t) ++ others) := by
  fun_induction ofText t with
  | case1 => exact tail.padded
  | case2 t ih => exact .lineEnd _ (.fresh blank ne_nil tail ih)
  | case3 t ih => exact .lineEnd _ (.fresh blank ne_nil tail ih)
  | case4 c t whole no_feed ih =>
    have hc : c ≠ '\n' := fun h => no_feed h
    have hwhole : c = '\r' → (Indent.pad padding after t).head? ≠ some '\n' := by
      rintro rfl hd
      cases t with
      | nil => simp at hd
      | cons d t => exact whole t rfl (by simpa [Indent.pad] using hd)
    obtain ⟨hpieces, -⟩ := consChar_append_tail tail c (ofText t)
    obtain ⟨-, hpadded⟩ := consChar_append_tail tail c (ofText (Indent.pad padding after t))
    rw [Indent.pad_cons hc, ofText_cons hc hwhole, ← hpieces, ← hpadded]
    exact ih.consChar c

end Piece

section

variable (blank : Line.isBlank padding = true)
include blank

/-- Delimiters are met in a padded text where they were. -/
theorem Indent.breakAt?_apply {mark : Text} (side : Tags.IsSide mark) (first : Bool) (t : Text) :
    Text.breakAt? mark ((Indent.mk padding first).apply t) =
      (Text.breakAt? mark t).map fun (front, back) =>
        ((if first then lead padding t else []) ++ pad padding (mark ++ back) front,
          (Indent.mk padding false).apply back) := by
  have hlead : (if first then lead padding t else []).all Text.isBlank = true := by
    cases first with
    | false => rfl
    | true => exact all_isBlank_lead blank t
  rw [apply_eq_pad, side.breakAt?_blanks hlead, breakAt?_pad blank side, Option.map_map]
  refine congrArg (Option.map · _) (funext fun cut => ?_)
  simp [apply_rest]

/-- A tag of a padded source ends where it did. -/
theorem Token.Inside.read?_apply {closing : Text} (side : Tags.IsSide closing) (rest : Text) :
    read? closing ((Indent.mk padding false).apply rest) = (read? closing rest).map fun found =>
      ⟨found.kind, Indent.pad padding (found.closing ++ found.rest) found.body, found.closing,
        (Indent.mk padding false).apply found.rest⟩ := by
  rw [Indent.apply_rest, read?_pad blank side]
  refine congrArg (Option.map · _) (funext fun found => ?_)
  rw [List.append_nil, Indent.apply_rest]

variable {tags : Tags} {n : Nat} {t : Text} {pieces : List Piece} (ne_nil : padding ≠ [])
include ne_nil

theorem Piece.padded_first {others : List Piece} (tail : Tail padding after pieces others)
    (first : Bool) (t : Text) : Padded padding first (ofText t ++ pieces)
      (ofText ((if first then Indent.lead padding (t ++ after) else []) ++
        Indent.pad padding after t) ++ others) := by
  have h := @padded_ofText padding after t _ _ blank ne_nil tail
  cases first with
  | false => exact h
  | true => exact .fresh blank ne_nil tail h

/-- A padded text is read in padded pieces, from wherever it starts. -/
theorem Reading.padded (h : Reading tags n t pieces) (first : Bool) (m : Nat) :
    ∃ others, Reading tags m ((Indent.mk padding first).apply t) others ∧
      Piece.Padded padding first pieces others := by
  induction h generalizing first m with
  | @text tags start rest valid no_opening =>
    refine ⟨_, .text valid ?_, ?_⟩
    · rw [Indent.breakAt?_apply blank valid.1, no_opening]
      rfl
    · have h := Piece.padded_first blank ne_nil .nil first rest
      rw [Indent.apply_eq_pad]
      simpa using h
  | @tag tags next start rest before inside found pieces valid opens reads changes after ih =>
    have hopens := Indent.breakAt?_apply blank valid.1 first rest
    have hreads := Token.Inside.read?_apply blank valid.2 inside
    rw [opens] at hopens
    rw [reads] at hreads
    have hchanges := (Token.nextTags_pad blank (found.closing ++ found.rest)).2 changes
    obtain ⟨others, hmore, hpadded⟩ := ih false _
    refine ⟨_, .tag valid hopens hreads hchanges hmore, ?_⟩
    have hparse := Tag.parse_pad blank (found.closing ++ found.rest) found.body
    have same : ∀ one other, PlacedTag.Padded padding ⟨.parse found.body, one, tags⟩
        ⟨.parse (Indent.pad padding (found.closing ++ found.rest) found.body), other, tags⟩ :=
      fun _ _ => ⟨hparse.1, by rw [Indent.apply_rest, ← hparse.2], rfl⟩
    have hrest := Text.eq_append_of_breakAt? opens
    obtain ⟨d, side, hside⟩ := List.exists_cons_of_ne_nil valid.opening_ne_nil
    have hd : Text.isBlank d = false := valid.1.2 d (by simp [hside])
    rw [hrest, hside, List.cons_append]
    exact Piece.padded_first blank ne_nil (.tag hd (same _ _) hpadded) first before

omit ne_nil in
/-- A padded text is only read if the text is. -/
theorem Reading.of_padded {first : Bool} {m : Nat} {others : List Piece}
    (h : Reading tags m ((Indent.mk padding first).apply t) others) (n : Nat) :
    ∃ pieces, Reading tags n t pieces := by
  generalize hs : (Indent.mk padding first).apply t = s at h
  induction h generalizing first t n with
  | text valid no_opening =>
    rw [← hs, Indent.breakAt?_apply blank valid.1, Option.map_eq_none_iff] at no_opening
    exact ⟨_, .text valid no_opening⟩
  | tag valid opens reads changes after ih =>
    rw [← hs, Indent.breakAt?_apply blank valid.1] at opens
    obtain ⟨⟨before, inside⟩, hopens, hcut⟩ := Option.map_eq_some_iff.1 opens
    cases hcut
    rw [Token.Inside.read?_apply blank valid.2] at reads
    obtain ⟨found, hreads, rfl⟩ := Option.map_eq_some_iff.1 reads
    have hchanges := (Token.nextTags_pad blank _).1 changes
    obtain ⟨pieces, hmore⟩ := ih _ rfl
    exact ⟨_, .tag valid hopens hreads hchanges hmore⟩

end
end Stencil
