import Stencil.Proofs.Location
import Stencil.Proofs.Template.Agreement

/-!
# Where compilation fails

A source that does not compile has a tag to blame, and the error tells the place where that tag opens:
a tag that cannot be read, a closing tag without a section, or the section that a closing tag should
have named or that is still open at the end.
-/

namespace Stencil

namespace Sections

/-- After these tags the section that a tag has opened is the innermost one open, and every closing
tag among them has matched. -/
structure Innermost (opener : PlacedTag) (tags : List PlacedTag) : Prop where
  matched : (run [] tags).isSome = true
  opens : opener.tag.sigil.opens = true
  closed : ∃ before inner, tags = before ++ opener :: inner ∧ Balanced inner

/-- The tag to blame for sections that do not match, among the tags of a source that has been read to
its end or not. -/
inductive Blames (tags : List PlacedTag) (atEnd : Prop) : PlacedTag → Imbalance → Prop
  | unopened {front back : List PlacedTag} {closer : PlacedTag} (split : tags = front ++ closer :: back)
    (closes : closer.tag.sigil = .close) (noneOpen : Balanced front) : Blames tags atEnd closer .unopened
  | closedBy {front back : List PlacedTag} {opener closer : PlacedTag}
    (split : tags = front ++ closer :: back) (closes : closer.tag.sigil = .close)
    (innermost : Innermost opener front) (other : opener.tag.name ≠ closer.tag.name) :
    Blames tags atEnd opener (.closedBy closer.tag.name)
  | unclosed {opener : PlacedTag} (ended : atEnd) (innermost : Innermost opener tags) :
    Blames tags atEnd opener .unclosed

namespace Blames

variable {tags : List PlacedTag} {atEnd : Prop} {tag : PlacedTag} {imbalance : Imbalance}

/-- The tag to blame is one of the tags. -/
theorem mem (h : Blames tags atEnd tag imbalance) : tag ∈ tags := by
  cases h with
  | unopened split => simp [split]
  | closedBy split _ innermost =>
    obtain ⟨before, inner, rfl, -⟩ := innermost.closed
    simp [split]
  | unclosed _ innermost =>
    obtain ⟨before, inner, rfl, -⟩ := innermost.closed
    simp

/-- What is to blame in some tags is to blame in more of them, unless it is what they leave open. -/
theorem append (h : Blames tags False tag imbalance) (more : List PlacedTag) :
    Blames (tags ++ more) atEnd tag imbalance := by
  cases h with
  | unopened split closes noneOpen =>
    exact .unopened (by rw [split, List.append_assoc, List.cons_append]) closes noneOpen
  | closedBy split closes innermost other =>
    exact .closedBy (by rw [split, List.append_assoc, List.cons_append]) closes innermost other
  | unclosed ended => exact ended.elim

end Blames
end Sections

namespace Builder

variable {source : Text} {b built : Builder source} {events : List Event} {error : Error}

/-- A run fails at one of its events. -/
theorem of_run_error (h : b.run events = .error error) : ∃ front event back reached,
    events = front ++ event :: back ∧ b.run front = .ok reached ∧ reached.step event = .error error := by
  induction events generalizing b with
  | nil => cases h
  | cons event events ih =>
    rw [run_cons] at h
    cases hs : b.step event with
    | error fault =>
      rw [hs] at h
      cases h
      exact ⟨[], event, events, b, rfl, rfl, hs⟩
    | ok next =>
      rw [hs] at h
      obtain ⟨front, other, back, reached, rfl, hr, hstep⟩ := ih h
      refine ⟨event :: front, other, back, reached, rfl, ?_, hstep⟩
      rw [run_cons, hs]
      exact hr

/-- Only a closing tag fails: without a section to close, or with the name of another. -/
theorem of_step_error {event : Event} (h : b.step event = .error error) : ∃ closer indent,
    event = .tag closer indent ∧ closer.tag.sigil = .close ∧
      (b.opened = [] ∧ error = .unbalancedAt source closer.span.start closer.tag.name .unopened ∨
        ∃ innermost outer, b.opened = innermost :: outer ∧
          innermost.placed.tag.name ≠ closer.tag.name ∧
          error = .unbalancedAt source innermost.placed.span.start innermost.placed.tag.name
            (.closedBy closer.tag.name)) := by
  cases event with
  | text t => cases h
  | tag closer indent =>
    cases hs : closer.tag.sigil with
    | close =>
      refine ⟨closer, indent, rfl, hs, ?_⟩
      simp only [step, hs, close] at h
      split at h
      · rename_i ho
        cases h
        exact .inl ⟨ho, rfl⟩
      · rename_i innermost outer ho
        by_cases hn : innermost.placed.tag.name = closer.tag.name
        · simp [hn] at h
        · rw [if_neg hn] at h
          cases h
          exact .inr ⟨innermost, outer, ho, hn, rfl⟩
    | _ => simp [step, hs] at h

theorem balanced_of_nested {nodes : List Node} (h : Nested source events nodes) :
    Sections.Balanced (Event.tags events) :=
  exists_build_iff.1 ⟨nodes, build_eq_ok_iff.2 h⟩

/-- The state of the builder tells which sections are open. -/
theorem opened_of_run (h : (empty source).run events = .ok built) :
    (built.opened = [] → Sections.Balanced (Event.tags events)) ∧
      ∀ innermost outer, built.opened = innermost :: outer →
        Sections.Innermost innermost.placed (Event.tags events) := by
  have hreads : Reads source events built.gathered.reverse built.opened :=
    Reads.run clean_empty (.top .nil) h
  have hmatched : (Sections.run [] (Event.tags events)).isSome = true := by
    have hnames : _ = Sections.run [] (Event.tags events) := run_names (b := empty source) events
    rw [← hnames, h]
    rfl
  constructor
  · intro ho
    rw [ho] at hreads
    cases hreads with
    | top within => exact balanced_of_nested within
  · intro innermost outer ho
    rw [ho] at hreads
    cases hreads with
    | @inside front inner _ _ _ i opens _ within =>
      exact ⟨hmatched, opens, Event.tags front, Event.tags inner, by simp, balanced_of_nested within⟩

/-- A run that fails has a tag to blame for it. -/
theorem blames_of_run (h : (empty source).run events = .error error) : ∃ tag imbalance,
    error = .unbalancedAt source tag.span.start tag.tag.name imbalance ∧
      Sections.Blames (Event.tags events) False tag imbalance := by
  obtain ⟨front, event, back, reached, rfl, hr, hs⟩ := of_run_error h
  obtain ⟨hnone, hsome⟩ := opened_of_run hr
  obtain ⟨closer, indent, rfl, closes, ⟨ho, rfl⟩ | ⟨innermost, outer, ho, other, rfl⟩⟩ :=
    of_step_error hs
  all_goals
    have hsplit : Event.tags (front ++ .tag closer indent :: back) =
        Event.tags front ++ closer :: Event.tags back := by
      simp
  · exact ⟨closer, .unopened, rfl, .unopened hsplit closes (hnone ho)⟩
  · exact ⟨innermost.placed, _, rfl, .closedBy hsplit closes (hsome _ _ ho) other⟩

/-- Sections that are still open at the end have the innermost of them to blame. -/
theorem blames_of_finish {atEnd : Prop} (hr : (empty source).run events = .ok built)
    (h : built.finish = .error error) (ended : atEnd) : ∃ tag imbalance,
    error = .unbalancedAt source tag.span.start tag.tag.name imbalance ∧
      Sections.Blames (Event.tags events) atEnd tag imbalance := by
  unfold finish at h
  split at h
  · cases h
  · rename_i innermost outer ho
    cases h
    exact ⟨innermost.placed, .unclosed, rfl, .unclosed ended ((opened_of_run hr).2 _ _ ho)⟩

end Builder

namespace Tokens

variable {source : Text} {tags : Tags} {front back : List Token} {opening : Token}

/-- After a text that starts the source a tag begins there: the tokens before its opening delimiter
make up the text, and the delimiter is the one that the scanner has in effect then. -/
structure Begins (source : Text) (tags : Tags) (before : Text) (front : List Token) (opening : Token)
    (back : List Token) : Prop where
  list : (scan source tags).list = front ++ opening :: back
  opens : opening.kind = .opening
  text : before = front.flatMap Token.raw
  start : opening.start = before.size
  delimits : ∃ scanner after, Scanner.Yields source (.start tags) front scanner ∧
    source = before ++ (scanner.tags.opening ++ after)

/-- Each opening delimiter begins a tag. -/
theorem begins (list : (scan source tags).list = front ++ opening :: back)
    (opens : opening.kind = .opening) :
    Begins source tags (front.flatMap Token.raw) front opening back := by
  have hpart := Partition.of_scan source tags
  have hstart := hpart.consecutive
  rw [list] at hstart
  obtain ⟨-, hstart, -⟩ := Token.consecutive_append.1 hstart
  obtain ⟨left, hsource, -⟩ := hpart.covers
  obtain ⟨scanner, items, last, hfront, htags, -⟩ := Scanner.reaches list
  refine ⟨list, opens, rfl, by rw [hstart, Nat.zero_add], scanner,
    back.flatMap Token.raw ++ left, hfront, ?_⟩
  rw [htags, ← hpart.openings front opening back list opens]
  rw [list] at hsource
  simpa using hsource

/-- The place of the offset is the place after the text. -/
theorem Begins.place {before : Text} (h : Begins source tags before front opening back) :
    Location.ofOffset source opening.start = .past before := by
  obtain ⟨scanner, after, -, rfl⟩ := h.delimits
  rw [h.start, Location.ofOffset_append]

end Tokens

namespace Template

variable {source : Text} {tags : Tags}

/-- How compilation goes wrong: the scan has failed, or there is a tag to blame for the sections. -/
theorem of_compile_error {error : Error} (h : compile source tags = .error error) :
    (Tokens.scan source tags).failure = some error ∨ ∃ tag imbalance,
      error = .unbalancedAt source tag.span.start tag.tag.name imbalance ∧
        Sections.Blames (placed source tags) ((Tokens.scan source tags).failure = none) tag
          imbalance := by
  have hstop : (Tokens.read source tags 0 source).2 = (Tokens.scan source tags).failure :=
    (Tokens.places_ofTokens source tags 0 source _ rfl).2
  have htags : placed source tags = Event.tags (Piece.events (Tokens.read source tags 0 source).1) :=
    (Piece.tags_events _).symm
  change ofTokens source (Tokens.scan source tags).list (Tokens.scan source tags).failure tags = _ at h
  rw [ofTokens, show Piece.ofTokens source (Tokens.scan source tags).failure none none tags
    (Tokens.scan source tags).list = Tokens.read source tags 0 source from rfl] at h
  rw [htags, ← hstop]
  generalize Tokens.read source tags 0 source = read at *
  obtain ⟨pieces, stop⟩ := read
  simp only at h
  cases hlines : (Builder.empty source).run ((Line.split pieces).1.flatMap Line.events) with
  | error fault =>
    rw [hlines] at h
    cases h
    obtain ⟨tag, imbalance, rfl, hblames⟩ := Builder.blames_of_run hlines
    refine .inr ⟨tag, imbalance, rfl, ?_⟩
    rw [Piece.events, Event.tags_append]
    exact hblames.append _
  | ok built =>
    rw [hlines] at h
    cases stop with
    | some fault =>
      cases h
      exact .inl rfl
    | none =>
      refine .inr ?_
      have hall : (Builder.empty source).run (Piece.events pieces) =
          built.run (Line.events ⟨(Line.split pieces).2, []⟩) := by
        rw [Piece.events, Builder.run_append, hlines]
        rfl
      change (built.run _ >>= fun built => built.finish) = _ at h
      rw [← hall] at h
      cases hrun : (Builder.empty source).run (Piece.events pieces) with
      | error fault =>
        rw [hrun] at h
        cases h
        obtain ⟨tag, imbalance, rfl, hblames⟩ := Builder.blames_of_run hrun
        exact ⟨tag, imbalance, rfl, by simpa using hblames.append []⟩
      | ok built =>
        rw [hrun] at h
        exact Builder.blames_of_finish hrun h rfl

/-- An error of compilation tells where the tag to blame opens. Under a pair that cannot delimit
anything that is the start of the source. -/
theorem compile_error_place {error : Error} (h : compile source tags = .error error) :
    (¬ tags.Valid → error = .malformed (.invalidTags tags) (.past [])) ∧
      (tags.Valid → ∃ before front opening back, Tokens.Begins source tags before front opening back ∧
        ((∃ fault, error = .malformed fault (.past before)) ∨
          ∃ body closing more tag imbalance, back = body :: closing :: more ∧
            tag.tag = .parse body.raw ∧ tag.span = ⟨opening.start, closing.stop⟩ ∧
            error = .unbalanced (Tag.parse body.raw).name imbalance (.past before) ∧
            Sections.Blames (placed source tags) ((Tokens.scan source tags).failure = none) tag
              imbalance)) := by
  have hpart := Tokens.Partition.of_scan source tags
  refine ⟨fun invalid => ?_, fun valid => ?_⟩
  · obtain ⟨hlist, hfailure⟩ := hpart.invalid invalid
    have hnone : placed source tags = [] := by
      refine List.eq_nil_iff_forall_not_mem.2 fun tag hmem => ?_
      obtain ⟨front, opening, body, closing, -, ⟨-, back, hsplit⟩, -⟩ := exists_wholeTag_of_mem hmem
      simp [hlist] at hsplit
    rcases of_compile_error h with hf | ⟨tag, imbalance, -, hblames⟩
    · rw [hfailure] at hf
      cases hf
      exact congrArg _ (Location.ofOffset_append [] source)
    · exact absurd hblames.mem (by simp [hnone])
  · rcases of_compile_error h with hf | ⟨tag, imbalance, rfl, hblames⟩
    · obtain ⟨front, opening, fault, hlist, opens, rfl, -⟩ := hpart.fails valid error hf
      have hbegins := Tokens.begins hlist opens
      exact ⟨_, front, opening, [], hbegins, .inl ⟨fault, hbegins.place ▸ rfl⟩⟩
    · obtain ⟨front, opening, body, closing, before, ⟨opens, back, hlist⟩, -, rfl⟩ :=
        exists_wholeTag_of_mem hblames.mem
      have hbegins := Tokens.begins hlist opens
      refine ⟨_, front, opening, _, hbegins, .inr ⟨body, closing, back, _, imbalance, rfl, rfl, rfl, ?_,
        hblames⟩⟩
      exact congrArg _ hbegins.place

/-- A section with a change of the pair in it, closed by another name on the next line. -/
def misnamed : Text :=
  "é\n{{#b}}{{=<% %>=}}\n<%/ c %>".toList

theorem compile_misnamed : compile misnamed default =
    .error (.unbalanced ['b'] (.closedBy ['c']) ⟨3, 2, 1⟩) := by
  cbv

theorem compile_error_place_misnamed :
    compile misnamed default = .error (.unbalanced ['b'] (.closedBy ['c']) ⟨3, 2, 1⟩) ∧
      ∃ before front opening back, Tokens.Begins misnamed default before front opening back ∧
        ((∃ fault, Error.unbalanced ['b'] (.closedBy ['c']) ⟨3, 2, 1⟩ =
          .malformed fault (.past before)) ∨
          ∃ body closing more tag imbalance, back = body :: closing :: more ∧
            tag.tag = .parse body.raw ∧ tag.span = ⟨opening.start, closing.stop⟩ ∧
            Error.unbalanced ['b'] (.closedBy ['c']) ⟨3, 2, 1⟩ =
              .unbalanced (Tag.parse body.raw).name imbalance (.past before) ∧
            Sections.Blames (placed misnamed default) ((Tokens.scan misnamed default).failure = none)
              tag imbalance) :=
  ⟨compile_misnamed, (compile_error_place compile_misnamed).2 Tags.valid_default⟩

end Template
end Stencil
