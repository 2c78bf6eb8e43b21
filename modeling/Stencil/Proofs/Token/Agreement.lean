import Stencil.Proofs.Tag.Parts
import Stencil.Proofs.Token.Partition

/-!
# What a scan and a body tell of a tag

The scan tells a change of the pair, and a tag that ends with an extra brace, from what is left of the
source; the sigil is read from the body that has been cut out. They agree, and the pair that a scanner
has in effect after a tag is the one that its body tells.
-/

namespace Stencil

namespace Token

variable {closing rest body terminator : Text} {kind : TokenKind}

/-- An ordinary body starts as what is left of the source does, with neither of the two marks. -/
theorem not_marked_of_ordinary {after t : Text} {c : Char}
    (form : ∀ c ∈ rest.trimStart.head?, c ≠ '=' ∧ c ≠ '{')
    (ends : Text.FirstAt closing rest body after) (first : body.trimStart = c :: t) :
    c ≠ '=' ∧ c ≠ '{' := by
  have hrest : rest = body ++ (closing ++ after) := ends.eq
  have htrim : rest.trimStart = c :: (t ++ (closing ++ after)) := by
    rw [hrest, Text.trimStart, List.dropWhile_append]
    rw [Text.trimStart] at first
    simp [first]
  exact form c (by simp [htrim])

/-- A scan takes a tag for a change of the pair just when the body says so. -/
theorem Ends.change_iff (h : Ends closing rest kind body terminator) :
    kind = .change ↔ (Tag.parse body).sigil = .delimiters := by
  rw [Tag.sigil_eq_iff (show Sigil.delimiters.mark = ['='] from rfl)]
  cases h with
  | @change blanks inner names after blank eq ends =>
    exact iff_of_true rfl ⟨_, (Text.leading_blanks blank (by decide) _).2⟩
  | @triple blanks inner name after blank eq ends =>
    refine iff_of_false nofun ?_
    rintro ⟨t, ht⟩
    rw [(Text.leading_blanks blank (show Text.isBlank '{' = false by decide) _).2] at ht
    exact absurd (List.cons.inj ht).1 (by decide)
  | ordinary form ends =>
    refine iff_of_false nofun ?_
    rintro ⟨t, ht⟩
    exact (not_marked_of_ordinary form ends ht).1 rfl

/-- A scan takes the extra brace just when the body opens with one. -/
theorem Ends.extra_iff (h : Ends closing rest kind body terminator) :
    terminator = '}' :: closing ↔ (Tag.parse body).sigil = .triple := by
  rw [Tag.sigil_eq_iff (show Sigil.triple.mark = ['{'] from rfl)]
  have hself : closing ≠ '}' :: closing := (List.cons_ne_self _ _).symm
  cases h with
  | @change blanks inner names after blank eq ends =>
    refine iff_of_false hself ?_
    rintro ⟨t, ht⟩
    rw [(Text.leading_blanks blank (show Text.isBlank '=' = false by decide) _).2] at ht
    exact absurd (List.cons.inj ht).1 (by decide)
  | @triple blanks inner name after blank eq ends =>
    exact iff_of_true rfl ⟨_, (Text.leading_blanks blank (by decide) _).2⟩
  | ordinary form ends =>
    refine iff_of_false hself ?_
    rintro ⟨t, ht⟩
    exact (not_marked_of_ordinary form ends ht).2 rfl

/-- Only a change of the pair can be faulty. -/
theorem ofChange_of_nextTags {tags : Tags} {fault : Fault}
    (h : nextTags kind body tags = .error fault) : Tags.ofChange body = .error fault := by
  unfold nextTags at h
  split at h
  · exact h
  · cases h

/-- Among tokens there are the three of a whole tag, after these. -/
def WholeTag (tokens front : List Token) (opening body closing : Token) : Prop :=
  opening.kind = .opening ∧ ∃ back, tokens = front ++ opening :: body :: closing :: back

end Token

namespace Scanner

open Token

variable {source : Text} {tags last : Tags} {s after : Scanner} {token : Token}

/-- What a scanner does with a token: the tokens of a tag take it through the phases, its body tells
the pair that its closing delimiter puts into effect. -/
inductive Moves : Scanner → Token → Scanner → Prop
  | text {tags : Tags} {offset stop : Nat} {token : Token} {next : Phase} (kind : token.kind = .text)
    (goesOn : next = .text ∨ next = .done) : Moves ⟨tags, offset, .text⟩ token ⟨tags, stop, next⟩
  | opening {tags : Tags} {offset stop : Nat} {token : Token} (kind : token.kind = .opening) :
    Moves ⟨tags, offset, .text⟩ token ⟨tags, stop, .body⟩
  | body {tags next : Tags} {offset stop size : Nat} {token : Token}
    (kind : token.kind = .body ∨ token.kind = .change)
    (changes : nextTags token.kind token.raw tags = .ok next) :
    Moves ⟨tags, offset, .body⟩ token ⟨tags, stop, .closing size next⟩
  | closing {tags next : Tags} {offset stop size : Nat} {token : Token}
    (kind : token.kind = .closing) :
    Moves ⟨tags, offset, .closing size next⟩ token ⟨next, stop, .text⟩

/-- What a scanner answers and what becomes of it: after anything but a token it is done. -/
inductive Reacts (source : Text) : Scanner → Option (Except Error Token) → Scanner → Prop
  | token {s after : Scanner} {token : Token} (moves : Moves s token after) :
    Reacts source s (some (.ok token)) after
  | finished {s : Scanner} : Reacts source s none { s with phase := .done }
  | rejected {s : Scanner} (phase : s.phase = .text) (invalid : ¬ s.tags.Valid) :
    Reacts source s (some (.error (.malformedAt source 0 (.invalidTags s.tags))))
      { s with phase := .done }
  | malformed {s : Scanner} {offset : Nat} {fault : Fault}
    (broken : fault = .unclosedTag ∨ ∃ body, Tags.ofChange body = .error fault) :
    Reacts source s (some (.error (.malformedAt source offset fault))) { s with phase := .done }

section

variable {answer : Option (Except Error Token)}

theorem of_yield {kind : TokenKind} {stop : Nat} {next : Phase}
    (h : s.yield source kind stop next = some (answer, after)) :
    ∃ token, answer = some (.ok token) ∧ token.kind = kind ∧ after = ⟨s.tags, stop, next⟩ := by
  obtain ⟨raw, -, hanswer⟩ := Option.bind_eq_some_iff.1 h
  cases hanswer
  exact ⟨_, rfl, rfl, rfl⟩

theorem kind_of_shape (closing rest : Text) :
    (BodyShape.of closing rest).kind = .body ∨ (BodyShape.of closing rest).kind = .change := by
  unfold BodyShape.of
  split <;> simp

theorem reacts_of_nextText {offset : Nat}
    (h : nextText ⟨tags, offset, .text⟩ source = some (answer, after)) :
    Reacts source ⟨tags, offset, .text⟩ answer after := by
  unfold nextText at h
  split at h
  · cases h
    exact .finished
  · obtain ⟨rest, -, h⟩ := Option.bind_eq_some_iff.1 h
    split at h
    · obtain ⟨token, rfl, hk, rfl⟩ := of_yield h
      exact .token (.text hk (.inr rfl))
    · obtain ⟨token, rfl, hk, rfl⟩ := of_yield h
      exact .token (.opening hk)
    · obtain ⟨token, rfl, hk, rfl⟩ := of_yield h
      exact .token (.text hk (.inl rfl))

theorem reacts_of_nextBody {offset : Nat}
    (h : nextBody ⟨tags, offset, .body⟩ source = some (answer, after)) :
    Reacts source ⟨tags, offset, .body⟩ answer after := by
  obtain ⟨rest, -, h⟩ := Option.bind_eq_some_iff.1 h
  dsimp only at h
  rw [← apply_ite (fun opened => opened >>= _)] at h
  obtain ⟨opened, -, h⟩ := Option.bind_eq_some_iff.1 h
  obtain ⟨searched, -, h⟩ := Option.bind_eq_some_iff.1 h
  split at h
  · cases h
    exact .malformed (.inl rfl)
  · obtain ⟨raw, -, h⟩ := Option.bind_eq_some_iff.1 h
    split at h
    · rename_i fault faulty
      cases h
      exact .malformed (.inr ⟨raw, Token.ofChange_of_nextTags faulty⟩)
    · rename_i next changes
      cases h
      exact .token (.body (kind_of_shape ..) changes)

theorem reacts_of_next (h : s.next source = some (answer, after)) : Reacts source s answer after := by
  obtain ⟨tags, offset, phase⟩ := s
  cases phase with
  | text =>
    simp only [next] at h
    split at h
    · exact reacts_of_nextText h
    · rename_i invalid
      cases h
      exact .rejected rfl invalid
  | body => exact reacts_of_nextBody h
  | closing size next =>
    obtain ⟨token, rfl, hk, rfl⟩ := of_yield h
    exact .token (.closing hk)
  | done =>
    cases h
    exact .finished

theorem moves_of_next (h : s.next source = some (some (.ok token), after)) : Moves s token after := by
  cases reacts_of_next h with
  | token moves => exact moves

end

/-- The scanner answers with these tokens, one by one, and is another one then. -/
inductive Yields (source : Text) : Scanner → List Token → Scanner → Prop
  | none {s : Scanner} : Yields source s [] s
  | token {s after last : Scanner} {token : Token} {tokens : List Token}
    (answers : s.next source = some (some (.ok token), after))
    (more : Yields source after tokens last) : Yields source s (token :: tokens) last

/-- Between the first answers and the others the scanner has a state. -/
theorem Answers.yields {front : List Token} {items : List (Except Error Token)}
    (h : Answers source s (front.map .ok ++ items) last) :
    ∃ after, Yields source s front after ∧ Answers source after items last := by
  induction front generalizing s with
  | nil => exact ⟨s, .none, h⟩
  | cons token front ih =>
    cases h with
    | item answers more =>
      obtain ⟨after, hy, ha⟩ := ih more
      exact ⟨after, .token answers hy, ha⟩

/-- The scanner has this pair in effect, and past the body of a tag knows the pair after it. -/
def Knows (s : Scanner) (now : Tags × Option Text) : Prop :=
  s.tags = now.1 ∧
    match s.phase with
    | .closing _ next => next = now.2.elim now.1 named
    | _ => now.2 = none

theorem Moves.knows {now : Tags × Option Text} (h : Moves s token after) (hk : s.Knows now) :
    after.Knows (effect now token) := by
  obtain ⟨now, pending⟩ := now
  cases h with
  | text kind goesOn =>
    obtain ⟨rfl, rfl⟩ := hk
    rcases goesOn with rfl | rfl <;> simp [Knows, effect, kind]
  | opening kind =>
    obtain ⟨rfl, rfl⟩ := hk
    simp [Knows, effect, kind]
  | body kind changes =>
    obtain ⟨rfl, rfl⟩ := hk
    rcases kind with kind | kind
    · simp only [nextTags, kind, reduceCtorEq, if_false, Except.ok.injEq] at changes
      simp [Knows, effect, kind, changes]
    · simp only [nextTags, kind, if_true] at changes
      simp [Knows, effect, kind, named, changes]
  | closing kind =>
    obtain ⟨rfl, hnext⟩ := hk
    cases pending <;> simpa [Knows, effect, kind] using hnext

theorem Yields.knows {tokens : List Token} {now : Tags × Option Text}
    (h : Yields source s tokens after) (hk : s.Knows now) : after.Knows (tokens.foldl effect now) := by
  induction h generalizing now with
  | none => exact hk
  | token answers _ ih => exact ih ((moves_of_next answers).knows hk)

/-- A tag leaves the scanner with the pair that its body tells. -/
theorem Yields.nextTags_of_tag {opening body closing : Token}
    (h : Yields source s [opening, body, closing] after) (opens : opening.kind = .opening) :
    nextTags body.kind body.raw s.tags = .ok after.tags := by
  obtain - | ⟨ho, h⟩ := h
  obtain - | ⟨hb, h⟩ := h
  obtain - | ⟨hc, h⟩ := h
  cases h
  cases moves_of_next ho with
  | text kind => simp [kind] at opens
  | body kind => simp [opens] at kind
  | closing kind => simp [kind] at opens
  | opening =>
    cases moves_of_next hb with
    | body kind changes =>
      cases moves_of_next hc with
      | closing => exact changes

/-- How a scanner comes past the first tokens of a scan. -/
theorem reaches {front back : List Token} (list : (Tokens.scan source tags).list = front ++ back) :
    ∃ reached items last, Yields source (.start tags) front reached ∧
      reached.tags = inEffect tags front ∧ Answers source reached (back.map .ok ++ items) last := by
  have hanswers := @Scanner.answers_scanFrom source tags [] source rfl
  have hitems : (Tokens.scanFrom source tags (Text.size []) source).items =
      front.map .ok ++ (back.map .ok ++
        (Tokens.scan source tags).failure.toList.map .error) := by
    change (Tokens.scan source tags).items = _
    simp [Tokens.items, list]
  rw [hitems] at hanswers
  obtain ⟨reached, hfront, hrest⟩ := hanswers.yields
  have hstart : (Scanner.start tags).Knows (tags, none) := ⟨rfl, rfl⟩
  exact ⟨reached, _, _, hfront, (hfront.knows hstart).1, hrest⟩

/-- How a scanner comes to a tag and what it decides there. -/
theorem decides {front : List Token} {opening body closing : Token}
    (h : WholeTag (Tokens.scan source tags).list front opening body closing) :
    ∃ before after, Yields source (.start tags) front before ∧
      Yields source before [opening, body, closing] after ∧ before.tags = inEffect tags front ∧
      nextTags body.kind body.raw before.tags = .ok after.tags ∧
      (body.kind = .change ↔ (Tag.parse body.raw).sigil = .delimiters) ∧
      (closing.raw = '}' :: before.tags.closing ↔ (Tag.parse body.raw).sigil = .triple) := by
  obtain ⟨opens, back, hlist⟩ := h
  obtain ⟨before, items, last, hfront, hbefore, hrest⟩ := reaches hlist
  have hsplit : (opening :: body :: closing :: back).map Except.ok ++ items =
      [opening, body, closing].map Except.ok ++ (back.map Except.ok ++ items) := by simp
  rw [hsplit] at hrest
  obtain ⟨after, htag, -⟩ := hrest.yields
  have hends := (Tokens.Partition.of_scan source tags).ends front opening body closing back hlist opens
  rw [← hbefore] at hends
  exact ⟨before, after, hfront, htag, hbefore, htag.nextTags_of_tag opens, hends.change_iff,
    hends.extra_iff⟩

end Scanner
end Stencil
