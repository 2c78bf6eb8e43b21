import Stencil.Tags.Change

/-!
# Tokens

A template is cut into runs of text and tags, and a tag into its opening delimiter, its body and its
closing delimiter. Delimiters are matched literally. The only body that the scan reads is one that
changes the pair, because the new pair says where the next tag starts. What a tag asks for is not
decided here.
-/

namespace Stencil

inductive TokenKind
  | text
  | opening
  | body
  /-- The body of a tag that changes the pair. -/
  | change
  /-- The closing delimiter, with the extra brace that ends a triple tag. -/
  | closing
  deriving DecidableEq, Repr

/-- A slice of a source that starts at a byte offset. -/
structure Token where
  kind : TokenKind
  raw : Text
  start : Nat
  deriving DecidableEq, Repr

namespace Token

def stop (token : Token) : Nat :=
  token.start + token.raw.size

/-- Whether a line starts after a text. -/
def endsLine (before : Text) : Bool :=
  match before.getLast? with
  | none => true
  | some c => c = '\n'

/-- Whether the token is the first of its line. -/
def startsLine (source : Text) (token : Token) : Bool :=
  endsLine (source.takeBytes token.start)

/-- For tokens that follow each other in a source, whether each is the first of its line; `first` is
the answer for the first of them. -/
def lineStarts (first : Bool) : List Token → List Bool
  | [] => []
  | token :: tokens =>
    first :: lineStarts (if token.raw.isEmpty then first else endsLine token.raw) tokens

theorem endsLine_append (before t : Text) :
    endsLine (before ++ t) = if t.isEmpty then endsLine before else endsLine t := by
  cases t with
  | nil => simp
  | cons c t => simp [endsLine, List.getLast?_append, List.getLast?_cons]

/-- Whether tokens start one after the other from a byte offset on. -/
def Consecutive : (start : Nat) → List Token → Prop
  | _, [] => True
  | start, token :: tokens => token.start = start ∧ Consecutive token.stop tokens

theorem lineStarts_eq_map (before rest : Text) {tokens : List Token}
    (h : Consecutive before.size tokens) :
    lineStarts (endsLine before) tokens =
      tokens.map (startsLine (before ++ tokens.flatMap raw ++ rest)) := by
  induction tokens generalizing before with
  | nil => rfl
  | cons token tokens ih =>
    have hstop : token.stop = (before ++ token.raw).size := by
      rw [stop, h.1, Text.size_append]
    have hrest := ih (before ++ token.raw) (hstop ▸ h.2)
    rw [lineStarts, ← endsLine_append, hrest]
    simp [startsLine, h.1, List.append_assoc]

/-- What follows an opening delimiter, up to the end of the tag. -/
structure Inside where
  kind : TokenKind
  body : Text
  closing : Text
  rest : Text

/-- Reads a tag after its opening delimiter. The first character that is not blank decides what ends
the body: an equals sign asks for another one, which stays in the body, and an opening brace for a
closing brace, which does not. -/
def Inside.read? (closing rest : Text) : Option Inside :=
  match rest.trimStart with
  | '=' :: t =>
    (Text.breakAt? ('=' :: closing) t).map fun (body, after) =>
      ⟨.change, rest.leading ++ '=' :: body ++ ['='], closing, after⟩
  | '{' :: t =>
    (Text.breakAt? ('}' :: closing) t).map fun (body, after) =>
      ⟨.body, rest.leading ++ '{' :: body, '}' :: closing, after⟩
  | _ =>
    (Text.breakAt? closing rest).map fun (body, after) => ⟨.body, body, closing, after⟩

theorem Inside.append_of_read? {closing rest : Text} {tag : Inside}
    (h : Inside.read? closing rest = some tag) : rest = tag.body ++ (tag.closing ++ tag.rest) := by
  have hs := Text.leading_append_trimStart rest
  simp only [Inside.read?] at h
  split at h
  all_goals
    obtain ⟨⟨body, after⟩, hb, rfl⟩ := Option.map_eq_some_iff.1 h
    have hr := Text.eq_append_of_breakAt? hb
  · rename_i t ht
    rw [ht, hr] at hs
    simpa using hs.symm
  · rename_i t ht
    rw [ht, hr] at hs
    simpa using hs.symm
  · exact hr

theorem Inside.length_le_of_read? {closing rest : Text} {tag : Inside}
    (h : Inside.read? closing rest = some tag) : tag.rest.length ≤ rest.length := by
  have := congrArg List.length (Inside.append_of_read? h)
  simp only [List.length_append] at this
  omega

/-- The pair in effect after a tag whose body is of this kind. -/
def nextTags (kind : TokenKind) (body : Text) (tags : Tags) : Except Fault Tags :=
  if kind = .change then Tags.ofChange body else .ok tags

/-- A run of text, unless it is empty. -/
def run (start : Nat) (raw : Text) : List Token :=
  if raw.isEmpty then [] else [⟨.text, raw, start⟩]

end Token

/-- What a scan yields: tokens in order, the failure that ended it, if any, and the pair in effect
then. -/
structure Tokens where
  list : List Token
  failure : Option Error
  tags : Tags
  deriving DecidableEq, Repr

namespace Tokens

def prepend (front : List Token) (tokens : Tokens) : Tokens :=
  { tokens with list := front ++ tokens.list }

/-- Scans what is left of a source from a byte offset on. -/
def scanFrom (source : Text) (tags : Tags) (start : Nat) (rest : Text) : Tokens :=
  if _valid : tags.Valid then
    match _hb : Text.breakAt? tags.opening rest with
    | none => ⟨Token.run start rest, none, tags⟩
    | some (before, inside) =>
      let opening : Token := ⟨.opening, tags.opening, start + before.size⟩
      let front := Token.run start before ++ [opening]
      match _ht : Token.Inside.read? tags.closing inside with
      | none => ⟨front, some (.malformedAt source opening.start .unclosedTag), tags⟩
      | some tag =>
        match Token.nextTags tag.kind tag.body tags with
        | .error fault => ⟨front, some (.malformedAt source opening.start fault), tags⟩
        | .ok next =>
          let body : Token := ⟨tag.kind, tag.body, opening.stop⟩
          let closing : Token := ⟨.closing, tag.closing, body.stop⟩
          (scanFrom source next closing.stop tag.rest).prepend (front ++ [body, closing])
  else ⟨[], some (.malformedAt source 0 (.invalidTags tags)), tags⟩
termination_by rest.length
decreasing_by
  have := Text.length_lt_of_breakAt? _valid.opening_ne_nil _hb
  have := Token.Inside.length_le_of_read? _ht
  omega

/-- Scans a source that starts under the given pair. -/
def scan (source : Text) (tags : Tags) : Tokens :=
  scanFrom source tags 0 source

end Tokens
end Stencil
