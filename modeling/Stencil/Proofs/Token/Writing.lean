import Mathlib.Data.List.Basic
import Mathlib.Data.List.TakeWhile
import Stencil.Proofs.Tags.Change
import Stencil.Proofs.Token.Scan

/-!
# Writing a source

A source that is written tag by tag, each under the pair in effect there, is scanned into what was
written. The scan looks for the form of a tag past the tag's end, so there is one exception: where a
body is blank, the closing delimiter decides the form, and one that begins with an equals sign or an
opening brace is taken for the front of another tag.
-/

namespace Stencil

namespace Text

theorem trimStart_append (s t : Text) :
    trimStart (s ++ t) = if (trimStart s).isEmpty then trimStart t else trimStart s ++ t :=
  List.dropWhile_append

end Text

/-- A tag as it is written between its delimiters. -/
inductive WrittenTag
  | ordinary (body : Text)
  | triple (blanks name : Text)
  | change (blanks names : Text)
  deriving DecidableEq, Repr

namespace WrittenTag

def kind : WrittenTag → TokenKind
  | .change .. => .change
  | _ => .body

def body : WrittenTag → Text
  | .ordinary body => body
  | .triple blanks name => blanks ++ '{' :: name
  | .change blanks names => blanks ++ '=' :: (names ++ ['='])

/-- The closing delimiter, with the brace that a triple tag adds. -/
def closing (tags : Tags) : WrittenTag → Text
  | .triple .. => '}' :: tags.closing
  | _ => tags.closing

/-- The pair in effect after the tag: the two words of a change. -/
def next (tags : Tags) : WrittenTag → Tags
  | .change _ names =>
    match names.words with
    | [opening, closing] => ⟨opening, closing⟩
    | _ => tags
  | _ => tags

/-- A tag that has one of the three forms and does not end before its end. -/
def Fits (tags : Tags) : WrittenTag → Prop
  | .ordinary body =>
    (∀ c ∈ body.trimStart.head?, c ≠ '=' ∧ c ≠ '{') ∧ Text.EndsAt tags.closing body
  | .triple blanks name =>
    blanks.all Text.isBlank = true ∧ Text.EndsAt ('}' :: tags.closing) name
  | .change blanks names =>
    blanks.all Text.isBlank = true ∧ Text.EndsAt ('=' :: tags.closing) names ∧
      names.words.length = 2

/-- A blank body is not followed by a closing delimiter that begins like another form. -/
def Distinct (tags : Tags) : WrittenTag → Prop
  | .ordinary body => body.trimStart = [] → ∀ c ∈ tags.closing.head?, c ≠ '=' ∧ c ≠ '{'
  | _ => True

-- The characters in question are looked at, not all characters.
instance (tags : Tags) : (tag : WrittenTag) → Decidable (tag.Fits tags)
  | .ordinary _ => @instDecidableAnd _ _ (Option.decidableForallMem _) inferInstance
  | .triple .. => inferInstanceAs (Decidable (_ ∧ _))
  | .change .. => inferInstanceAs (Decidable (_ ∧ _ ∧ _))

instance (tags : Tags) : (tag : WrittenTag) → Decidable (tag.Distinct tags)
  | .ordinary _ => @forall_prop_decidable _ _ inferInstance fun _ => Option.decidableForallMem _
  | .triple .. => .isTrue trivial
  | .change .. => .isTrue trivial

variable {tags : Tags} {tag : WrittenTag}

theorem nextTags_of_fits (fits : tag.Fits tags) :
    Token.nextTags tag.kind tag.body tags = .ok (tag.next tags) := by
  cases tag with
  | ordinary body => rfl
  | triple blanks name => rfl
  | change blanks names =>
    obtain ⟨hblanks, -, htwo⟩ := fits
    obtain ⟨opening, closing, hwords⟩ := List.length_eq_two.1 htwo
    have hequals : Text.isBlank '=' = false := by decide
    have htrim := Text.trim_between hblanks List.all_nil hequals hequals names
    simp only [kind, body, next, Token.nextTags, hwords, if_true]
    exact Tags.ofChange_eq_ok_iff_words.2 ⟨names, htrim, hwords⟩

theorem next_valid (valid : tags.Valid) (fits : tag.Fits tags) : (tag.next tags).Valid :=
  Token.valid_of_nextTags valid (nextTags_of_fits fits)

/-- The first character that is not blank is the body's, or else the closing delimiter's. -/
theorem trimStart_ordinary (side : Tags.IsSide tags.closing) {body rest : Text}
    (fits : (WrittenTag.ordinary body).Fits tags) (distinct : (WrittenTag.ordinary body).Distinct tags)
    {c : Char} {t : Text} (ht : Text.trimStart (body ++ (tags.closing ++ rest)) = c :: t) :
    c ≠ '=' ∧ c ≠ '{' := by
  obtain ⟨d, closing, hclosing⟩ := List.exists_cons_of_ne_nil side.1
  have hd : Text.isBlank d = false := side.2 d (by simp [hclosing])
  rw [Text.trimStart_append] at ht
  split at ht
  · rename_i hblank
    have hc : c = d := by
      rw [hclosing, List.cons_append, Text.trimStart, List.dropWhile_cons_of_neg (by simp [hd])] at ht
      exact (List.cons.inj ht).1.symm
    exact distinct (List.isEmpty_iff.1 hblank) c (by simp [hclosing, hc])
  · rename_i hblank
    cases hb : Text.trimStart body with
    | nil => simp [hb] at hblank
    | cons e u =>
      rw [hb, List.cons_append] at ht
      exact fits.1 c (by simp [hb, (List.cons.inj ht).1])

/-- A tag that cannot be taken for another is read as it was written. -/
theorem read?_of_distinct (side : Tags.IsSide tags.closing) (fits : tag.Fits tags)
    (distinct : tag.Distinct tags) (rest : Text) :
    Token.Inside.read? tags.closing (tag.body ++ (tag.closing tags ++ rest)) =
      some ⟨tag.kind, tag.body, tag.closing tags, rest⟩ := by
  cases tag with
  | ordinary body =>
    have hhead : ∀ c t, Text.trimStart (body ++ (tags.closing ++ rest)) = c :: t →
        c ≠ '=' ∧ c ≠ '{' := fun _ _ => trimStart_ordinary side fits distinct
    change Token.Inside.read? tags.closing (body ++ (tags.closing ++ rest)) = _
    rw [Token.Inside.read?_of_plain, fits.2.breakAt? rest]
    · rfl
    · exact fun t ht => (hhead _ t ht).1 rfl
    · exact fun t ht => (hhead _ t ht).2 rfl
  | triple blanks name =>
    obtain ⟨hblanks, hends⟩ := fits
    have hbrace := Text.leading_blanks hblanks (show Text.isBlank '{' = false by decide)
      (name ++ ('}' :: tags.closing ++ rest))
    have hbreak := hends.breakAt? rest
    simp only [body, closing, List.append_assoc, List.cons_append] at *
    rw [Token.Inside.read?, hbrace.2, hbrace.1]
    simp [hbreak, kind]
  | change blanks names =>
    obtain ⟨hblanks, hends, -⟩ := fits
    have hequals := Text.leading_blanks hblanks (show Text.isBlank '=' = false by decide)
      (names ++ ('=' :: tags.closing ++ rest))
    have hbreak := hends.breakAt? rest
    simp only [body, closing, List.append_assoc, List.cons_append, List.nil_append] at *
    rw [Token.Inside.read?, hequals.2, hequals.1]
    simp [hbreak, kind]

/-- A tag that is read as it was written was not taken for another. -/
theorem distinct_of_read? (side : Tags.IsSide tags.closing) {rest : Text} {found : Token.Inside}
    (reads : Token.Inside.read? tags.closing (tag.body ++ (tag.closing tags ++ rest)) = some found)
    (hkind : found.kind = tag.kind) (hbody : found.body = tag.body) : tag.Distinct tags := by
  cases tag with
  | triple blanks name => trivial
  | change blanks names => trivial
  | ordinary body =>
    intro hblank c hc
    change found.body = body at hbody
    have hall : ∀ d ∈ body, Text.isBlank d = true := by
      simpa [Text.trimStart, List.dropWhile_eq_nil_iff] using hblank
    obtain ⟨closing, hclosing⟩ : ∃ closing, tags.closing = c :: closing := by
      cases h : tags.closing with
      | nil => simp [h] at hc
      | cons d closing => exact ⟨closing, by simp_all⟩
    have hsolid : Text.isBlank c = false := side.2 c (by simp [hclosing])
    have htrim : Text.trimStart (body ++ (tags.closing ++ rest)) = c :: (closing ++ rest) := by
      rw [hclosing]
      exact (Text.leading_blanks (List.all_eq_true.2 hall) hsolid _).2
    change Token.Inside.read? tags.closing (body ++ (tags.closing ++ rest)) = _ at reads
    constructor
    · rintro rfl
      simp only [Token.Inside.read?, htrim] at reads
      obtain ⟨cut, -, rfl⟩ := Option.map_eq_some_iff.1 reads
      cases hkind
    · rintro rfl
      simp only [Token.Inside.read?, htrim] at reads
      obtain ⟨cut, -, rfl⟩ := Option.map_eq_some_iff.1 reads
      have hmem : '{' ∈ body := hbody ▸ List.mem_append_right _ (List.mem_cons_self ..)
      exact absurd (hall '{' hmem) (by decide)

end WrittenTag

/-- A source to be written: texts and tags in turn, and a text at the end. -/
inductive Script
  | last (t : Text)
  | more (before : Text) (tag : WrittenTag) (rest : Script)
  deriving Repr

namespace Script

/-- The source as it is written under a pair. -/
def write (tags : Tags) : Script → Text
  | .last t => t
  | .more before tag rest =>
    before ++ (tags.opening ++ (tag.body ++ (tag.closing tags ++ rest.write (tag.next tags))))

/-- The tokens of the script from a byte offset on. -/
def tokens (tags : Tags) (start : Nat) : Script → List Token
  | .last t => Token.run start t
  | .more before tag rest =>
    let opening : Token := ⟨.opening, tags.opening, start + before.size⟩
    let body : Token := ⟨tag.kind, tag.body, opening.stop⟩
    let closing : Token := ⟨.closing, tag.closing tags, body.stop⟩
    Token.run start before ++ [opening, body, closing] ++ rest.tokens (tag.next tags) closing.stop

/-- The pair in effect at the end. -/
def finalTags (tags : Tags) : Script → Tags
  | .last _ => tags
  | .more _ tag rest => rest.finalTags (tag.next tags)

/-- No tag opens or closes where none is meant to. -/
def Fits (tags : Tags) : Script → Prop
  | .last t => ∀ a b, t ≠ a ++ (tags.opening ++ b)
  | .more before tag rest =>
    Text.EndsAt tags.opening before ∧ tag.Fits tags ∧ rest.Fits (tag.next tags)

def Distinct (tags : Tags) : Script → Prop
  | .last _ => True
  | .more _ tag rest => tag.Distinct tags ∧ rest.Distinct (tag.next tags)

instance decidableFits (tags : Tags) : (script : Script) → Decidable (script.Fits tags)
  | .last _ => decidable_of_iff _ Text.breakAt?_eq_none_iff
  | .more _ tag rest =>
    have := decidableFits (tag.next tags) rest
    inferInstanceAs (Decidable (_ ∧ _ ∧ _))

instance decidableDistinct (tags : Tags) : (script : Script) → Decidable (script.Distinct tags)
  | .last _ => .isTrue trivial
  | .more _ tag rest =>
    have := decidableDistinct (tag.next tags) rest
    inferInstanceAs (Decidable (_ ∧ _))

/-- What the scan of a script yields if it is what was written. -/
def scanned (tags : Tags) (start : Nat) (script : Script) : Tokens :=
  ⟨script.tokens tags start, none, script.finalTags tags⟩

theorem prepend_inj {front : List Token} {one other : Tokens}
    (h : one.prepend front = other.prepend front) : one = other := by
  cases one
  cases other
  simpa [Tokens.prepend] using h

/-- If what is scanned is what was written, the first tag was not taken for another. -/
theorem distinct_of_scanFrom {source before : Text} {tags : Tags} {tag : WrittenTag} {rest : Script}
    {start : Nat} (valid : tags.Valid) (hbefore : Text.EndsAt tags.opening before)
    (h : Tokens.scanFrom source tags start ((Script.more before tag rest).write tags) =
      (Script.more before tag rest).scanned tags start) : tag.Distinct tags := by
  have hopens := hbefore.breakAt? (tag.body ++ (tag.closing tags ++ rest.write (tag.next tags)))
  rw [write] at h
  cases hread : Token.Inside.read? tags.closing
      (tag.body ++ (tag.closing tags ++ rest.write (tag.next tags))) with
  | none =>
    rw [Tokens.scanFrom_of_unclosed valid hopens hread] at h
    cases congrArg Tokens.failure h
  | some found =>
    cases hchange : Token.nextTags found.kind found.body tags with
    | error fault =>
      rw [Tokens.scanFrom_of_fault valid hopens hread hchange] at h
      cases congrArg Tokens.failure h
    | ok next =>
      rw [Tokens.scanFrom_of_tag valid hopens hread hchange] at h
      have hlist := congrArg Tokens.list h
      simp only [Tokens.prepend, scanned, tokens, List.append_assoc, List.append_cancel_left_eq,
        List.cons_append, List.cons.injEq, Token.mk.injEq] at hlist
      exact WrittenTag.distinct_of_read? valid.2 hread hlist.2.1.1 hlist.2.1.2.1

/-- From any offset on a script is scanned into what was written, if no tag is taken for another,
and only then. -/
theorem scanFrom_write_iff {source : Text} {tags : Tags} {script : Script} (valid : tags.Valid)
    (fits : script.Fits tags) (start : Nat) :
    Tokens.scanFrom source tags start (script.write tags) = script.scanned tags start ↔
      script.Distinct tags := by
  induction script generalizing tags start with
  | last t =>
    have hnone : Text.breakAt? tags.opening t = none := Text.breakAt?_eq_none_iff.2 fits
    rw [write, Tokens.scanFrom_of_none valid hnone]
    exact iff_of_true rfl trivial
  | more before tag rest ih =>
    obtain ⟨hbefore, htag, hrest⟩ := fits
    have hopens := hbefore.breakAt? (tag.body ++ (tag.closing tags ++ rest.write (tag.next tags)))
    have hnext := WrittenTag.nextTags_of_fits htag
    by_cases hdistinct : tag.Distinct tags
    · have hread := WrittenTag.read?_of_distinct valid.2 htag hdistinct (rest.write (tag.next tags))
      have hscan := @Tokens.scanFrom_of_tag source _ start _ _ _ _ _ valid hopens hread hnext
      have hexpected : (Script.more before tag rest).scanned tags start =
          (rest.scanned (tag.next tags) (start + before.size + tags.opening.size + tag.body.size +
            (tag.closing tags).size)).prepend
            (Token.run start before ++ [⟨.opening, tags.opening, start + before.size⟩,
              ⟨tag.kind, tag.body, start + before.size + tags.opening.size⟩,
              ⟨.closing, tag.closing tags,
                start + before.size + tags.opening.size + tag.body.size⟩]) := by
        simp [scanned, tokens, finalTags, Tokens.prepend, Token.stop]
      have hrec := ih (WrittenTag.next_valid valid htag) hrest
        (start + before.size + tags.opening.size + tag.body.size + (tag.closing tags).size)
      rw [write, hscan, hexpected, Distinct, and_iff_right hdistinct, ← hrec]
      exact ⟨prepend_inj, congrArg _⟩
    · exact iff_of_false (fun h => hdistinct (distinct_of_scanFrom valid hbefore h))
        fun h => hdistinct h.1

end Script

namespace Tokens

/-- A source is scanned into what was written just when none of its tags is taken for another. -/
theorem scan_write_iff {tags : Tags} {script : Script} (valid : tags.Valid)
    (fits : script.Fits tags) :
    scan (script.write tags) tags = script.scanned tags 0 ↔ script.Distinct tags :=
  Script.scanFrom_write_iff valid fits 0

/-- A tag of each form. -/
def threeForms : Script :=
  .more ['a'] (.ordinary []) (.more [] (.change [' '] "<% %>".toList)
    (.more [] (.triple [] ['x']) (.last ['b'])))

theorem scan_write_threeForms : (default : Tags).Valid ∧ threeForms.Fits default ∧
    threeForms.write default = "a{{}}{{ =<% %>=}}<%{x}%>b".toList ∧
    scan (threeForms.write default) default = threeForms.scanned default 0 :=
  ⟨Tags.valid_default, by decide, by decide,
    (scan_write_iff Tags.valid_default (by decide)).2 (by decide)⟩

/-- An empty tag under a pair whose closing delimiter begins with an equals sign. -/
def emptyTag (rest : Text) : Script :=
  .more [] (.ordinary []) (.last rest)

def equalsPair : Tags :=
  ⟨['<'], ['=', '>']⟩

/-- The empty tag is taken for the front of a change, which nothing closes. -/
theorem scan_write_emptyTag : equalsPair.Valid ∧ (emptyTag []).Fits equalsPair ∧
    (emptyTag []).write equalsPair = "<=>".toList ∧
    scan ((emptyTag []).write equalsPair) equalsPair ≠ (emptyTag []).scanned equalsPair 0 := by
  refine ⟨by decide, by decide, by decide, ?_⟩
  intro h
  have hdistinct := (Script.scanFrom_write_iff (by decide) (by decide) 0).1 h
  exact absurd hdistinct (by decide)

/-- No scan could tell them apart: the text of such a tag may be that of a change as well. -/
example : (emptyTag " a==>".toList).Fits equalsPair ∧
    (Script.more [] (.change [] "> a".toList) (.last [])).Fits equalsPair ∧
    (emptyTag " a==>".toList).write equalsPair =
      (Script.more [] (.change [] "> a".toList) (.last [])).write equalsPair := by
  decide

end Tokens
end Stencil
