import Stencil.Proofs.Text.Boundary
import Stencil.Proofs.Token.Scan

/-!
# Tokens one at a time

A scanner that knows the pair in effect, a byte offset and what comes next, and cuts each token out of
its source by byte offsets. A cut out of range or inside a character fails, and so does the scanner.
It never does: asked again and again, it answers with the tokens of the scan in order, then with the
failure of the scan, if there is one, and then with nothing for ever.
-/

namespace Stencil

/-- Where a body ends: at a terminator, looked for after some bytes of it, some bytes of which stay in
the body. -/
structure BodyShape where
  kind : TokenKind
  terminator : Text
  skipped : Nat
  kept : Nat

/-- The first character that is not blank decides. -/
def BodyShape.of (closing rest : Text) : BodyShape :=
  match rest.trimStart with
  | '=' :: _ => ⟨.change, '=' :: closing, rest.leading.size + 1, 1⟩
  | '{' :: _ => ⟨.body, '}' :: closing, rest.leading.size + 1, 0⟩
  | _ => ⟨.body, closing, 0, 0⟩

/-- What a scanner expects next. -/
inductive Phase
  | text
  | body
  /-- A closing delimiter of this size, and the pair in effect after it. -/
  | closing (size : Nat) (next : Tags)
  | done
  deriving DecidableEq, Repr

structure Scanner where
  tags : Tags
  offset : Nat
  phase : Phase
  deriving DecidableEq, Repr

namespace Scanner

def start (tags : Tags) : Scanner :=
  ⟨tags, 0, .text⟩

/-- An answer, which is nothing at the end, and the scanner after it. -/
abbrev Answer := Option (Except Error Token) × Scanner

/-- Answers with the token that ends at a byte offset. -/
def yield (s : Scanner) (source : Text) (kind : TokenKind) (stop : Nat) (next : Phase) :
    Option Answer := do
  let raw ← source.cut? s.offset stop
  some (some (.ok ⟨kind, raw, s.offset⟩), ⟨s.tags, stop, next⟩)

def fail (s : Scanner) (error : Error) : Option Answer :=
  some (some (.error error), { s with phase := .done })

/-- A run of text up to the next opening delimiter, or that delimiter. -/
def nextText (s : Scanner) (source : Text) : Option Answer :=
  if source.size ≤ s.offset then some (none, { s with phase := .done })
  else do
    let rest ← source.cut? s.offset source.size
    match Text.breakAt? s.tags.opening rest with
    | none => s.yield source .text source.size .done
    | some ([], _) => s.yield source .opening (s.offset + s.tags.opening.size) .body
    | some (before, _) => s.yield source .text (s.offset + before.size) .text

/-- The body of a tag up to its terminator. A change is read at once. -/
def nextBody (s : Scanner) (source : Text) : Option Answer := do
  let rest ← source.cut? s.offset source.size
  let opened ← if s.tags.opening.size ≤ s.offset then some (s.offset - s.tags.opening.size) else none
  let shape := BodyShape.of s.tags.closing rest
  let searched ← rest.cut? shape.skipped rest.size
  match Text.breakAt? shape.terminator searched with
  | none => s.fail (.malformedAt source opened .unclosedTag)
  | some (before, _) =>
    let stop := s.offset + (shape.skipped + before.size + shape.kept)
    let raw ← source.cut? s.offset stop
    match Token.nextTags shape.kind raw s.tags with
    | .error fault => s.fail (.malformedAt source opened fault)
    | .ok next => some (some (.ok ⟨shape.kind, raw, s.offset⟩),
        ⟨s.tags, stop, .closing (shape.terminator.size - shape.kept) next⟩)

/-- The next answer. -/
def next (s : Scanner) (source : Text) : Option Answer :=
  match s.phase with
  | .text =>
    if s.tags.Valid then s.nextText source
    else s.fail (.malformedAt source 0 (.invalidTags s.tags))
  | .body => s.nextBody source
  | .closing size tags => { s with tags }.yield source .closing (s.offset + size) .text
  | .done => some (none, s)

/-- Asked again and again, the scanner answers with these items and then with nothing for ever; the
pair is the one in effect at the end. -/
inductive Answers (source : Text) : Scanner → List (Except Error Token) → Tags → Prop
  | over {s last : Scanner} (ends : s.next source = some (none, last))
    (still : last.next source = some (none, last)) : Answers source s [] last.tags
  | item {s after : Scanner} {item : Except Error Token} {items : List (Except Error Token)}
    {tags : Tags} (answers : s.next source = some (some item, after))
    (more : Answers source after items tags) : Answers source s (item :: items) tags

section

variable {source front rest before inside : Text} {tags : Tags}

theorem yield_of_cut {s : Scanner} {a raw c : Text} (hs : source = a ++ (raw ++ c))
    (ha : a.size = s.offset) (kind : TokenKind) (phase : Phase) :
    s.yield source kind (s.offset + raw.size) phase =
      some (some (.ok ⟨kind, raw, s.offset⟩), ⟨s.tags, s.offset + raw.size, phase⟩) := by
  have hcut : source.cut? s.offset (s.offset + raw.size) = some raw := by
    rw [hs, ← ha, Text.cut?_append]
  simp [yield, hcut]

theorem answers_done (s : Scanner) (offset : Nat) :
    Answers source ⟨s.tags, offset, .done⟩ [] s.tags :=
  @Answers.over source _ ⟨s.tags, offset, .done⟩ rfl rfl

theorem answers_fail {s : Scanner} {error : Error}
    (h : s.next source = s.fail error) : Answers source s [.error error] s.tags :=
  .item h (answers_done s s.offset)

/-- At the end of the source. -/
theorem answers_end (valid : tags.Valid) : Answers source ⟨tags, source.size, .text⟩ [] tags := by
  refine @Answers.over source _ ⟨tags, source.size, .done⟩ ?_ rfl
  simp [next, valid, nextText]

/-- Where text is ahead, the scanner looks for the next opening delimiter in it. -/
theorem next_text (valid : tags.Valid) (hs : source = front ++ rest) (hrest : rest ≠ []) :
    (Scanner.mk tags front.size .text).next source =
      match Text.breakAt? tags.opening rest with
      | none => yield ⟨tags, front.size, .text⟩ source .text source.size .done
      | some ([], _) =>
        yield ⟨tags, front.size, .text⟩ source .opening (front.size + tags.opening.size) .body
      | some (before, _) =>
        yield ⟨tags, front.size, .text⟩ source .text (front.size + before.size) .text := by
  have hpos : rest.size ≠ 0 := fun h => hrest (Text.size_eq_zero_iff.1 h)
  have hlt : ¬ source.size ≤ front.size := by
    rw [hs, Text.size_append]
    omega
  have hcut : source.cut? front.size source.size = some rest := by
    rw [hs, Text.cut?_end]
  simp only [next, if_pos valid, nextText, if_neg hlt, hcut, Option.bind_eq_bind, Option.bind_some]

/-- A last run of text. -/
theorem answers_run_end (valid : tags.Valid) (hs : source = front ++ rest)
    (none : Text.breakAt? tags.opening rest = none) :
    Answers source ⟨tags, front.size, .text⟩ ((Token.run front.size rest).map .ok) tags := by
  by_cases hrest : rest = []
  · have hfront : front = source := by simp [hs, hrest]
    rw [hrest, hfront]
    exact answers_end valid
  · have hnext := next_text valid hs hrest
    have hsize : source.size = front.size + rest.size := by rw [hs, Text.size_append]
    rw [none, hsize] at hnext
    have hend : source = front ++ (rest ++ []) := by simpa using hs
    have hyield := @yield_of_cut source ⟨tags, front.size, .text⟩ front rest [] hend rfl .text .done
    rw [Token.run, if_neg (by simpa using hrest)]
    exact .item (hnext.trans hyield) (answers_done ⟨tags, _, .text⟩ _)

/-- A run of text, unless it is empty, comes before the opening delimiter. -/
theorem answers_run {items : List (Except Error Token)} {last : Tags} (valid : tags.Valid)
    (hs : source = front ++ rest) (opens : Text.breakAt? tags.opening rest = some (before, inside))
    (more : Answers source ⟨tags, (front ++ before).size, .text⟩ items last) :
    Answers source ⟨tags, front.size, .text⟩ ((Token.run front.size before).map .ok ++ items)
      last := by
  have hrest := Text.eq_append_of_breakAt? opens
  cases before with
  | nil => simpa [Token.run] using more
  | cons c before =>
    have hnext := next_text valid hs (by simp [hrest])
    rw [opens] at hnext
    have hparts : source = front ++ (c :: before ++ (tags.opening ++ inside)) := hrest ▸ hs
    have hyield := @yield_of_cut source ⟨tags, front.size, .text⟩ _ _ _ hparts rfl .text .text
    rw [Text.size_append] at more
    exact .item (hnext.trans hyield) more

/-- The opening delimiter of a tag. -/
theorem answers_opening {items : List (Except Error Token)} {last : Tags} (valid : tags.Valid)
    (hs : source = front ++ (tags.opening ++ inside))
    (more : Answers source ⟨tags, front.size + tags.opening.size, .body⟩ items last) :
    Answers source ⟨tags, front.size, .text⟩
      (.ok ⟨.opening, tags.opening, front.size⟩ :: items) last := by
  have hnext := next_text valid hs (by simp [valid.opening_ne_nil])
  rw [Text.breakAt?_append_self] at hnext
  have hyield := yield_of_cut (s := ⟨tags, front.size, .text⟩) hs rfl .opening .body
  exact .item (hnext.trans hyield) more

/-- The closing delimiter of a tag. -/
theorem answers_closing {items : List (Except Error Token)} {closing : Text} {next last : Tags}
    (hs : source = front ++ (closing ++ rest))
    (more : Answers source ⟨next, (front ++ closing).size, .text⟩ items last) :
    Answers source ⟨tags, front.size, .closing closing.size next⟩
      (.ok ⟨.closing, closing, front.size⟩ :: items) last := by
  have hyield := yield_of_cut (s := ⟨next, front.size, .closing closing.size next⟩) hs rfl
    .closing .text
  rw [Text.size_append] at more
  exact .item hyield more

end

end Scanner

/-- The terminator is looked for after the character that decides the shape, and what is found is
where the tag is read to end. -/
theorem BodyShape.of_read (closing rest : Text) :
    ∃ searched, rest.cut? (of closing rest).skipped rest.size = some searched ∧
      match Text.breakAt? (of closing rest).terminator searched with
      | none => Token.Inside.read? closing rest = none
      | some (before, _) => ∃ found, Token.Inside.read? closing rest = some found ∧
          found.kind = (of closing rest).kind ∧
          found.body.size = (of closing rest).skipped + before.size + (of closing rest).kept ∧
          found.closing.size = (of closing rest).terminator.size - (of closing rest).kept := by
  have hlead := Text.leading_append_trimStart rest
  have hequals : Char.utf8Size '=' = 1 := by decide
  have hbrace : Char.utf8Size '{' = 1 := by decide
  -- All that follows a character of one byte after the leading blanks.
  have hcut : ∀ c t, rest.trimStart = c :: t → c.utf8Size = 1 →
      rest.cut? (rest.leading.size + 1) rest.size = some t := by
    intro c t ht hc
    have h := Text.cut?_end (rest.leading ++ [c]) t
    have hrest : rest.leading ++ [c] ++ t = rest := by
      rw [List.append_assoc, List.singleton_append, ← ht, hlead]
    rwa [hrest, Text.size_append, Text.size_cons, hc, Text.size_nil] at h
  unfold of
  split
  · rename_i t ht
    refine ⟨t, hcut _ _ ht hequals, ?_⟩
    rw [Token.Inside.read?_of_equals ht]
    cases Text.breakAt? ('=' :: closing) t with
    | none => rfl
    | some cut =>
      refine ⟨_, rfl, rfl, ?_, ?_⟩
      · simp only [Text.size_append, Text.size_cons, Text.size_nil, hequals]
        omega
      · simp only [Text.size_cons, hequals]
        omega
  · rename_i t ht
    refine ⟨t, hcut _ _ ht hbrace, ?_⟩
    rw [Token.Inside.read?_of_brace ht]
    cases Text.breakAt? ('}' :: closing) t with
    | none => rfl
    | some cut =>
      refine ⟨_, rfl, rfl, ?_, rfl⟩
      simp only [Text.size_append, Text.size_cons, hbrace]
      omega
  · rename_i hnotEquals hnotBrace
    refine ⟨rest, by simpa using Text.cut?_end [] rest, ?_⟩
    rw [Token.Inside.read?_of_plain hnotEquals hnotBrace]
    cases Text.breakAt? closing rest with
    | none => rfl
    | some cut => exact ⟨_, rfl, rfl, by simp, rfl⟩

namespace Scanner

variable {source front inside : Text} {tags : Tags}

/-- After an opening delimiter the scanner reads the tag as a scan does. -/
theorem next_body (hs : source = front ++ (tags.opening ++ inside)) :
    (Scanner.mk tags (front.size + tags.opening.size) .body).next source =
      match Token.Inside.read? tags.closing inside with
      | none => fail ⟨tags, front.size + tags.opening.size, .body⟩
          (.malformedAt source front.size .unclosedTag)
      | some found =>
        match Token.nextTags found.kind found.body tags with
        | .error fault => fail ⟨tags, front.size + tags.opening.size, .body⟩
            (.malformedAt source front.size fault)
        | .ok next => some (some (.ok ⟨found.kind, found.body, front.size + tags.opening.size⟩),
            ⟨tags, front.size + tags.opening.size + found.body.size,
              .closing found.closing.size next⟩) := by
  have hsource : source = (front ++ tags.opening) ++ inside := by simpa using hs
  have hrest : source.cut? (front.size + tags.opening.size) source.size = some inside := by
    rw [hsource, ← Text.size_append, Text.cut?_end]
  obtain ⟨searched, hsearched, hread⟩ := BodyShape.of_read tags.closing inside
  have hopened : tags.opening.size ≤ front.size + tags.opening.size := Nat.le_add_left ..
  simp only [next, nextBody, hrest, hsearched, if_pos hopened, Nat.add_sub_cancel,
    Option.bind_eq_bind, Option.bind_some]
  cases hb : Text.breakAt? (BodyShape.of tags.closing inside).terminator searched with
  | none =>
    rw [hb] at hread
    simp only [hread]
  | some cut =>
    obtain ⟨before, after⟩ := cut
    rw [hb] at hread
    obtain ⟨found, hfound, hkind, hbody, hclosing⟩ := hread
    have hinside := Token.Inside.append_of_read? hfound
    have hcut : source.cut? (front.size + tags.opening.size)
        (front.size + tags.opening.size + found.body.size) = some found.body := by
      rw [hsource, hinside, ← Text.size_append, Text.cut?_append]
    simp only [← hkind, ← hbody, ← hclosing, hfound, hcut, Option.bind_some]

section Tag
variable {rest before : Text} (valid : tags.Valid) (hs : source = front ++ rest)
  (opens : Text.breakAt? tags.opening rest = some (before, inside))
include valid hs opens

/-- A tag that cannot be read, and the run before it. -/
theorem answers_malformed {fault : Fault}
    (malformed : Token.Inside.read? tags.closing inside = none ∧ fault = .unclosedTag ∨
      ∃ found, Token.Inside.read? tags.closing inside = some found ∧
        Token.nextTags found.kind found.body tags = .error fault) :
    Answers source ⟨tags, front.size, .text⟩ ((Token.run front.size before).map .ok ++
      [.ok ⟨.opening, tags.opening, (front ++ before).size⟩,
        .error (.malformedAt source (front ++ before).size fault)]) tags := by
  have hrest := Text.eq_append_of_breakAt? opens
  have hbefore : source = (front ++ before) ++ (tags.opening ++ inside) := by
    rw [hs, hrest, List.append_assoc]
  have hnext : next ⟨tags, (front ++ before).size + tags.opening.size, .body⟩ source =
      fail ⟨tags, (front ++ before).size + tags.opening.size, .body⟩
        (.malformedAt source (front ++ before).size fault) := by
    rw [next_body hbefore]
    rcases malformed with ⟨hread, rfl⟩ | ⟨found, hread, hfault⟩
    · rw [hread]
    · rw [hread]
      simp only [hfault]
  exact answers_run valid hs opens (answers_opening valid hbefore (answers_fail hnext))

/-- A whole tag, and the run before it. -/
theorem answers_tag {found : Token.Inside} {next last : Tags} {items : List (Except Error Token)}
    (reads : Token.Inside.read? tags.closing inside = some found)
    (changes : Token.nextTags found.kind found.body tags = .ok next)
    (more : Answers source
      ⟨next, (front ++ before ++ tags.opening ++ found.body ++ found.closing).size, .text⟩ items last) :
    Answers source ⟨tags, front.size, .text⟩ ((Token.run front.size before).map .ok ++
      .ok ⟨.opening, tags.opening, (front ++ before).size⟩ ::
      .ok ⟨found.kind, found.body, (front ++ before ++ tags.opening).size⟩ ::
      .ok ⟨.closing, found.closing, (front ++ before ++ tags.opening ++ found.body).size⟩ :: items)
      last := by
  have hrest := Text.eq_append_of_breakAt? opens
  have hinside := Token.Inside.append_of_read? reads
  have hbefore : source = (front ++ before) ++ (tags.opening ++ inside) := by
    rw [hs, hrest, List.append_assoc]
  have hclosing : source = (front ++ before ++ tags.opening ++ found.body) ++
      (found.closing ++ found.rest) := by
    rw [hbefore, hinside]
    simp
  have hbody := next_body hbefore
  simp only [reads, changes] at hbody
  have hclose := @answers_closing _ _ _ tags _ _ _ _ hclosing more
  rw [Text.size_append (_ ++ tags.opening), Text.size_append (_ ++ before)] at hclose ⊢
  exact answers_run valid hs opens (answers_opening valid hbefore (.item hbody hclose))

end Tag

end Scanner

/-- What a scan yields, item by item: its tokens, and its failure if there is one. -/
def Tokens.items (tokens : Tokens) : List (Except Error Token) :=
  tokens.list.map .ok ++ tokens.failure.toList.map .error

theorem Tokens.items_prepend (front : List Token) (tokens : Tokens) :
    (tokens.prepend front).items = front.map .ok ++ tokens.items := by
  simp [items, prepend]

/-- The scanner answers with what is scanned. -/
theorem Scanner.answers_scanFrom {source : Text} (tags : Tags) {front rest : Text}
    (hs : source = front ++ rest) :
    Answers source ⟨tags, front.size, .text⟩ (Tokens.scanFrom source tags front.size rest).items
      (Tokens.scanFrom source tags front.size rest).tags := by
  refine Tokens.scanFrom_induction source (motive := fun tags start rest tokens =>
      ∀ front : Text, source = front ++ rest → front.size = start →
        Answers source ⟨tags, start, .text⟩ tokens.items tokens.tags)
    ?invalid ?text ?malformed ?tag tags front.size rest front hs rfl
  case invalid =>
    intro tags start rest invalid front _ _
    exact answers_fail (by simp [next, invalid])
  case text =>
    intro tags start rest valid none front hs hfront
    subst hfront
    simpa [Tokens.items] using answers_run_end valid hs none
  case malformed =>
    intro tags start rest before inside fault valid opens malformed front hs hfront
    subst hfront
    have h := answers_malformed valid hs opens malformed
    simpa [Tokens.items] using h
  case tag =>
    intro tags start rest before inside found next tokens valid opens reads changes ih front hs hfront
    subst hfront
    have hrest := Text.eq_append_of_breakAt? opens
    have hinside := Token.Inside.append_of_read? reads
    have hstop : (front ++ before ++ tags.opening ++ found.body ++ found.closing).size =
        front.size + before.size + tags.opening.size + found.body.size + found.closing.size := by
      simp [Nat.add_assoc]
    have hmore := ih (front ++ before ++ tags.opening ++ found.body ++ found.closing)
      (by rw [hs, hrest, hinside]; simp) hstop
    rw [← hstop] at hmore
    have h := answers_tag valid hs opens reads changes hmore
    rw [Tokens.items_prepend]
    simpa [Tokens.prepend, Nat.add_assoc] using h

end Stencil
