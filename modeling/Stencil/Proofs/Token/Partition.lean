import Stencil.Proofs.Tags.Change
import Stencil.Proofs.Token.Stream

/-!
# The tokens of a source

The tokens of a scan follow each other without a gap from the start of the source, to its end if
nothing fails. They are runs of text and whole tags in turn; each run ends where the next opening
delimiter first occurs, and each tag where its terminator does. Only a change of the pair changes it.
-/

namespace Stencil

/-- The kinds of runs of text and whole tags in turn. If they are cut off, a last tag has only opened. -/
inductive TokenKind.Sentence : (cutOff : Bool) → List TokenKind → Prop
  | last {run : List TokenKind} (atMostOne : run = [] ∨ run = [.text]) : Sentence false run
  | cutOff {run : List TokenKind} (atMostOne : run = [] ∨ run = [.text]) :
    Sentence true (run ++ [.opening])
  | tag {cutOff : Bool} {run rest : List TokenKind} {inner : TokenKind}
    (atMostOne : run = [] ∨ run = [.text]) (isBody : inner = .body ∨ inner = .change)
    (more : Sentence cutOff rest) :
    Sentence cutOff (run ++ .opening :: inner :: .closing :: rest)

/-- A run goes on to the first occurrence of the mark, or to the end if there is none. -/
def Text.RunsTo (mark rest run : Text) : Prop :=
  (∃ after, FirstAt mark rest run after) ∨ run = rest ∧ ∀ a b, rest ≠ a ++ (mark ++ b)

namespace Token

/-- What a tag is made of after its opening delimiter: its body ends where its terminator first
occurs after the character that decides its form. -/
inductive Ends (closing rest : Text) : TokenKind → Text → Text → Prop
  | change {blanks inner names after : Text} (blank : blanks.all Text.isBlank = true)
    (eq : rest = blanks ++ '=' :: inner) (ends : Text.FirstAt ('=' :: closing) inner names after) :
    Ends closing rest .change (blanks ++ '=' :: (names ++ ['='])) closing
  | triple {blanks inner name after : Text} (blank : blanks.all Text.isBlank = true)
    (eq : rest = blanks ++ '{' :: inner) (ends : Text.FirstAt ('}' :: closing) inner name after) :
    Ends closing rest .body (blanks ++ '{' :: name) ('}' :: closing)
  | ordinary {body after : Text} (form : ∀ c ∈ rest.trimStart.head?, c ≠ '=' ∧ c ≠ '{')
    (ends : Text.FirstAt closing rest body after) : Ends closing rest .body body closing

/-- What is wrong with a tag that cannot be read: it never ends, or names no pair. -/
inductive Broken (closing rest : Text) : Fault → Prop
  | unclosed (never : ∀ kind body terminator, ¬ Ends closing rest kind body terminator) :
    Broken closing rest .unclosedTag
  | change {body : Text} {fault : Fault} (ends : Ends closing rest .change body closing)
    (faulty : Tags.ofChange body = .error fault) : Broken closing rest fault

/-- The pair that the body of a change names. -/
def named (body : Text) : Tags :=
  match Tags.ofChange body with
  | .ok tags => tags
  | .error _ => default

/-- The pair in effect after one more token, and the body of a change that has not closed. -/
def effect (now : Tags × Option Text) (token : Token) : Tags × Option Text :=
  match token.kind, now.2 with
  | .change, _ => (now.1, some token.raw)
  | .closing, some body => (named body, none)
  | _, _ => (now.1, none)

/-- The pair in effect after some tokens. -/
def inEffect (tags : Tags) (front : List Token) : Tags :=
  (front.foldl effect (tags, none)).1

end Token

/-- How the tokens of a scan make up its source. -/
structure Tokens.Partition (source : Text) (tags : Tags) (tokens : Tokens) : Prop where
  consecutive : Token.Consecutive 0 tokens.list
  slices : ∀ token ∈ tokens.list, source.cut? token.start token.stop = some token.raw
  covers : ∃ left, source = tokens.list.flatMap Token.raw ++ left ∧
    (tokens.failure = none → left = [])
  invalid : ¬ tags.Valid →
    tokens.list = [] ∧ tokens.failure = some (.malformedAt source 0 (.invalidTags tags))
  sentence : tags.Valid →
    TokenKind.Sentence tokens.failure.isSome (tokens.list.map Token.kind)
  runs : ∀ front token back, tokens.list = front ++ token :: back → token.kind = .text →
    token.raw ≠ [] ∧
      Text.RunsTo (Token.inEffect tags front).opening (source.dropBytes token.start) token.raw
  openings : ∀ front token back, tokens.list = front ++ token :: back → token.kind = .opening →
    token.raw = (Token.inEffect tags front).opening
  ends : ∀ front opening body closing back,
    tokens.list = front ++ opening :: body :: closing :: back → opening.kind = .opening →
    Token.Ends (Token.inEffect tags front).closing (source.dropBytes body.start) body.kind body.raw
      closing.raw
  changes : ∀ token ∈ tokens.list, token.kind = .change → ∃ names opening closing,
    token.raw.trim = '=' :: (names ++ ['=']) ∧ Text.words names = [opening, closing] ∧
      Token.named token.raw = ⟨opening, closing⟩
  fails : tags.Valid → ∀ error, tokens.failure = some error → ∃ front opening fault,
    tokens.list = front ++ [opening] ∧ opening.kind = .opening ∧
      error = .malformedAt source opening.start fault ∧
      Token.Broken (Token.inEffect tags front).closing (source.dropBytes opening.stop) fault
  final : tokens.tags = Token.inEffect tags tokens.list
  lineStarts : Token.lineStarts true tokens.list = tokens.list.map (Token.startsLine source)

namespace Token

theorem consecutive_append {start : Nat} {front back : List Token} :
    Consecutive start (front ++ back) ↔
      Consecutive start front ∧ Consecutive (start + Text.size (front.flatMap raw)) back := by
  induction front generalizing start with
  | nil => simp [Consecutive]
  | cons token front ih =>
    simp only [List.cons_append, Consecutive, ih, List.flatMap_cons, Text.size_append, and_assoc]
    refine and_congr_right fun hstart => ?_
    rw [stop, hstart, Nat.add_assoc]

theorem consecutive_run (start : Nat) (raw : Text) : Consecutive start (run start raw) := by
  unfold run
  split <;> simp [Consecutive]

@[simp] theorem flatMap_raw_run (start : Nat) (t : Text) : (run start t).flatMap raw = t := by
  cases t <;> simp [run]

theorem kinds_run (start : Nat) (t : Text) :
    (run start t).map kind = [] ∨ (run start t).map kind = [.text] := by
  cases t <;> simp [run]

theorem kind_ne_change_of_mem_run {start : Nat} {t : Text} {token : Token}
    (h : token ∈ run start t) : token.kind ≠ .change := by
  cases t with
  | nil => cases h
  | cons c t =>
    rw [List.mem_singleton.1 h]
    exact nofun

/-- A run of text changes no pair. -/
theorem foldl_effect_run (tags : Tags) (start : Nat) (t : Text) :
    (run start t).foldl effect (tags, none) = (tags, none) := by
  cases t <;> rfl

/-- A tag changes the pair if it is a change. -/
theorem foldl_effect_tag {tags next : Tags} {opening body closing : Token}
    (ho : opening.kind = .opening) (hb : body.kind = .body ∨ body.kind = .change)
    (hc : closing.kind = .closing) (hn : nextTags body.kind body.raw tags = .ok next) :
    [opening, body, closing].foldl effect (tags, none) = (next, none) := by
  rcases hb with hb | hb
  · have hnext : tags = next := by simpa [nextTags, hb] using hn
    simp [effect, ho, hb, hc, hnext]
  · have hnext : Tags.ofChange body.raw = .ok next := by simpa [nextTags, hb] using hn
    simp [effect, ho, hb, hc, named, hnext]

/-- A tag that is read ends as its form asks. -/
theorem ends_of_read? {closing rest : Text} {found : Inside}
    (h : Inside.read? closing rest = some found) :
    Ends closing rest found.kind found.body found.closing := by
  have hlead := Text.leading_append_trimStart rest
  have hblank : rest.leading.all Text.isBlank = true := List.all_takeWhile
  by_cases hequals : ∃ t, rest.trimStart = '=' :: t
  · obtain ⟨t, ht⟩ := hequals
    rw [Inside.read?_of_equals ht] at h
    obtain ⟨⟨body, after⟩, hb, rfl⟩ := Option.map_eq_some_iff.1 h
    have hends := Ends.change hblank (ht ▸ hlead.symm) (Text.breakAt?_eq_some_iff.1 hb)
    simpa using hends
  by_cases hbrace : ∃ t, rest.trimStart = '{' :: t
  · obtain ⟨t, ht⟩ := hbrace
    rw [Inside.read?_of_brace ht] at h
    obtain ⟨⟨body, after⟩, hb, rfl⟩ := Option.map_eq_some_iff.1 h
    exact .triple hblank (ht ▸ hlead.symm) (Text.breakAt?_eq_some_iff.1 hb)
  · rw [Inside.read?_of_plain (not_exists.1 hequals) (not_exists.1 hbrace)] at h
    obtain ⟨⟨body, after⟩, hb, rfl⟩ := Option.map_eq_some_iff.1 h
    refine .ordinary ?_ (Text.breakAt?_eq_some_iff.1 hb)
    intro c hc
    obtain ⟨t, ht⟩ := List.head?_eq_some_iff.1 (Option.mem_def.1 hc)
    constructor
    · rintro rfl
      exact hequals ⟨t, ht⟩
    · rintro rfl
      exact hbrace ⟨t, ht⟩

/-- A tag that ends as its form asks is read. -/
theorem Ends.read? {closing rest body terminator : Text} {kind : TokenKind}
    (h : Ends closing rest kind body terminator) :
    ∃ after, Inside.read? closing rest = some ⟨kind, body, terminator, after⟩ := by
  cases h with
  | @change blanks inner names after blank eq ends =>
    obtain ⟨hlead, htrim⟩ := Text.leading_blanks blank (show Text.isBlank '=' = false by decide) inner
    rw [← eq] at hlead htrim
    refine ⟨after, ?_⟩
    rw [Inside.read?_of_equals htrim, Text.breakAt?_eq_some_iff.2 ends, hlead]
    simp
  | @triple blanks inner name after blank eq ends =>
    obtain ⟨hlead, htrim⟩ := Text.leading_blanks blank (show Text.isBlank '{' = false by decide) inner
    rw [← eq] at hlead htrim
    refine ⟨after, ?_⟩
    rw [Inside.read?_of_brace htrim, Text.breakAt?_eq_some_iff.2 ends, hlead]
    rfl
  | @ordinary _ after form ends =>
    refine ⟨after, ?_⟩
    rw [Inside.read?_of_plain, Text.breakAt?_eq_some_iff.2 ends]
    · rfl
    · intro t ht
      exact (form '=' (by simp [ht])).1 rfl
    · intro t ht
      exact (form '{' (by simp [ht])).2 rfl

theorem Ends.terminator_of_change {closing rest body terminator : Text}
    (h : Ends closing rest .change body terminator) : terminator = closing := by
  cases h
  rfl

theorem broken_of_unread {closing rest : Text} (h : Inside.read? closing rest = none) :
    Broken closing rest .unclosedTag := by
  refine .unclosed fun kind body terminator ends => ?_
  obtain ⟨after, hread⟩ := ends.read?
  rw [h] at hread
  cases hread

theorem broken_of_fault {closing rest : Text} {found : Inside} {tags : Tags} {fault : Fault}
    (reads : Inside.read? closing rest = some found)
    (faulty : nextTags found.kind found.body tags = .error fault) : Broken closing rest fault := by
  have hends := ends_of_read? reads
  by_cases hkind : found.kind = .change
  · rw [nextTags, if_pos hkind] at faulty
    rw [hkind] at hends
    rw [hends.terminator_of_change] at hends
    exact .change hends faulty
  · rw [nextTags, if_neg hkind] at faulty
    cases faulty

/-- The first token is where it is for a reason: a run of text ends where it must, and a tag is read
under the pair in effect. -/
def Placed (tags : Tags) (rest : Text) (token : Token) (back : List Token) : Prop :=
  (token.kind = .text → token.raw ≠ [] ∧ Text.RunsTo tags.opening rest token.raw) ∧
    (token.kind = .opening → token.raw = tags.opening ∧
      ∀ inside body closing more, rest = token.raw ++ inside → back = body :: closing :: more →
        Ends tags.closing inside body.kind body.raw closing.raw)

theorem placed_of_inner {tags : Tags} {rest : Text} {token : Token} {back : List Token}
    (ht : token.kind ≠ .text) (ho : token.kind ≠ .opening) : Placed tags rest token back :=
  ⟨fun h => absurd h ht, fun h => absurd h ho⟩

/-- Each token in turn is placed in what is left of the text, under the pair in effect there. -/
def AllPlaced : Tags × Option Text → Text → List Token → Prop
  | _, _, [] => True
  | now, rest, token :: back => Placed now.1 rest token back ∧
      ∃ left, rest = token.raw ++ left ∧ AllPlaced (effect now token) left back

/-- What is left when some tokens have gone. -/
theorem AllPlaced.drop {now : Tags × Option Text} {rest : Text} {front back : List Token}
    (h : AllPlaced now rest (front ++ back)) :
    ∃ left, rest = front.flatMap raw ++ left ∧ AllPlaced (front.foldl effect now) left back := by
  induction front generalizing now rest with
  | nil => exact ⟨rest, rfl, h⟩
  | cons token front ih =>
    obtain ⟨-, more, hrest, hmore⟩ := h
    obtain ⟨left, hleft, hback⟩ := ih hmore
    refine ⟨left, ?_, hback⟩
    rw [hrest, hleft, List.flatMap_cons, List.append_assoc]

theorem allPlaced_run {tags : Tags} {before rest : Text} {tokens : List Token} {start : Nat}
    (runs : before ≠ [] → Text.RunsTo tags.opening (before ++ rest) before)
    (more : AllPlaced (tags, none) rest tokens) :
    AllPlaced (tags, none) (before ++ rest) (run start before ++ tokens) := by
  by_cases hb : before = []
  · simpa [hb, run] using more
  · rw [run, if_neg (by simpa using hb), List.singleton_append]
    have here : Placed tags (before ++ rest) ⟨.text, before, start⟩ tokens :=
      ⟨fun _ => ⟨hb, runs hb⟩, fun h => absurd h (by simp)⟩
    exact ⟨here, rest, rfl, more⟩

theorem allPlaced_opening {tags : Tags} {inside : Text} {tokens : List Token} {start : Nat}
    (ends : ∀ body closing more, tokens = body :: closing :: more →
      Ends tags.closing inside body.kind body.raw closing.raw)
    (more : AllPlaced (tags, none) inside tokens) :
    AllPlaced (tags, none) (tags.opening ++ inside) (⟨.opening, tags.opening, start⟩ :: tokens) := by
  refine ⟨⟨nofun, fun _ => ⟨rfl, ?_⟩⟩, inside, rfl, more⟩
  intro inside' body closing more' hinside htokens
  rw [← List.append_cancel_left hinside]
  exact ends body closing more' htokens

/-- After the closing delimiter the next pair is in effect. -/
theorem allPlaced_inside {tags next : Tags} {rest : Text} {body closing : Token}
    {tokens : List Token} (hb : body.kind = .body ∨ body.kind = .change)
    (hc : closing.kind = .closing) (hn : nextTags body.kind body.raw tags = .ok next)
    (more : AllPlaced (next, none) rest tokens) :
    AllPlaced (tags, none) (body.raw ++ (closing.raw ++ rest)) (body :: closing :: tokens) := by
  have hfold := @foldl_effect_tag tags next ⟨.opening, tags.opening, 0⟩ body closing rfl hb hc hn
  have hbody : body.kind ≠ .text ∧ body.kind ≠ .opening := by
    rcases hb with hb | hb <;> simp [hb]
  refine ⟨placed_of_inner hbody.1 hbody.2, closing.raw ++ rest, rfl, ?_⟩
  refine ⟨placed_of_inner (by simp [hc]) (by simp [hc]), rest, rfl, ?_⟩
  have hpair : effect (effect (tags, none) body) closing = (next, none) := hfold
  rwa [hpair]

end Token

namespace Tokens

open Token

variable (source : Text) (tags : Tags) (start : Nat) (rest : Text)

theorem scanFrom_consecutive : Consecutive start (scanFrom source tags start rest).list := by
  refine scanFrom_induction source (motive := fun _ start _ tokens => Consecutive start tokens.list)
    ?invalid ?text ?malformed ?tag tags start rest
  case invalid =>
    intros
    trivial
  case text =>
    intro _ start rest _ _
    exact consecutive_run start rest
  case malformed =>
    intros
    simp [consecutive_append, consecutive_run, Consecutive]
  case tag =>
    intro _ _ _ _ _ _ _ _ _ _ _ _ more
    simpa [prepend, consecutive_append, consecutive_run, Consecutive, stop, Nat.add_assoc] using more

theorem scanFrom_covers : ∃ left,
    rest = (scanFrom source tags start rest).list.flatMap raw ++ left ∧
      ((scanFrom source tags start rest).failure = none → left = []) := by
  refine scanFrom_induction source (motive := fun _ _ rest tokens => ∃ left,
    rest = tokens.list.flatMap raw ++ left ∧ (tokens.failure = none → left = []))
    ?invalid ?text ?malformed ?tag tags start rest
  case invalid =>
    intro _ _ rest _
    exact ⟨rest, rfl, by simp⟩
  case text =>
    intro _ start rest _ _
    exact ⟨[], by simp, fun _ => rfl⟩
  case malformed =>
    intro tags start rest before inside fault _ opens _
    refine ⟨inside, ?_, by simp⟩
    simpa using Text.eq_append_of_breakAt? opens
  case tag =>
    intro tags start rest before inside found next tokens _ opens reads _ more
    obtain ⟨left, hleft, hnone⟩ := more
    refine ⟨left, ?_, hnone⟩
    have hrest := Text.eq_append_of_breakAt? opens
    have hinside := Inside.append_of_read? reads
    rw [hrest, hinside, hleft]
    simp [prepend]

theorem scanFrom_sentence (valid : tags.Valid) :
    TokenKind.Sentence (scanFrom source tags start rest).failure.isSome
      ((scanFrom source tags start rest).list.map kind) := by
  refine scanFrom_induction source (motive := fun tags _ _ tokens => tags.Valid →
    TokenKind.Sentence tokens.failure.isSome (tokens.list.map kind))
    ?invalid ?text ?malformed ?tag tags start rest valid
  case invalid =>
    intro _ _ _ invalid valid
    exact absurd valid invalid
  case text =>
    intro _ start rest _ _ _
    exact .last (kinds_run start rest)
  case malformed =>
    intro _ start _ before _ _ _ _ _ _
    simpa using TokenKind.Sentence.cutOff (kinds_run start before)
  case tag =>
    intro tags start rest before inside found next tokens valid opens reads changes more _
    have hmore := more (valid_of_nextTags valid changes)
    simpa [prepend] using
      TokenKind.Sentence.tag (kinds_run start before) (Inside.kind_of_read? reads) hmore

theorem scanFrom_allPlaced :
    AllPlaced (tags, none) rest (scanFrom source tags start rest).list := by
  refine scanFrom_induction source (motive := fun tags _ rest tokens =>
    AllPlaced (tags, none) rest tokens.list) ?invalid ?text ?malformed ?tag tags start rest
  case invalid =>
    intros
    trivial
  case text =>
    intro tags start rest _ none
    have hruns : Text.RunsTo tags.opening (rest ++ []) rest :=
      .inr ⟨by simp, by simpa using Text.breakAt?_eq_none_iff.1 none⟩
    have h : AllPlaced (tags, .none) (rest ++ []) (run start rest ++ []) :=
      allPlaced_run (fun _ => hruns) trivial
    simpa using h
  case malformed =>
    intro tags start rest before inside fault valid opens _
    have hfirst := Text.breakAt?_eq_some_iff.1 opens
    have hrest := hfirst.eq
    rw [hrest] at hfirst ⊢
    exact allPlaced_run (fun _ => .inl ⟨inside, hfirst⟩)
      (allPlaced_opening nofun trivial)
  case tag =>
    intro tags start rest before inside found next tokens valid opens reads changes more
    have hfirst := Text.breakAt?_eq_some_iff.1 opens
    have hrest := hfirst.eq
    have hinside := Inside.append_of_read? reads
    rw [hrest] at hfirst ⊢
    rw [prepend, List.append_assoc]
    refine allPlaced_run (fun _ => .inl ⟨inside, hfirst⟩) (allPlaced_opening ?_ ?_)
    · intro body closing more' h
      obtain ⟨hbody, h⟩ := List.cons.inj h
      obtain ⟨hclosing, -⟩ := List.cons.inj h
      rw [← hbody, ← hclosing]
      exact ends_of_read? reads
    · rw [hinside]
      exact @allPlaced_inside _ _ _ ⟨found.kind, found.body, _⟩ ⟨.closing, found.closing, _⟩ _
        (Inside.kind_of_read? reads) rfl changes more

theorem scanFrom_tags : (scanFrom source tags start rest).list.foldl effect (tags, none) =
    ((scanFrom source tags start rest).tags, none) := by
  refine scanFrom_induction source (motive := fun tags _ _ tokens =>
    tokens.list.foldl effect (tags, none) = (tokens.tags, none))
    ?invalid ?text ?malformed ?tag tags start rest
  case invalid =>
    intros
    rfl
  case text =>
    intro tags start rest _ _
    exact foldl_effect_run tags start rest
  case malformed =>
    intros
    rw [List.foldl_append, foldl_effect_run]
    rfl
  case tag =>
    intro tags start rest before inside found next tokens _ _ reads changes more
    rw [prepend, List.foldl_append, List.foldl_append, foldl_effect_run,
      foldl_effect_tag rfl (Inside.kind_of_read? reads) rfl changes, more]

/-- The body of a change that is scanned can be read. -/
theorem scanFrom_changes : ∀ token ∈ (scanFrom source tags start rest).list, token.kind = .change →
    ∃ next, Tags.ofChange token.raw = .ok next := by
  refine scanFrom_induction source (motive := fun _ _ _ tokens => ∀ token ∈ tokens.list,
    token.kind = .change → ∃ next, Tags.ofChange token.raw = .ok next)
    ?invalid ?text ?malformed ?tag tags start rest
  case invalid =>
    intro _ _ _ _ token h
    cases h
  case text =>
    intro _ start rest _ _ token h hkind
    exact absurd hkind (kind_ne_change_of_mem_run h)
  case malformed =>
    intro _ start _ before _ _ _ _ _ token h hkind
    rcases List.mem_append.1 h with h | h
    · exact absurd hkind (kind_ne_change_of_mem_run h)
    · rw [List.mem_singleton.1 h] at hkind
      cases hkind
  case tag =>
    intro _ start _ before _ found next tokens _ _ _ changes more token h hkind
    rw [prepend, List.mem_append, List.mem_append] at h
    rcases h with (h | h) | h
    · exact absurd hkind (kind_ne_change_of_mem_run h)
    · obtain rfl | rfl | rfl : token = _ ∨ token = _ ∨ token = _ := by simpa using h
      · cases hkind
      · rw [nextTags, if_pos hkind] at changes
        exact ⟨next, changes⟩
      · cases hkind
    · exact more token h hkind

/-- A scan that fails has just opened the tag that is broken. -/
theorem scanFrom_broken {error : Error} (valid : tags.Valid)
    (fails : (scanFrom source tags start rest).failure = some error) :
    ∃ front opening fault left, (scanFrom source tags start rest).list = front ++ [opening] ∧
      opening.kind = .opening ∧ error = .malformedAt source opening.start fault ∧
      rest = front.flatMap raw ++ (opening.raw ++ left) ∧
      Broken (inEffect tags front).closing left fault := by
  refine scanFrom_induction source (motive := fun tags _ rest tokens => tags.Valid →
    tokens.failure = some error → ∃ front opening fault left, tokens.list = front ++ [opening] ∧
      opening.kind = .opening ∧ error = .malformedAt source opening.start fault ∧
      rest = front.flatMap raw ++ (opening.raw ++ left) ∧
      Broken (inEffect tags front).closing left fault)
    ?invalid ?text ?malformed ?tag tags start rest valid fails
  case invalid =>
    intro _ _ _ invalid valid _
    exact absurd valid invalid
  case text =>
    intro _ _ _ _ _ _ fails
    cases fails
  case malformed =>
    intro tags start rest before inside fault _ opens malformed _ fails
    have hbroken : Broken tags.closing inside fault := by
      rcases malformed with ⟨unread, rfl⟩ | ⟨found, reads, faulty⟩
      · exact broken_of_unread unread
      · exact broken_of_fault reads faulty
    refine ⟨_, _, fault, inside, rfl, rfl, (Option.some.inj fails).symm, ?_, ?_⟩
    · simpa using Text.eq_append_of_breakAt? opens
    · rwa [inEffect, foldl_effect_run]
  case tag =>
    intro tags start rest before inside found next tokens valid opens reads changes more _ fails
    have hrest := Text.eq_append_of_breakAt? opens
    have hinside := Inside.append_of_read? reads
    obtain ⟨front, opening, fault, left, hlist, hkind, herror, hleft, hbroken⟩ :=
      more (valid_of_nextTags valid changes) fails
    refine ⟨run start before ++ [⟨.opening, tags.opening, start + before.size⟩,
      ⟨found.kind, found.body, start + before.size + tags.opening.size⟩,
      ⟨.closing, found.closing, start + before.size + tags.opening.size + found.body.size⟩] ++ front,
      opening, fault, left, ?_, hkind, herror, ?_, ?_⟩
    · simp [prepend, hlist]
    · rw [hrest, hinside, hleft]
      simp
    · rwa [inEffect, List.foldl_append, List.foldl_append, foldl_effect_run,
        foldl_effect_tag rfl (Inside.kind_of_read? reads) rfl changes]

variable {source tags}

/-- What a token that has come before the others leaves of the source. -/
theorem dropBytes_start {front back : List Token} {token : Token} {left : Text}
    (consecutive : Consecutive 0 (front ++ token :: back))
    (hsource : source = front.flatMap raw ++ left) : source.dropBytes token.start = left := by
  obtain ⟨-, hstart, -⟩ := consecutive_append.1 consecutive
  rw [hstart, Nat.zero_add, hsource, Text.dropBytes_size_append]

/-- A slice that can be cut, since tokens come before it and after it. -/
theorem cut?_of_consecutive {front back : List Token} {token : Token} {left : Text}
    (consecutive : Consecutive 0 (front ++ token :: back))
    (hsource : source = (front ++ token :: back).flatMap raw ++ left) :
    source.cut? token.start token.stop = some token.raw := by
  obtain ⟨-, hstart, -⟩ := consecutive_append.1 consecutive
  have hparts : source = front.flatMap raw ++ (token.raw ++ (back.flatMap raw ++ left)) := by
    simpa using hsource
  rw [stop, hstart, Nat.zero_add, hparts, Text.cut?_append]

variable (source tags)

/-- The source from the start of a token on, where the token and all that follow it are in place. -/
theorem placed_of_scan {front back : List Token} {token : Token}
    (hlist : (scan source tags).list = front ++ token :: back) :
    ∃ left, source = front.flatMap raw ++ left ∧ source.dropBytes token.start = left ∧
      AllPlaced (front.foldl effect (tags, none)) left (token :: back) := by
  have consecutive := scanFrom_consecutive source tags 0 source
  have placed := scanFrom_allPlaced source tags 0 source
  unfold scan at hlist
  rw [hlist] at consecutive placed
  obtain ⟨left, hleft, hplaced⟩ := placed.drop
  exact ⟨left, hleft, dropBytes_start consecutive hleft, hplaced⟩

theorem ends_of_scan {front back : List Token} {opening body closing : Token}
    (hlist : (scan source tags).list = front ++ opening :: body :: closing :: back)
    (hkind : opening.kind = .opening) :
    Ends (inEffect tags front).closing (source.dropBytes body.start) body.kind body.raw
      closing.raw := by
  have consecutive := scanFrom_consecutive source tags 0 source
  obtain ⟨more, hmore, -, hplaced, inside, hinside, -⟩ := placed_of_scan source tags hlist
  have hbody : source = (front ++ [opening]).flatMap raw ++ inside := by
    rw [hmore, hinside]
    simp
  have hsplit : front ++ opening :: body :: closing :: back =
      (front ++ [opening]) ++ body :: closing :: back := by
    simp
  unfold scan at hlist
  rw [hlist, hsplit] at consecutive
  rw [dropBytes_start consecutive hbody]
  exact (hplaced.2 hkind).2 inside body closing back hinside rfl

theorem broken_of_scan {error : Error} (valid : tags.Valid)
    (fails : (scan source tags).failure = some error) :
    ∃ front opening fault, (scan source tags).list = front ++ [opening] ∧
      opening.kind = .opening ∧ error = .malformedAt source opening.start fault ∧
      Broken (inEffect tags front).closing (source.dropBytes opening.stop) fault := by
  have consecutive := scanFrom_consecutive source tags 0 source
  obtain ⟨front, opening, fault, inside, hlist, hkind, hfault, hinside, hbroken⟩ :=
    scanFrom_broken source tags 0 source valid fails
  refine ⟨front, opening, fault, hlist, hkind, hfault, ?_⟩
  rw [hlist] at consecutive
  obtain ⟨-, hstart, -⟩ := consecutive_append.1 consecutive
  have hdrop : source.dropBytes opening.stop = inside := by
    rw [hinside, ← List.append_assoc, stop, hstart, Nat.zero_add, ← Text.size_append,
      Text.dropBytes_size_append]
  rwa [hdrop]

theorem Partition.of_scan : Partition source tags (scan source tags) := by
  have consecutive := scanFrom_consecutive source tags 0 source
  obtain ⟨left, hsource, hleft⟩ := scanFrom_covers source tags 0 source
  constructor
  case consecutive => exact consecutive
  case slices =>
    intro token hmem
    obtain ⟨front, back, hlist⟩ := List.append_of_mem hmem
    unfold scan at hlist
    rw [hlist] at consecutive hsource
    exact cut?_of_consecutive consecutive hsource
  case covers => exact ⟨left, hsource, hleft⟩
  case invalid =>
    intro invalid
    rw [scan, scanFrom_of_invalid invalid]
    exact ⟨rfl, rfl⟩
  case sentence => exact scanFrom_sentence source tags 0 source
  case runs =>
    intro front token back hlist hkind
    obtain ⟨more, -, hdrop, hplaced, -⟩ := placed_of_scan source tags hlist
    exact hdrop ▸ hplaced.1 hkind
  case openings =>
    intro front token back hlist hkind
    obtain ⟨more, -, -, hplaced, -⟩ := placed_of_scan source tags hlist
    exact (hplaced.2 hkind).1
  case ends => exact fun _ _ _ _ _ => ends_of_scan source tags
  case changes =>
    intro token hmem hkind
    obtain ⟨next, hnext⟩ := scanFrom_changes source tags 0 source token hmem hkind
    obtain ⟨names, hbody, hwords⟩ := Tags.ofChange_eq_ok_iff_words.1 hnext
    refine ⟨names, next.opening, next.closing, hbody, hwords, ?_⟩
    rw [named, hnext]
  case fails => exact fun valid _ => broken_of_scan source tags valid
  case final => exact congrArg Prod.fst (scanFrom_tags source tags 0 source).symm
  case lineStarts =>
    have hstarts := lineStarts_eq_map [] left consecutive
    rw [List.nil_append, ← hsource] at hstarts
    exact hstarts

/-- The tokens of a source make it up. A scanner that cuts them off one by one, and would stop
without an answer if a cut failed, yields them, then the failure if there is one, then nothing for
ever. -/
theorem scan_partition :
    Scanner.Answers source (.start tags) (scan source tags).items (scan source tags).tags ∧
      Partition source tags (scan source tags) :=
  ⟨@Scanner.answers_scanFrom source tags [] source rfl, Partition.of_scan source tags⟩

end Tokens
end Stencil
