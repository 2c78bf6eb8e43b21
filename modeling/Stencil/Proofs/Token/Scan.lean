import Stencil.Proofs.Text.Occurrence
import Stencil.Token

/-!
# Scans case by case

How a tag is read after its opening delimiter, and what a scan yields in each case: no tag is left,
a tag is malformed, or a tag comes before the scan of the rest.
-/

namespace Stencil

namespace Token.Inside

variable {closing rest : Text} {found : Token.Inside}

theorem read?_of_equals {t : Text} (h : rest.trimStart = '=' :: t) :
    read? closing rest = (Text.breakAt? ('=' :: closing) t).map fun (body, after) =>
      ⟨.change, rest.leading ++ '=' :: body ++ ['='], closing, after⟩ := by
  simp only [read?, h]

theorem read?_of_brace {t : Text} (h : rest.trimStart = '{' :: t) :
    read? closing rest = (Text.breakAt? ('}' :: closing) t).map fun (body, after) =>
      ⟨.body, rest.leading ++ '{' :: body, '}' :: closing, after⟩ := by
  simp only [read?, h]

theorem read?_of_plain (he : ∀ t, rest.trimStart ≠ '=' :: t) (hb : ∀ t, rest.trimStart ≠ '{' :: t) :
    read? closing rest =
      (Text.breakAt? closing rest).map fun (body, after) => ⟨.body, body, closing, after⟩ := by
  unfold read?
  split
  · exact absurd ‹_› (he _)
  · exact absurd ‹_› (hb _)
  · rfl

/-- A tag is read alike whatever follows it. -/
theorem read?_append_other (side : Tags.IsSide closing)
    (h : read? closing rest = some found) (other : Text) :
    read? closing (found.body ++ (found.closing ++ other)) = some { found with rest := other } := by
  unfold read? at h
  split at h
  · rename_i t ht
    obtain ⟨⟨body, after⟩, hb, rfl⟩ := Option.map_eq_some_iff.1 h
    have hrest : rest.leading ++ '=' :: body ++ ['='] ++ (closing ++ other) =
        rest.leading ++ '=' :: (body ++ (('=' :: closing) ++ other)) := by
      simp
    have hlead := Text.leading_append_cons rest (show Text.isBlank '=' = false by decide)
      (body ++ (('=' :: closing) ++ other))
    rw [hrest, read?, hlead.2, hlead.1]
    simp only [Text.breakAt?_append_other hb, Option.map_some]
  · rename_i t ht
    obtain ⟨⟨body, after⟩, hb, rfl⟩ := Option.map_eq_some_iff.1 h
    have hrest : rest.leading ++ '{' :: body ++ ('}' :: closing ++ other) =
        rest.leading ++ '{' :: (body ++ (('}' :: closing) ++ other)) := by
      simp
    have hlead := Text.leading_append_cons rest (show Text.isBlank '{' = false by decide)
      (body ++ (('}' :: closing) ++ other))
    rw [hrest, read?, hlead.2, hlead.1]
    simp only [Text.breakAt?_append_other hb, Option.map_some]
  · rename_i he hb'
    obtain ⟨⟨body, after⟩, hb, rfl⟩ := Option.map_eq_some_iff.1 h
    obtain ⟨d, side', rfl⟩ := List.exists_cons_of_ne_nil side.1
    have hd : Text.isBlank d = false := side.2 d (List.mem_cons_self ..)
    -- The first character that is not blank comes before the end of the tag.
    have hfirst : ∀ c t, Text.trimStart (body ++ (d :: side' ++ other)) = c :: t →
        ∃ u, rest.trimStart = c :: u := by
      intro c t ht
      rw [Text.eq_append_of_breakAt? hb]
      exact Text.trimStart_eq_cons_of_append hd ht
    rw [read?_of_plain, Text.breakAt?_append_other hb]
    · rfl
    · intro t ht
      obtain ⟨u, hu⟩ := hfirst _ _ ht
      exact he u hu
    · intro t ht
      obtain ⟨u, hu⟩ := hfirst _ _ ht
      exact hb' u hu

theorem kind_of_read? (h : read? closing rest = some found) :
    found.kind = .body ∨ found.kind = .change := by
  simp only [read?] at h
  split at h
  all_goals
    obtain ⟨⟨_, _⟩, -, rfl⟩ := Option.map_eq_some_iff.1 h
    simp

theorem closing_of_read? (h : read? closing rest = some found) :
    found.closing = closing ∨ found.closing = '}' :: closing := by
  simp only [read?] at h
  split at h
  all_goals
    obtain ⟨⟨_, _⟩, -, rfl⟩ := Option.map_eq_some_iff.1 h
    simp

end Token.Inside

/-- A change can only name a pair that is valid. -/
theorem Token.valid_of_nextTags {kind : TokenKind} {body : Text} {tags next : Tags}
    (valid : tags.Valid) (h : Token.nextTags kind body tags = .ok next) : next.Valid := by
  unfold nextTags at h
  split at h
  · exact Tags.valid_of_ofChange h
  · cases h
    exact valid

namespace Tokens

variable {source : Text} {tags : Tags} {start : Nat} {rest : Text}

theorem scanFrom_of_none (valid : tags.Valid) (h : Text.breakAt? tags.opening rest = none) :
    scanFrom source tags start rest = ⟨Token.run start rest, none, tags⟩ := by
  rw [scanFrom, dif_pos valid]
  split
  · rfl
  · rename_i hb
    simp [h] at hb

/-- A pair that cannot delimit anything ends the scan. -/
theorem scanFrom_of_invalid (invalid : ¬ tags.Valid) :
    scanFrom source tags start rest = ⟨[], some (.malformedAt source 0 (.invalidTags tags)), tags⟩ := by
  rw [scanFrom, dif_neg invalid]

section

variable {before inside : Text} {found : Token.Inside} {next : Tags} {fault : Fault}

/-- After an opening delimiter the tag tells how the scan goes on. -/
theorem scanFrom_of_opening (valid : tags.Valid)
    (opens : Text.breakAt? tags.opening rest = some (before, inside)) :
    scanFrom source tags start rest =
      let front := Token.run start before ++ [⟨.opening, tags.opening, start + before.size⟩]
      let failing fault : Tokens := ⟨front, some (.malformedAt source (start + before.size) fault), tags⟩
      match Token.Inside.read? tags.closing inside with
      | none => failing .unclosedTag
      | some found =>
        match Token.nextTags found.kind found.body tags with
        | .error fault => failing fault
        | .ok next =>
          (scanFrom source next (start + before.size + tags.opening.size + found.body.size +
            found.closing.size) found.rest).prepend (front ++
              [⟨found.kind, found.body, start + before.size + tags.opening.size⟩,
                ⟨.closing, found.closing,
                  start + before.size + tags.opening.size + found.body.size⟩]) := by
  rw [scanFrom, dif_pos valid]
  split
  · rename_i hb
    simp [opens] at hb
  · rename_i hb
    obtain ⟨rfl, rfl⟩ : before = _ ∧ inside = _ := by simpa [opens] using hb
    split
    · rename_i ht
      rw [ht]
    · rename_i ht
      rw [ht]
      rfl

theorem scanFrom_of_tag (valid : tags.Valid)
    (opens : Text.breakAt? tags.opening rest = some (before, inside))
    (reads : Token.Inside.read? tags.closing inside = some found)
    (changes : Token.nextTags found.kind found.body tags = .ok next) :
    scanFrom source tags start rest =
      (scanFrom source next (start + before.size + tags.opening.size + found.body.size +
        found.closing.size) found.rest).prepend
        (Token.run start before ++ [⟨.opening, tags.opening, start + before.size⟩,
          ⟨found.kind, found.body, start + before.size + tags.opening.size⟩,
          ⟨.closing, found.closing, start + before.size + tags.opening.size + found.body.size⟩]) := by
  simp only [scanFrom_of_opening valid opens, reads, changes, List.append_assoc, List.cons_append,
    List.nil_append]

/-- A tag that is not closed ends the scan. -/
theorem scanFrom_of_unclosed (valid : tags.Valid)
    (opens : Text.breakAt? tags.opening rest = some (before, inside))
    (unclosed : Token.Inside.read? tags.closing inside = none) :
    scanFrom source tags start rest =
      ⟨Token.run start before ++ [⟨.opening, tags.opening, start + before.size⟩],
        some (.malformedAt source (start + before.size) .unclosedTag), tags⟩ := by
  simp only [scanFrom_of_opening valid opens, unclosed]

/-- A change that names no pair ends the scan. -/
theorem scanFrom_of_fault (valid : tags.Valid)
    (opens : Text.breakAt? tags.opening rest = some (before, inside))
    (reads : Token.Inside.read? tags.closing inside = some found)
    (faulty : Token.nextTags found.kind found.body tags = .error fault) :
    scanFrom source tags start rest =
      ⟨Token.run start before ++ [⟨.opening, tags.opening, start + before.size⟩],
        some (.malformedAt source (start + before.size) fault), tags⟩ := by
  simp only [scanFrom_of_opening valid opens, reads, faulty]

end

/-- What holds of each way in which a scan can end, and goes on from the rest after a tag to the
whole, holds of every scan. The rest after a tag is shorter. -/
theorem scanFrom_induction (source : Text) {motive : Tags → Nat → Text → Tokens → Prop}
    (invalid : ∀ {tags start rest}, ¬ tags.Valid →
      motive tags start rest ⟨[], some (.malformedAt source 0 (.invalidTags tags)), tags⟩)
    (text : ∀ {tags start rest}, tags.Valid → Text.breakAt? tags.opening rest = none →
      motive tags start rest ⟨Token.run start rest, none, tags⟩)
    (malformed : ∀ {tags start rest before inside fault}, tags.Valid →
      Text.breakAt? tags.opening rest = some (before, inside) →
      (Token.Inside.read? tags.closing inside = none ∧ fault = .unclosedTag ∨
        ∃ found, Token.Inside.read? tags.closing inside = some found ∧
          Token.nextTags found.kind found.body tags = .error fault) →
      motive tags start rest
        ⟨Token.run start before ++ [⟨.opening, tags.opening, start + before.size⟩],
          some (.malformedAt source (start + before.size) fault), tags⟩)
    (tag : ∀ {tags start rest before inside found next tokens}, tags.Valid →
      Text.breakAt? tags.opening rest = some (before, inside) →
      Token.Inside.read? tags.closing inside = some found →
      Token.nextTags found.kind found.body tags = .ok next →
      motive next (start + before.size + tags.opening.size + found.body.size + found.closing.size)
        found.rest tokens →
      motive tags start rest (tokens.prepend
        (Token.run start before ++ [⟨.opening, tags.opening, start + before.size⟩,
          ⟨found.kind, found.body, start + before.size + tags.opening.size⟩,
          ⟨.closing, found.closing, start + before.size + tags.opening.size + found.body.size⟩])))
    (tags : Tags) (start : Nat) (rest : Text) :
    motive tags start rest (scanFrom source tags start rest) := by
  induction hn : rest.length using Nat.strongRecOn generalizing tags start rest with
  | ind n ih =>
    by_cases valid : tags.Valid
    · cases opens : Text.breakAt? tags.opening rest with
      | none =>
        rw [scanFrom_of_none valid opens]
        exact text valid opens
      | some cut =>
        obtain ⟨before, inside⟩ := cut
        cases reads : Token.Inside.read? tags.closing inside with
        | none =>
          rw [scanFrom_of_unclosed valid opens reads]
          exact malformed valid opens (.inl ⟨reads, rfl⟩)
        | some found =>
          cases changes : Token.nextTags found.kind found.body tags with
          | error fault =>
            rw [scanFrom_of_fault valid opens reads changes]
            exact malformed valid opens (.inr ⟨found, reads, changes⟩)
          | ok next =>
            have h₁ := Text.length_lt_of_breakAt? valid.opening_ne_nil opens
            have h₂ := Token.Inside.length_le_of_read? reads
            rw [scanFrom_of_tag valid opens reads changes]
            exact tag valid opens reads changes (ih _ (by omega) _ _ _ rfl)
    · rw [scanFrom_of_invalid valid]
      exact invalid valid

end Tokens
end Stencil
