import Stencil.Indent
import Stencil.Proofs.Template.Standalone
import Stencil.Proofs.Text.Words

/-!
# Padding character by character

Padding a text puts the same blanks after each line feed, unless the line that starts there is
empty. It goes through what a scan asks of a text: first occurrences, blanks at the ends, words.
-/

namespace Stencil
namespace Indent

/-- Whether the first line of a text is empty. -/
def startsEmpty : Text → Bool
  | [] => true
  | ['\r'] => true
  | '\n' :: _ => true
  | '\r' :: '\n' :: _ => true
  | _ => false

/-- What is put before a text that starts a line. -/
def lead (padding t : Text) : Text :=
  if startsEmpty t then [] else padding

/-- The text when the lines that start in it are padded; `after` follows it. -/
def pad (padding after : Text) : Text → Text
  | [] => []
  | c :: t => c :: ((if c = '\n' then lead padding (t ++ after) else []) ++ pad padding after t)

variable {padding after t : Text}

@[simp] theorem pad_nil : pad padding after [] = [] := rfl

theorem pad_feed : pad padding after ('\n' :: t) =
    '\n' :: (lead padding (t ++ after) ++ pad padding after t) := rfl

theorem pad_cons {c : Char} (h : c ≠ '\n') :
    pad padding after (c :: t) = c :: pad padding after t := by
  simp [pad, h]

theorem pad_append (padding after s t : Text) :
    pad padding after (s ++ t) = pad padding (t ++ after) s ++ pad padding after t := by
  induction s with
  | nil => rfl
  | cons c s ih => simp [pad, ih]

theorem pad_of_no_feed (h : '\n' ∉ t) : pad padding after t = t := by
  induction t with
  | nil => rfl
  | cons c t ih =>
    rw [List.mem_cons, not_or] at h
    rw [pad_cons (Ne.symm h.1), ih h.2]

theorem startsEmpty_cons {c : Char} (h : c ≠ '\n') :
    startsEmpty (c :: t) = (c = '\r' && (t = [] || t.head? = some '\n')) := by
  cases t with
  | nil => by_cases hc : c = '\r' <;> simp_all [startsEmpty]
  | cons d t => by_cases hc : c = '\r' <;> by_cases hd : d = '\n' <;> simp_all [startsEmpty]

section

variable {c : Char} {first : Bool}

theorem exists_lines (t : Text) : ∃ line lines, t.splitAtChar '\n' = line :: lines ∧
    isEmptyLine line = startsEmpty t := by
  induction t with
  | nil => exact ⟨[], [], rfl, rfl⟩
  | cons c t ih =>
    obtain ⟨line, lines, hlines, hempty⟩ := ih
    by_cases hc : c = '\n'
    · subst hc
      exact ⟨[], line :: lines, by simp [Text.splitAtChar, Text.splitWhere, ← hlines], rfl⟩
    · rw [Text.splitAtChar] at hlines
      refine ⟨c :: line, lines, by simp [Text.splitAtChar, Text.splitWhere, hc, hlines], ?_⟩
      have hline : line = [] ↔ t = [] ∨ t.head? = some '\n' := by
        cases t with
        | nil => simp_all [Text.splitWhere]
        | cons d t =>
          by_cases hd : d = '\n'
          · simp_all [Text.splitWhere]
          · obtain ⟨run, runs, hruns⟩ := List.exists_cons_of_ne_nil
              (Text.splitWhere_ne_nil (· == '\n') t)
            have hline : d :: run = line := by simp_all [Text.splitWhere]
            simp [← hline, hd]
      rw [startsEmpty_cons hc, isEmptyLine]
      by_cases hr : c = '\r' <;> by_cases hl : line = [] <;> simp_all

theorem apply_feed : (Indent.mk padding first).apply ('\n' :: t) =
    '\n' :: (Indent.mk padding true).apply t := by
  obtain ⟨line, lines, hlines, -⟩ := exists_lines t
  have hsplit : Text.splitAtChar '\n' ('\n' :: t) = [] :: line :: lines := by
    simp [Text.splitAtChar, Text.splitWhere, ← hlines]
  rw [apply, apply, hsplit, hlines]
  cases first <;> simp [padLines, padLine, isEmptyLine, List.intercalate]

theorem apply_cons (h : c ≠ '\n') : (Indent.mk padding false).apply (c :: t) =
    c :: (Indent.mk padding false).apply t := by
  obtain ⟨line, lines, hlines, -⟩ := exists_lines t
  have hsplit : Text.splitAtChar '\n' (c :: t) = (c :: line) :: lines := by
    rw [Text.splitAtChar] at hlines
    simp [Text.splitAtChar, Text.splitWhere, h, hlines]
  rw [apply, apply, hsplit, hlines]
  cases lines <;> simp [padLines, List.intercalate]

/-- The first line is padded before the others. -/
theorem apply_first : (Indent.mk padding true).apply t =
    lead padding t ++ (Indent.mk padding false).apply t := by
  obtain ⟨line, lines, hlines, hempty⟩ := exists_lines t
  rw [apply, apply, hlines, lead, ← hempty]
  by_cases he : isEmptyLine line = true <;>
    cases lines <;> simp [padLines, padLine, he, List.intercalate]

end

/-- Lines are padded where they start. -/
theorem apply_rest (padding t : Text) : (Indent.mk padding false).apply t = pad padding [] t := by
  induction t with
  | nil => rfl
  | cons c t ih =>
    by_cases hc : c = '\n'
    · subst hc
      rw [apply_feed, apply_first, ih, pad_feed, List.append_nil]
    · rw [apply_cons hc, ih, pad_cons hc]

theorem apply_eq_pad (padding : Text) (first : Bool) (t : Text) :
    (Indent.mk padding first).apply t =
      (if first then lead padding t else []) ++ pad padding [] t := by
  cases first with
  | false => exact apply_rest padding t
  | true => rw [apply_first, apply_rest, if_pos rfl]

end Indent

theorem Line.isBlank_iff {t : Text} : isBlank t = true ↔ ∀ c ∈ t, c = ' ' ∨ c = '\t' := by
  simp [isBlank]

/-- The narrow blanks are blanks and end no line. -/
theorem Line.of_mem_blank {t : Text} (h : isBlank t = true) {c : Char} (hc : c ∈ t) :
    Text.isBlank c = true ∧ c ≠ '\n' ∧ c ≠ '\r' ∧ c ≠ '=' := by
  rcases isBlank_iff.1 h c hc with rfl | rfl <;> decide

/-- Blanks in front put off the first occurrence of what holds none. -/
theorem Tags.IsSide.breakAt?_blanks {mark blanks : Text} (side : IsSide mark)
    (h : blanks.all Text.isBlank = true) (t : Text) :
    Text.breakAt? mark (blanks ++ t) = (Text.breakAt? mark t).map fun (front, back) =>
      (blanks ++ front, back) := by
  have hapart : ∀ c ∈ blanks, c ∉ mark := by
    intro c hc hm
    have := List.all_eq_true.1 h c hc
    simp [side.2 c hm] at this
  refine Text.breakAt?_append (fun c hc => hapart c (List.mem_of_getLast? hc)) ?_
  rw [Text.breakAt?_eq_none_iff]
  intro a b hab
  obtain ⟨m, mark', hmark⟩ := List.exists_cons_of_ne_nil side.1
  exact hapart m (by simp [hab, hmark]) (by simp [hmark])

namespace Indent

section

variable {padding after t mark : Text} (blank : Line.isBlank padding = true)
include blank

theorem isBlank_lead (t : Text) : Line.isBlank (lead padding t) = true := by
  unfold lead
  split
  · rfl
  · exact blank

theorem all_isBlank_lead (t : Text) : (lead padding t).all Text.isBlank = true :=
  List.all_eq_true.2 fun _ hd => (Line.of_mem_blank (isBlank_lead blank t) hd).1

theorem all_isBlank_feed_lead (t : Text) :
    ('\n' :: lead padding t).all Text.isBlank = true := by
  rw [List.all_cons, all_isBlank_lead blank]
  decide

/-- Blanks stay blanks. -/
theorem all_isBlank_pad (h : t.all Text.isBlank = true) :
    (pad padding after t).all Text.isBlank = true := by
  induction t with
  | nil => rfl
  | cons c t ih =>
    rw [List.all_cons, Bool.and_eq_true] at h
    by_cases hc : c = '\n'
    · subst hc
      rw [pad_feed, ← List.cons_append, List.all_append, all_isBlank_feed_lead blank, ih h.2]
      rfl
    · simp [pad_cons hc, ih h.2, h.1]

omit blank in
/-- A mark without a line feed is met at the front or not, as before. -/
theorem after?_pad (no_feed : '\n' ∉ mark) :
    Text.after? mark (pad padding after t) = (Text.after? mark t).map (pad padding after) := by
  induction mark generalizing t with
  | nil => rfl
  | cons m mark ih =>
    rw [List.mem_cons, not_or] at no_feed
    cases t with
    | nil => rfl
    | cons c t =>
      by_cases hm : m = c
      · subst hm
        rw [pad_cons (Ne.symm no_feed.1)]
        simp [Text.after?, ih no_feed.2]
      · simp [pad, Text.after?, hm]

/-- A mark that holds no blank is first met where it was. -/
theorem breakAt?_pad (side : Tags.IsSide mark) :
    Text.breakAt? mark (pad padding after t) = (Text.breakAt? mark t).map fun (front, back) =>
      (pad padding (mark ++ (back ++ after)) front, pad padding after back) := by
  obtain ⟨m, mark', hmark⟩ := List.exists_cons_of_ne_nil side.1
  have hfeed : '\n' ∉ mark := fun h => absurd (side.2 _ h) (by decide)
  induction t with
  | nil => simp [Text.breakAt?, hmark]
  | cons c t ih =>
    by_cases hc : c = '\n'
    · subst hc
      have hm : m ≠ '\n' := fun h => hfeed (by simp [hmark, h])
      have hfind : Text.after? mark ('\n' :: t) = none := by simp [hmark, Text.after?, hm]
      have hlead : ('\n' :: lead padding (t ++ after)).all Text.isBlank = true :=
        all_isBlank_feed_lead blank _
      rw [pad_feed, ← List.cons_append, side.breakAt?_blanks hlead, ih, Text.breakAt?, hfind]
      cases hb : Text.breakAt? mark t with
      | none => rfl
      | some cut =>
        have ht := Text.eq_append_of_breakAt? hb
        simp [pad_feed, ht]
    · rw [pad_cons hc, Text.breakAt?, Text.breakAt?, ← pad_cons hc, after?_pad hfeed, ih]
      cases Text.after? mark (c :: t) with
      | some back => rfl
      | none =>
        cases Text.breakAt? mark t with
        | none => rfl
        | some cut => simp [pad_cons hc]

theorem trimStart_pad : Text.trimStart (pad padding after t) = pad padding after t.trimStart ∧
    Text.leading (pad padding after t) = pad padding (t.trimStart ++ after) t.leading := by
  have hsplit := pad_append padding after t.leading t.trimStart
  rw [Text.leading_append_trimStart] at hsplit
  have hblanks : (pad padding (t.trimStart ++ after) t.leading).all Text.isBlank = true :=
    all_isBlank_pad blank List.all_takeWhile
  cases ht : t.trimStart with
  | nil =>
    rw [ht, pad_nil, List.append_nil] at hsplit
    rw [ht] at hblanks
    rw [hsplit, pad_nil]
    exact ⟨Text.trimStart_of_blank hblanks, Text.leading_of_blank hblanks⟩
  | cons c u =>
    have hc := Text.isBlank_of_trimStart ht
    have hfeed : c ≠ '\n' := by
      rintro rfl
      exact absurd hc (by decide)
    rw [hsplit, ht, pad_cons hfeed]
    rw [ht] at hblanks
    exact (Text.leading_blanks hblanks hc _).symm

omit blank in
/-- What comes after a character that is no blank has no say in the lines before it. -/
theorem pad_of_solid {d : Char} (hd : Text.isBlank d = false) (after other t : Text) :
    pad padding (d :: after) t = pad padding (d :: other) t := by
  have hfeed : d ≠ '\n' ∧ d ≠ '\r' := by
    constructor <;> rintro rfl <;> exact absurd hd (by decide)
  have hempty : ∀ t, startsEmpty (t ++ d :: after) = startsEmpty (t ++ d :: other) := by
    intro t
    cases t with
    | nil => simp [startsEmpty_cons hfeed.1, hfeed.2]
    | cons c t =>
      by_cases hc : c = '\n'
      · subst hc
        rfl
      · rw [List.cons_append, List.cons_append, startsEmpty_cons hc, startsEmpty_cons hc]
        cases t <;> simp
  induction t with
  | nil => rfl
  | cons c t ih => simp [pad, lead, hempty, ih]

theorem trimEnd_pad : Text.trimEnd (pad padding after t) = pad padding [] t.trimEnd := by
  have hsplit := pad_append padding after t.trimEnd t.trailing
  rw [Text.trimEnd_append_trailing] at hsplit
  have hblanks : (pad padding after t.trailing).all Text.isBlank = true :=
    all_isBlank_pad blank Text.all_isBlank_trailing
  rcases Text.trimEnd_cases t with ht | ⟨s, d, ht, hd⟩
  · rw [hsplit, ht, pad_nil, List.nil_append, Text.trimEnd_of_blank hblanks, pad_nil]
  · have hfeed : d ≠ '\n' := by
      rintro rfl
      exact absurd hd (by decide)
    have hlast : ∀ after, pad padding after (s ++ [d]) = pad padding [d] s ++ [d] := by
      intro after
      rw [pad_append, pad_cons hfeed, pad_nil, List.singleton_append, pad_of_solid hd after []]
    rw [hsplit, ht, hlast, hlast, List.append_assoc, List.singleton_append,
      Text.trimEnd_append_blanks _ hd hblanks]

/-- A text is padded inside of the blanks around it. -/
theorem trim_pad : Text.trim (pad padding after t) = pad padding [] t.trim := by
  rw [Text.trim, (trimStart_pad blank).1, trimEnd_pad blank, Text.trim]

omit blank in
theorem startsEmpty_cases (h : startsEmpty t = true) :
    t = [] ∨ ∃ c u, t = c :: u ∧ (c = '\n' ∨ c = '\r') := by
  cases t with
  | nil => exact .inl rfl
  | cons c u =>
    by_cases hc : c = '\n'
    · exact .inr ⟨c, u, rfl, .inl hc⟩
    · rw [startsEmpty_cons hc] at h
      simp only [Bool.and_eq_true, decide_eq_true_eq] at h
      exact .inr ⟨c, u, rfl, .inr h.1⟩

/-- An empty line is not taken for a padded one. -/
theorem startsEmpty_of_append {s : Text} (ne_nil : padding ≠ [])
    (h : pad padding [] t = padding ++ s) : startsEmpty t = false := by
  obtain ⟨d, rest, rfl⟩ := List.exists_cons_of_ne_nil ne_nil
  obtain ⟨-, hfeed, hreturn, -⟩ := Line.of_mem_blank blank (List.mem_cons_self ..)
  by_contra hempty
  rw [Bool.not_eq_false] at hempty
  rcases startsEmpty_cases hempty with rfl | ⟨c, u, rfl, hc⟩
  · simp at h
  · have hd : c = d := (List.cons.inj h).1
    rcases hc with hc | hc
    · exact hfeed (hd ▸ hc)
    · exact hreturn (hd ▸ hc)

theorem lead_eq_of_append {s : Text}
    (h : lead padding t ++ pad padding [] t = lead padding s ++ pad padding [] s) :
    lead padding t = lead padding s := by
  by_cases hp : padding = []
  · simp [lead, hp]
  · cases ht : startsEmpty t <;> cases hs : startsEmpty s <;> simp only [lead, ht, hs] at h ⊢
    · simp [startsEmpty_of_append blank hp h.symm] at hs
    · simp [startsEmpty_of_append blank hp h] at ht

/-- Different texts stay different. -/
theorem pad_inj {s : Text} (h : pad padding [] t = pad padding [] s) : t = s := by
  induction t generalizing s with
  | nil =>
    cases s with
    | nil => rfl
    | cons d s => simp [pad] at h
  | cons c t ih =>
    cases s with
    | nil => simp [pad] at h
    | cons d s =>
      obtain rfl : c = d := (List.cons.inj h).1
      by_cases hc : c = '\n'
      · subst hc
        rw [pad_feed, pad_feed, List.append_nil, List.append_nil] at h
        have hrest := (List.cons.inj h).2
        rw [lead_eq_of_append blank hrest] at hrest
        rw [ih (List.append_cancel_left hrest)]
      · rw [pad_cons hc, pad_cons hc] at h
        rw [ih (List.cons.inj h).2]

/-- Padding parts no words. -/
theorem words_pad : Text.words (pad padding after t) = t.words := by
  have hwords : ∀ s, Text.words (s ++ pad padding after t) = Text.words (s ++ t) := by
    induction t with
    | nil =>
      intro s
      rfl
    | cons c t ih =>
      intro s
      by_cases hc : c = '\n'
      · subst hc
        rw [pad_feed, Text.words_append_blank s _ (by decide), Text.words_append_blank s _ (by decide),
          Text.words_blanks_append (all_isBlank_lead blank _)]
        exact congrArg _ (ih [])
      · have hone := ih (s ++ [c])
        rw [pad_cons hc]
        simpa using hone
  simpa using hwords []

end

end Indent
end Stencil
