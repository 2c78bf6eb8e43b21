import Stencil.Text.Basic

/-!
# Traced texts

A text of which it is told, character by character, whether it stands on a line that has been padded.
Where lines keep the margin, each starts with it, unless its first character is loose.
-/

namespace Stencil

/-- Where one is on a line of an included text: at the start of a line that is padded, further on in
it, or where there is no padding. -/
inductive Footing
  | start
  | within
  | loose
  deriving DecidableEq

/-- Characters, each with whether it is loose. -/
abbrev Traced := List (Char × Bool)

namespace Footing

/-- After a character; lines that start then have the footing `fresh`. -/
def step (fresh footing : Footing) (c : Char) : Footing :=
  if c = '\n' then fresh else if footing = .start then .within else footing

/-- A carriage return at the start of a padded line is alone on it, so there is no padding. -/
def isLoose (footing : Footing) (c : Char) : Bool :=
  footing = .loose || footing = .start && c = '\r'

/-- The characters of a text that starts with a footing. -/
def trace (fresh : Footing) : Footing → Text → Traced
  | _, [] => []
  | footing, c :: t => (c, footing.isLoose c) :: trace fresh (step fresh footing c) t

/-- The footing after a text. -/
def after (fresh footing : Footing) (t : Text) : Footing :=
  t.foldl (step fresh) footing

variable {fresh footing : Footing} {s t : Text}

@[simp] theorem map_fst_trace : (trace fresh footing t).map Prod.fst = t := by
  induction t generalizing footing with
  | nil => rfl
  | cons c t ih => simp [trace, ih]

theorem trace_append :
    trace fresh footing (s ++ t) = trace fresh footing s ++ trace fresh (after fresh footing s) t := by
  induction s generalizing footing with
  | nil => rfl
  | cons c s ih => simp [trace, ih, after]

theorem after_append : after fresh footing (s ++ t) = after fresh (after fresh footing s) t :=
  List.foldl_append

@[simp] theorem after_loose : after .loose .loose t = .loose := by
  induction t with
  | nil => rfl
  | cons c t ih => simpa [after, step] using ih

theorem after_of_no_feed (h : '\n' ∉ t) : after fresh footing t =
    if t = [] then footing else if footing = .start then .within else footing := by
  induction t generalizing footing with
  | nil => rfl
  | cons c t ih =>
    rw [List.mem_cons, not_or] at h
    rw [after, List.foldl_cons, ← after, ih h.2, step, if_neg (Ne.symm h.1)]
    cases footing <;> simp

theorem ne_feed_of_mem_trace (h : '\n' ∉ t) (entry : Char × Bool) (he : entry ∈ trace fresh footing t) :
    entry.1 ≠ '\n' := by
  rintro hn
  refine h ?_
  rw [← hn, ← @map_fst_trace fresh footing t]
  exact List.mem_map_of_mem he

/-- Nothing is padded where the footing is loose. -/
theorem of_mem_trace_loose (h : fresh = .loose ∨ '\n' ∉ t) {entry : Char × Bool}
    (he : entry ∈ trace fresh .loose t) : entry.2 = true := by
  induction t with
  | nil => cases he
  | cons c t ih =>
    rcases List.mem_cons.1 he with rfl | he
    · rfl
    · refine ih (h.imp_right fun hc ht => hc (List.mem_cons_of_mem _ ht)) ?_
      rcases h with rfl | hc
      · simpa [step] using he
      · have hne : c ≠ '\n' := fun hn => hc (hn ▸ List.mem_cons_self ..)
        simpa [step, hne] using he

end Footing

namespace Traced

variable {margin : Text} {fresh : Bool} {front back : Traced}

/-- Lines keep the margin, except where they start with a loose character; `fresh` says that one
starts here. -/
def Keeps (margin : Text) : (fresh : Bool) → Traced → Prop
  | _, [] => True
  | fresh, (c, loose) :: rest =>
    (fresh = true → c ≠ '\n' → loose = true ∨ margin <+: c :: rest.map Prod.fst) ∧
      Keeps margin (c = '\n') rest

/-- Whether a line starts after these characters. -/
def endsLine (fresh : Bool) (traced : Traced) : Bool :=
  (traced.getLast?.map fun entry => decide (entry.1 = '\n')).getD fresh

theorem endsLine_cons (entry : Char × Bool) (rest : Traced) :
    endsLine fresh (entry :: rest) = endsLine (entry.1 = '\n') rest := by
  cases rest with
  | nil => rfl
  | cons next rest =>
    rw [endsLine, endsLine, List.getLast?_cons_cons, List.getLast?_cons, Option.map_some,
      Option.getD_some, Option.getD_some]

theorem endsLine_append :
    endsLine fresh (front ++ back) = endsLine (endsLine fresh front) back := by
  induction front generalizing fresh with
  | nil => rfl
  | cons entry rest ih => rw [List.cons_append, endsLine_cons, endsLine_cons, ih]

theorem Keeps.append (h : Keeps margin fresh front)
    (hb : Keeps margin (endsLine fresh front) back) : Keeps margin fresh (front ++ back) := by
  induction front generalizing fresh with
  | nil => exact hb
  | cons entry rest ih =>
    rw [endsLine_cons] at hb
    refine ⟨fun hf hc => (h.1 hf hc).imp_right fun hp => hp.trans ?_, ih h.2 hb⟩
    rw [show rest.append back = rest ++ back from rfl, List.map_append]
    exact List.prefix_append (entry.1 :: _) _

theorem Keeps.of_fresh (h : Keeps margin true front) : Keeps margin fresh front := by
  cases front with
  | nil => trivial
  | cons entry rest => exact ⟨fun _ => h.1 rfl, h.2⟩

theorem keeps_of_loose (h : ∀ entry ∈ front, entry.2 = true) : Keeps margin fresh front := by
  induction front generalizing fresh with
  | nil => trivial
  | cons entry rest ih =>
    exact ⟨fun _ _ => .inl (h entry (List.mem_cons_self ..)),
      ih fun other ho => h other (List.mem_cons_of_mem _ ho)⟩

theorem endsLine_of_no_feed (h : ∀ entry ∈ front, entry.1 ≠ '\n') : endsLine false front = false := by
  rw [endsLine]
  cases hl : front.getLast? with
  | none => rfl
  | some entry => simpa using h entry (List.mem_of_getLast? hl)

/-- On a line that has started there is nothing to keep. -/
theorem keeps_of_no_feed (h : ∀ entry ∈ front, entry.1 ≠ '\n') : Keeps margin false front := by
  induction front with
  | nil => trivial
  | cons entry rest ih =>
    refine ⟨nofun, ?_⟩
    rw [decide_eq_false (h entry (List.mem_cons_self ..))]
    exact ih fun other ho => h other (List.mem_cons_of_mem _ ho)

/-- The lines of what has been traced. -/
def lines (traced : Traced) : List Traced :=
  traced.splitOnP fun entry => entry.1 = '\n'

theorem lines_cons (entry : Char × Bool) (rest : Traced) : ∃ line others,
    lines rest = line :: others ∧
      lines (entry :: rest) = if entry.1 = '\n' then [] :: line :: others else (entry :: line) :: others := by
  obtain ⟨line, others, hl⟩ := List.exists_cons_of_ne_nil
    (List.splitOnP_ne_nil (fun entry : Char × Bool => decide (entry.1 = '\n')) rest)
  refine ⟨line, others, hl, ?_⟩
  rw [lines, List.splitOnP_cons_eq_if_modifyHead, hl]
  by_cases hc : entry.1 = '\n' <;> simp [hc]

/-- A line keeps the margin if it holds nothing, or starts with a loose character or the margin. -/
def LineKeeps (margin : Text) (line : Traced) : Prop :=
  ∀ c loose rest, line = (c, loose) :: rest → loose = true ∨ margin <+: line.map Prod.fst

theorem prefix_line (no_feed : '\n' ∉ margin) {traced line : Traced} {others : List Traced}
    (hl : lines traced = line :: others) (h : margin <+: traced.map Prod.fst) :
    margin <+: line.map Prod.fst := by
  induction traced generalizing margin line others with
  | nil =>
    obtain rfl : margin = [] := by simpa using h
    exact List.nil_prefix
  | cons entry rest ih =>
    obtain ⟨next, more, hrest, hlines⟩ := lines_cons entry rest
    rw [hl] at hlines
    cases margin with
    | nil => exact List.nil_prefix
    | cons c margin =>
      rw [List.mem_cons, not_or] at no_feed
      rw [List.map_cons, List.cons_prefix_cons] at h
      rw [if_neg fun hn => no_feed.1 (hn.symm.trans h.1.symm), List.cons.injEq] at hlines
      rw [hlines.1, List.map_cons, List.cons_prefix_cons]
      exact ⟨h.1, ih no_feed.2 hrest h.2⟩

theorem Keeps.lines (no_feed : '\n' ∉ margin) {traced : Traced} (h : Keeps margin fresh traced) :
    ∃ line others, traced.lines = line :: others ∧ (fresh = true → LineKeeps margin line) ∧
      ∀ other ∈ others, LineKeeps margin other := by
  induction traced generalizing fresh with
  | nil => exact ⟨[], [], rfl, nofun, nofun⟩
  | cons entry rest ih =>
    obtain ⟨line, others, hl, hline, hothers⟩ := ih h.2
    obtain ⟨line', others', hl', hlines⟩ := lines_cons entry rest
    obtain ⟨rfl, rfl⟩ : line = line' ∧ others = others' := by simpa [hl] using hl'
    by_cases hc : entry.1 = '\n'
    · rw [if_pos hc] at hlines
      refine ⟨[], line :: others, hlines, nofun, ?_⟩
      simpa using ⟨hline (by simpa using hc), hothers⟩
    · rw [if_neg hc] at hlines
      refine ⟨entry :: line, others, hlines, fun hf c loose more he => ?_, hothers⟩
      cases he
      exact (h.1 hf hc).imp_right fun hp => prefix_line no_feed hlines hp

end Traced
end Stencil
