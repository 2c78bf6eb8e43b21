import Stencil.Proofs.Template.Reading

/-!
# Nestings

The trees of events without the machine that builds them: texts join, a tag that is neither of a
section's two gives its node, and the tags of a section enclose a tree of the events between them.
-/

namespace Stencil

/-- A tag that neither opens nor closes a section. -/
def Sigil.isSingle : Sigil → Bool
  | .block | .inverted | .close => false
  | _ => true

def Sigil.opens : Sigil → Bool
  | .block | .inverted => true
  | _ => false

namespace PlacedTag

/-- What a tag by itself adds to the nodes. -/
def single (placed : PlacedTag) (indent : Indent) : List Node :=
  match placed.tag.sigil with
  | .escaped => [.interpolation (.parse placed.tag.name) true placed.span]
  | .ampersand | .triple => [.interpolation (.parse placed.tag.name) false placed.span]
  | .inclusion => [.inclusion placed.tag.name indent placed.span]
  | .comment => [.comment placed.tag.name]
  | _ => []

/-- The section between two tags of a source. -/
def enclose (source : Text) (opener closer : PlacedTag) (children : List Node) : Node :=
  .block (.parse opener.tag.name) (opener.tag.sigil = .inverted) children
    (.mk fun _ => source.slice opener.span.stop closer.span.start) opener.tags
    ⟨opener.span.start, closer.span.stop⟩

end PlacedTag

def EndsInText (nodes : List Node) : Prop :=
  ∃ front t, nodes = front ++ [.text t]

/-- These events, and no section around them, make up these nodes. -/
inductive Nested (source : Text) : List Event → List Node → Prop
  | nil : Nested source [] []
  | text {events : List Event} {nodes : List Node} (t : Text) (fresh : ¬ EndsInText nodes)
    (front : Nested source events nodes) :
    Nested source (events ++ [.text t]) (nodes ++ [.text t])
  | more {events : List Event} {nodes : List Node} (u t : Text)
    (front : Nested source events (nodes ++ [.text u])) :
    Nested source (events ++ [.text t]) (nodes ++ [.text (u ++ t)])
  | single {events : List Event} {nodes : List Node} {placed : PlacedTag} (indent : Indent)
    (single : placed.tag.sigil.isSingle = true) (front : Nested source events nodes) :
    Nested source (events ++ [.tag placed indent]) (nodes ++ placed.single indent)
  | block {events inner : List Event} {nodes children : List Node} {opener closer : PlacedTag}
    (i j : Indent) (opens : opener.tag.sigil.opens = true) (closes : closer.tag.sigil = .close)
    (named : opener.tag.name = closer.tag.name) (front : Nested source events nodes)
    (within : Nested source inner children) :
    Nested source (events ++ .tag opener i :: (inner ++ [.tag closer j]))
      (nodes ++ [opener.enclose source closer children])

namespace Builder

variable {source : Text} {b built : Builder source}

/-- No text is a node as long as another may join it. -/
def Clean (b : Builder source) : Prop :=
  ∀ t nodes, b.nodes ≠ .text t :: nodes

theorem clean_empty : (empty source).Clean := by
  simp [Clean, empty]

theorem gathered_of_isEmpty (h : b.texts = []) : b.gathered = b.nodes := by
  simp [gathered, h]

theorem gathered_of_texts {t : Text} {texts : List Text} (h : b.texts = t :: texts) :
    b.gathered = .text (t :: texts).reverse.flatten :: b.nodes := by
  simp [gathered, h]

theorem endsInText_iff (h : b.Clean) : EndsInText b.gathered.reverse ↔ b.texts ≠ [] := by
  have hends : EndsInText b.gathered.reverse ↔ ∃ t nodes, b.gathered = .text t :: nodes := by
    constructor
    · rintro ⟨front, t, hf⟩
      exact ⟨t, front.reverse, by simpa using congrArg List.reverse hf⟩
    · rintro ⟨t, nodes, hg⟩
      exact ⟨nodes.reverse, t, by simp [hg]⟩
  rw [hends]
  cases ht : b.texts with
  | nil =>
    rw [gathered_of_isEmpty ht]
    simpa [Clean] using h
  | cons t texts => simp [gathered_of_texts ht]

theorem step_text (t : Text) : b.step (.text t) = .ok { b with texts := t :: b.texts } := rfl

/-- A text comes after a node that is none. -/
theorem gathered_text_of_fresh {t : Text} (clean : b.Clean)
    (fresh : ¬ EndsInText b.gathered.reverse) :
    ({ b with texts := t :: b.texts } : Builder source).gathered.reverse =
      b.gathered.reverse ++ [.text t] := by
  have ht : b.texts = [] := by simpa [endsInText_iff clean] using fresh
  rw [gathered_of_texts rfl, gathered_of_isEmpty ht]
  simp [ht]

/-- A text joins the text before it. -/
theorem gathered_text_of_more {nodes : List Node} {u t : Text} (clean : b.Clean)
    (hg : b.gathered.reverse = nodes ++ [.text u]) :
    ({ b with texts := t :: b.texts } : Builder source).gathered.reverse =
      nodes ++ [.text (u ++ t)] := by
  have htexts : b.texts ≠ [] := (endsInText_iff clean).1 ⟨nodes, u, hg⟩
  obtain ⟨last, texts, htexts⟩ := List.exists_cons_of_ne_nil htexts
  rw [gathered_of_texts htexts, List.reverse_cons] at hg
  obtain ⟨hnodes, hlast⟩ := List.append_inj' hg rfl
  obtain rfl : texts.reverse.flatten ++ last = u := by simpa using hlast
  rw [gathered_of_texts rfl, List.reverse_cons, hnodes, htexts]
  simp

/-- A single tag adds its nodes. -/
theorem step_single {placed : PlacedTag} (indent : Indent)
    (h : placed.tag.sigil.isSingle = true) (clean : b.Clean) :
    ∃ built, b.step (.tag placed indent) = .ok built ∧ built.opened = b.opened ∧
      built.gathered.reverse = b.gathered.reverse ++ placed.single indent ∧ built.Clean := by
  have hpush : ∀ node, (∀ t, node ≠ .text t) → (b.push node).Clean := by
    intro node hn t nodes
    simp only [push, ne_eq, List.cons.injEq, not_and]
    exact fun he => absurd he (hn t)
  have hgathered : ∀ node, (b.push node).gathered.reverse = b.gathered.reverse ++ [node] := by
    intro node
    rw [gathered_of_isEmpty rfl]
    simp [push]
  cases hs : placed.tag.sigil with
  | block | inverted | close => simp [hs, Sigil.isSingle] at h
  | delimiters => exact ⟨b, by simp [step, hs], rfl, by simp [PlacedTag.single, hs], clean⟩
  | escaped | ampersand | triple | inclusion | comment =>
    simp only [step, hs, PlacedTag.single]
    exact ⟨_, rfl, rfl, hgathered _, hpush _ (by simp)⟩

theorem step_opens {placed : PlacedTag} {indent : Indent} (h : placed.tag.sigil.opens = true) :
    b.step (.tag placed indent) = .ok (b.enter placed) := by
  cases hs : placed.tag.sigil with
  | block | inverted => simp [step, hs]
  | _ => simp [hs, Sigil.opens] at h

/-- The state after the innermost section has been closed. -/
def leave (b : Builder source) (innermost : OpenSection source)
    (outer : List (OpenSection source)) (closer : PlacedTag) : Builder source :=
  ⟨innermost.placed.enclose source closer b.gathered.reverse :: innermost.before, [], outer,
    b.cursor⟩

theorem gathered_leave {innermost : OpenSection source} {outer : List (OpenSection source)}
    {closer : PlacedTag} :
    (b.leave innermost outer closer).gathered.reverse = innermost.before.reverse ++
      [innermost.placed.enclose source closer b.gathered.reverse] := by
  rw [gathered_of_isEmpty rfl]
  simp [leave]

theorem clean_leave {innermost : OpenSection source} {outer : List (OpenSection source)}
    {closer : PlacedTag} : (b.leave innermost outer closer).Clean := by
  simp [Clean, leave, PlacedTag.enclose]

theorem step_close {innermost : OpenSection source} {outer : List (OpenSection source)}
    {placed : PlacedTag} {indent : Indent} (hs : placed.tag.sigil = .close)
    (ho : b.opened = innermost :: outer) (hn : innermost.placed.tag.name = placed.tag.name) :
    b.step (.tag placed indent) = .ok (b.leave innermost outer placed) := by
  simp [step, hs, close, ho, hn, leave, OpenSection.block_eq, PlacedTag.enclose]

/-- A closing tag goes through only if it names the innermost section. -/
theorem of_step_close {placed : PlacedTag} {indent : Indent} (hs : placed.tag.sigil = .close)
    (h : b.step (.tag placed indent) = .ok built) :
    ∃ innermost outer, b.opened = innermost :: outer ∧
      innermost.placed.tag.name = placed.tag.name ∧ built = b.leave innermost outer placed := by
  have hc : b.close placed = .ok built := by simpa [step, hs] using h
  unfold close at hc
  split at hc
  · cases hc
  · rename_i innermost outer ho
    by_cases hn : innermost.placed.tag.name = placed.tag.name
    · rw [step_close hs ho hn] at h
      cases h
      exact ⟨innermost, outer, ho, hn, rfl⟩
    · simp [hn] at hc

theorem run_cons (e : Event) (events : List Event) :
    b.run (e :: events) = b.step e >>= fun built => built.run events := by
  simp [run, List.foldlM_cons]

theorem run_snoc {events : List Event} (h : b.run events = .ok built) (e : Event) :
    b.run (events ++ [e]) = built.step e := by
  rw [run_append, h]
  change built.run [e] = built.step e
  rw [run_cons]
  cases built.step e <;> rfl

/-- Nested events are read from the start of a section without leaving it. -/
theorem run_of_nested {events : List Event} {nodes : List Node} (h : Nested source events nodes)
    (hn : b.nodes = []) (ht : b.texts = []) :
    ∃ built, b.run events = .ok built ∧ built.opened = b.opened ∧
      built.gathered.reverse = nodes ∧ built.Clean := by
  induction h generalizing b with
  | nil => exact ⟨b, rfl, rfl, by simp [gathered_of_isEmpty ht, hn], by simp [Clean, hn]⟩
  | text t fresh _ ih =>
    obtain ⟨built, hr, ho, rfl, hc⟩ := ih hn ht
    exact ⟨_, (run_snoc hr _).trans (step_text t), ho, gathered_text_of_fresh hc fresh, hc⟩
  | more u t _ ih =>
    obtain ⟨built, hr, ho, hg, hc⟩ := ih hn ht
    exact ⟨_, (run_snoc hr _).trans (step_text t), ho, gathered_text_of_more hc hg, hc⟩
  | single indent single _ ih =>
    obtain ⟨built, hr, ho, rfl, hc⟩ := ih hn ht
    obtain ⟨after, hs, ho', hg', hc'⟩ := step_single indent single hc
    exact ⟨after, (run_snoc hr _).trans hs, ho'.trans ho, hg', hc'⟩
  | @block events inner nodes children opener closer i j opens closes named _ _ ihf ihw =>
    obtain ⟨front, hr, ho, rfl, hc⟩ := ihf hn ht
    obtain ⟨built, hr', ho', rfl, -⟩ := @ihw (front.enter opener) rfl rfl
    have hopen : b.run (events ++ .tag opener i :: (inner ++ [.tag closer j])) =
        (front.enter opener).run (inner ++ [.tag closer j]) := by
      rw [run_append, hr]
      change front.run _ = _
      rw [run_cons, step_opens opens]
      rfl
    rw [hopen, run_snoc hr', step_close closes ho' named]
    exact ⟨_, rfl, ho, gathered_leave, clean_leave⟩

/-- The events read so far, when these nodes have come after the last of the opening tags that still
wait for their closing tags. -/
inductive Reads (source : Text) : List Event → List Node → List (OpenSection source) → Prop
  | top {events : List Event} {nodes : List Node} (within : Nested source events nodes) :
    Reads source events nodes []
  | inside {events inner : List Event} {nodes : List Node} {opened : OpenSection source}
    {outer : List (OpenSection source)} (i : Indent)
    (opens : opened.placed.tag.sigil.opens = true)
    (front : Reads source events opened.before.reverse outer)
    (within : Nested source inner nodes) :
    Reads source (events ++ .tag opened.placed i :: inner) nodes (opened :: outer)

/-- What goes on in a section goes on in the whole. -/
theorem Reads.grow {events more : List Event} {nodes after : List Node}
    {opened : List (OpenSection source)} (h : Reads source events nodes opened)
    (grows : ∀ inner, Nested source inner nodes → Nested source (inner ++ more) after) :
    Reads source (events ++ more) after opened := by
  cases h with
  | top within => exact .top (grows _ within)
  | inside i opens front within =>
    rw [List.append_assoc, List.cons_append]
    exact .inside i opens front (grows _ within)

theorem Reads.step {events : List Event} {e : Event} (clean : b.Clean)
    (h : Reads source events b.gathered.reverse b.opened) (hs : b.step e = .ok built) :
    Reads source (events ++ [e]) built.gathered.reverse built.opened ∧ built.Clean := by
  cases e with
  | text t =>
    cases hs
    refine ⟨h.grow fun inner hi => ?_, clean⟩
    by_cases fresh : EndsInText b.gathered.reverse
    · obtain ⟨nodes, u, hg⟩ := fresh
      rw [gathered_text_of_more clean hg]
      exact .more u t (hg ▸ hi)
    · rw [gathered_text_of_fresh clean fresh]
      exact .text t fresh hi
  | tag placed indent =>
    by_cases single : placed.tag.sigil.isSingle = true
    · obtain ⟨after, hs', ho, hg, hc⟩ := step_single indent single clean
      obtain rfl : after = built := by simpa [hs'] using hs
      rw [ho, hg]
      exact ⟨h.grow fun inner hi => .single indent single hi, hc⟩
    · by_cases opens : placed.tag.sigil.opens = true
      · rw [step_opens opens] at hs
        cases hs
        refine ⟨@Reads.inside _ _ _ _ ⟨placed, b.gathered, _, _⟩ _ indent opens h .nil, ?_⟩
        simp [Clean, enter]
      · have closes : placed.tag.sigil = .close := by
          cases hp : placed.tag.sigil <;> simp_all [Sigil.isSingle, Sigil.opens]
        obtain ⟨innermost, outer, ho, hn, rfl⟩ := of_step_close closes hs
        rw [ho] at h
        rw [gathered_leave]
        cases h with
        | inside i opens front within =>
          refine ⟨?_, clean_leave⟩
          rw [List.append_assoc, List.cons_append]
          exact front.grow fun inner hi => .block i indent opens closes hn hi within

theorem Reads.run {events more : List Event} (clean : b.Clean)
    (h : Reads source events b.gathered.reverse b.opened) (hr : b.run more = .ok built) :
    Reads source (events ++ more) built.gathered.reverse built.opened := by
  induction more generalizing b events with
  | nil =>
    cases hr
    simpa using h
  | cons e more ih =>
    rw [run_cons] at hr
    cases hs : b.step e with
    | error fault =>
      rw [hs] at hr
      cases hr
    | ok next =>
      rw [hs] at hr
      obtain ⟨hn, hc⟩ := h.step clean hs
      simpa using ih hc hn hr

/-- The tree of events is their nesting. -/
theorem build_eq_ok_iff {events : List Event} {nodes : List Node} :
    build source events = .ok nodes ↔ Nested source events nodes := by
  constructor
  · intro h
    unfold build at h
    cases hr : (empty source).run events with
    | error fault =>
      rw [hr] at h
      cases h
    | ok built =>
      rw [hr] at h
      change built.finish = .ok nodes at h
      have hreads : Reads source events built.gathered.reverse built.opened :=
        Reads.run clean_empty (.top .nil) hr
      unfold finish at h
      split at h
      · rename_i ho
        cases h
        rw [ho] at hreads
        cases hreads with
        | top within => exact within
      · cases h
  · intro h
    obtain ⟨built, hr, ho, hg, -⟩ := run_of_nested (b := empty source) h rfl rfl
    rw [build, hr]
    change built.finish = .ok nodes
    rw [finish, show built.opened = [] from ho, hg]

end Builder

/-- A source compiles to the nestings of the lines that it is read in. -/
theorem Template.compile_eq_ok_iff_nested {source : Text} {tags : Tags} {nodes : List Node} :
    compile source tags = .ok nodes ↔
      ∃ pieces, Reading tags 0 source pieces ∧ Nested source (Piece.events pieces) nodes := by
  simp only [compile_eq_ok_iff, Builder.build_eq_ok_iff]

end Stencil
