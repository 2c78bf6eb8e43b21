import Stencil.Proofs.Plan.Causes
import Stencil.Proofs.Template.Margin
import Stencil.Proofs.Text.Traced

/-!
# The indentation law

A partial tag that stands alone pads each line of the text that it includes, and these texts hand the
padding on. It gets lost on the rest of a line behind a partial tag that shares the line: what the
tag brings may end with a line feed, and only the first tag of a line hands padding on, to the lines
after the first. Characters that stand there are loose. All other lines keep the margin.
-/

namespace Stencil

namespace Render

section
variable (setting : Setting) (included : Footing → Footing → Text → Traced) (fresh : Footing)

/-- The footing after a node. A tag that stands alone takes its line with it. -/
def footingAfter (footing : Footing) : Node → Footing
  | .text t => Footing.after fresh footing t
  | .inclusion _ indent _ => if indent.firstLine then fresh else .loose
  | _ => footing

/-- The characters of a text, or of what a partial tag includes. The lines of the included text are
padded if the tag's line is, the first of them if the tag stands alone. -/
def traceNode (footing : Footing) : Node → Traced
  | .text t => Footing.trace fresh footing t
  | .inclusion name indent _ =>
    match setting.partials name with
    | none => []
    | some source =>
      if footing = .loose then included .loose .loose (indent.apply source)
      else included .start (if indent.firstLine then .start else .loose) (indent.apply source)
  | _ => []

def traceNodes : Footing → List Node → Traced
  | _, [] => []
  | footing, n :: ns =>
    traceNode setting included fresh footing n ++ traceNodes (footingAfter fresh footing n) ns

end

/-- The characters that a source of text and partial tags comes to, where partials nest at most so
deep. It starts with a footing, and its further lines with the footing `fresh`. -/
def traced (setting : Setting) : (fuel : Nat) → (fresh footing : Footing) → Text → Traced
  | 0, _, _, _ => []
  | fuel + 1, fresh, footing, source =>
    match Template.compile source setting.tags with
    | .ok nodes => traceNodes setting (traced setting fuel) fresh footing nodes
    | .error _ => []

section
variable {setting : Setting} {included : Footing → Footing → Text → Traced} {fresh footing : Footing}
  {front back nodes : List Node}

theorem traceNodes_append : traceNodes setting included fresh footing (front ++ back) =
    traceNodes setting included fresh footing front ++
      traceNodes setting included fresh (front.foldl (footingAfter fresh) footing) back := by
  induction front generalizing footing with
  | nil => rfl
  | cons n ns ih => simp [traceNodes, ih]

theorem traceNodes_single (n : Node) :
    traceNodes setting included fresh footing [n] = traceNode setting included fresh footing n := by
  simp [traceNodes]

end

/-- What an event by itself adds to the nodes. -/
def eventNodes : Event → List Node
  | .text t => [.text t]
  | .tag placed indent => placed.single indent

/-- The characters that events come to. -/
def traceEvents (setting : Setting) (included : Footing → Footing → Text → Traced)
    (fresh footing : Footing) (events : List Event) : Traced :=
  traceNodes setting included fresh footing (events.flatMap eventNodes)

/-- The footing after events. -/
def eventsAfter (fresh footing : Footing) (events : List Event) : Footing :=
  (events.flatMap eventNodes).foldl (footingAfter fresh) footing

section
variable {setting : Setting} {included : Footing → Footing → Text → Traced} {fresh footing : Footing}
  {front back : List Event}

theorem traceEvents_append : traceEvents setting included fresh footing (front ++ back) =
    traceEvents setting included fresh footing front ++
      traceEvents setting included fresh (eventsAfter fresh footing front) back := by
  rw [traceEvents, List.flatMap_append, traceNodes_append]
  rfl

theorem eventsAfter_append : eventsAfter fresh footing (front ++ back) =
    eventsAfter fresh (eventsAfter fresh footing front) back := by
  rw [eventsAfter, List.flatMap_append, List.foldl_append]
  rfl

theorem traceEvents_text (t : Text) :
    traceEvents setting included fresh footing [.text t] = Footing.trace fresh footing t := by
  simp [traceEvents, eventNodes, traceNodes, traceNode]

theorem eventsAfter_text (t : Text) :
    eventsAfter fresh footing [.text t] = Footing.after fresh footing t := rfl

/-- Without sections, nodes come to what their events come to. -/
theorem traceNodes_of_nested {source : Text} {events : List Event} {nodes : List Node}
    (h : Nested source events nodes)
    (plain : ∀ placed ∈ Event.tags events, placed.tag.sigil = .inclusion) :
    traceNodes setting included fresh footing nodes =
        traceEvents setting included fresh footing events ∧
      nodes.foldl (footingAfter fresh) footing = eventsAfter fresh footing events := by
  induction h with
  | nil => exact ⟨rfl, rfl⟩
  | @text events nodes t _ _ ih =>
    obtain ⟨htrace, hafter⟩ := ih fun placed hp => plain placed (by simp [hp])
    rw [traceNodes_append, traceEvents_append, htrace, hafter, traceEvents_text, traceNodes_single,
      List.foldl_append, eventsAfter_append, hafter]
    exact ⟨rfl, rfl⟩
  | @more events nodes u t _ ih =>
    obtain ⟨htrace, hafter⟩ := ih fun placed hp => plain placed (by simp [hp])
    rw [List.foldl_append, List.foldl_cons, List.foldl_nil] at hafter
    rw [traceNodes_append, traceNodes_single] at htrace
    rw [traceNodes_append, traceEvents_append, ← htrace, ← hafter, traceEvents_text,
      traceNodes_single, List.foldl_append, eventsAfter_append, ← hafter, eventsAfter_text]
    simp only [traceNode, footingAfter, List.foldl_cons, List.foldl_nil, Footing.trace_append,
      Footing.after_append, List.append_assoc, and_self]
  | @single events nodes placed indent _ _ ih =>
    obtain ⟨htrace, hafter⟩ := ih fun other hp => plain other (by simp [hp])
    rw [traceNodes_append, traceEvents_append, htrace, hafter, List.foldl_append,
      eventsAfter_append, hafter]
    simp [traceEvents, eventsAfter, eventNodes]
  | block i j opens _ _ _ _ _ _ =>
    rw [plain _ (by simp)] at opens
    cases opens

end

/-- The texts of siblings are one after the other. -/
theorem gives_together {host : Host} {siblings : List (Context → Plan Text)} {context : Context}
    {t : Text} : (together siblings context).Gives host t ↔
      ∃ ts : List Text, List.Forall₂ (fun plan text => (plan context).Gives host text) siblings ts ∧
        t = ts.flatten := by
  simp only [← Plan.gives_each (f := fun plan : Context → Plan Text => plan context)]
  exact Plan.gives_bind

/-- A text, or a partial tag with blanks for padding. -/
def IsPlain : Node → Prop
  | .text _ => True
  | .inclusion _ indent _ => Line.isBlank indent.padding = true
  | _ => False

/-- A source of text and partial tags compiles to such nodes. -/
theorem isPlain_of_nested {source : Text} {pieces : List Piece} {nodes : List Node}
    (h : Nested source (Piece.events pieces) nodes)
    (plain : ∀ placed ∈ Piece.tags pieces, placed.tag.sigil = .inclusion) {n : Node} (hn : n ∈ nodes) :
    IsPlain n := by
  have hplain : ∀ placed indent, .tag placed indent ∈ Piece.events pieces →
      placed.tag.sigil = .inclusion := by
    intro placed indent he
    refine plain placed ?_
    rw [← Piece.tags_events]
    exact List.mem_filterMap.2 ⟨_, he, rfl⟩
  cases h.origin (.here hn) with
  | text t => trivial
  | @single placed indent node mem single =>
    rw [PlacedTag.single, hplain placed indent mem, List.mem_singleton] at single
    subst single
    rcases List.mem_append.1 mem with he | he
    · obtain ⟨line, -, he⟩ := List.mem_flatMap.1 he
      exact Line.isBlank_of_mem_events he
    · exact Line.isBlank_of_mem_events he
  | block bracketed opens _ _ =>
    obtain ⟨front, i, j, back, he⟩ := bracketed
    rw [hplain _ i (by simp [he])] at opens
    cases opens

section
variable {host : Host} {setting : Setting} {context : Context}
  (plain : ∀ name source, setting.partials name = some source →
    Template.OnlyPartials source setting.tags)

/-- A node comes to what is traced of it, if the sources that it includes do. -/
theorem map_fst_traceNode {fuel n : Nat} {node : Node} {t : Text} (hn : IsPlain node)
    (hincluded : ∀ (name source : Text) (indent : Indent), setting.partials name = some source →
      Line.isBlank indent.padding = true → ∀ fresh footing t,
      (expanding setting fuel (indent.apply source) setting.tags context).Gives host t →
      (traced setting fuel fresh footing (indent.apply source)).map Prod.fst = t)
    (h : (Render.node n setting (expanding setting fuel) node context).Gives host t)
    (fresh footing : Footing) :
    (traceNode setting (traced setting fuel) fresh footing node).map Prod.fst = t := by
  cases node with
  | text u =>
    cases h
    exact Footing.map_fst_trace
  | inclusion name indent span =>
    cases hp : setting.partials name with
    | none =>
      simp only [Render.node, hp] at h
      cases h
      simp [traceNode, hp]
    | some source =>
      simp only [Render.node, hp] at h
      simp only [traceNode, hp]
      split
      · exact hincluded name source indent hp hn _ _ t h
      · exact hincluded name source indent hp hn _ _ t h
  | comment | interpolation | block => exact hn.elim

include plain in
/-- A source comes to what is traced of it. -/
theorem map_fst_traced (fuel : Nat) {name source : Text} {indent : Indent}
    (hp : setting.partials name = some source) (blank : Line.isBlank indent.padding = true)
    (fresh footing : Footing) {t : Text}
    (h : (expanding setting fuel (indent.apply source) setting.tags context).Gives host t) :
    (traced setting fuel fresh footing (indent.apply source)).map Prod.fst = t := by
  induction fuel generalizing name source indent fresh footing t with
  | zero => exact h.elim
  | succ fuel ih =>
    obtain ⟨ns, hc, h⟩ := h
    replace h : (text setting fuel ns context).Gives host t := h
    rw [text_eq] at h
    obtain ⟨ts, hts, rfl⟩ := gives_together.1 h
    obtain ⟨pieces, -, hnested, htags, -⟩ := (plain name source hp).exists_reading blank hc
    have hall : ∀ n ∈ ns, IsPlain n := fun n hn => isPlain_of_nested hnested htags hn
    simp only [traced, hc]
    clear h hc hnested
    induction ns generalizing ts footing with
    | nil =>
      cases hts
      rfl
    | cons n ns ihn =>
      cases hts with
      | cons hfirst hrest =>
        have hn := map_fst_traceNode (hall n (List.mem_cons_self ..))
          (fun name source indent hp blank fresh footing t => ih hp blank fresh footing) hfirst
          fresh footing
        rw [traceNodes, List.map_append, List.flatten_cons, hn,
          ihn _ _ hrest fun m hm => hall m (List.mem_cons_of_mem _ hm)]

end

section
variable {setting : Setting} {included : Footing → Footing → Text → Traced} {margin : Text}
  {items : List Item} {indent : Indent}
  (plain : Line.Plain items)
  (hloose : ∀ source, ∀ entry ∈ included .loose .loose source, entry.2 = true)

theorem traceEvents_text_cons (fresh footing : Footing) (t : Text) (events : List Event) :
    traceEvents setting included fresh footing (.text t :: events) =
      Footing.trace fresh footing t ++
        traceEvents setting included fresh (Footing.after fresh footing t) events := rfl

theorem eventsAfter_text_cons (fresh footing : Footing) (t : Text) (events : List Event) :
    eventsAfter fresh footing (.text t :: events) =
      eventsAfter fresh (Footing.after fresh footing t) events := rfl

theorem traceEvents_inclusion_cons {placed : PlacedTag} (h : placed.tag.sigil = .inclusion)
    (indent : Indent) (fresh footing : Footing) (events : List Event) :
    traceEvents setting included fresh footing (.tag placed indent :: events) =
      traceNode setting included fresh footing (.inclusion placed.tag.name indent placed.span) ++
        traceEvents setting included fresh (if indent.firstLine then fresh else .loose) events := by
  simp [traceEvents, eventNodes, PlacedTag.single, h, traceNodes, footingAfter]

theorem eventsAfter_inclusion_cons {placed : PlacedTag} (h : placed.tag.sigil = .inclusion)
    (indent : Indent) (fresh footing : Footing) (events : List Event) :
    eventsAfter fresh footing (.tag placed indent :: events) =
      eventsAfter fresh (if indent.firstLine then fresh else .loose) events := by
  simp [eventsAfter, eventNodes, PlacedTag.single, h, footingAfter]

include hloose in
theorem of_mem_traceNode_loose {name : Text} {span : Span} {fresh : Footing} {entry : Char × Bool}
    (he : entry ∈ traceNode setting included fresh .loose (.inclusion name indent span)) :
    entry.2 = true := by
  simp only [traceNode] at he
  split at he
  · cases he
  · exact hloose _ _ he

include plain hloose in
/-- Behind a partial tag all is loose up to the end of the line. -/
theorem loose_inlineEvents (inline : indent.firstLine = false) :
    (∀ entry ∈ traceEvents setting included .start .loose (Line.inlineEvents indent items),
        entry.2 = true) ∧
      eventsAfter .start .loose (Line.inlineEvents indent items) = .loose := by
  induction items generalizing indent with
  | nil => exact ⟨fun _ he => absurd he List.not_mem_nil, rfl⟩
  | cons item items ih =>
    have hrest := fun other => @ih other plain.tail
    cases item with
    | text t =>
      have hfeed : '\n' ∉ t := plain.no_feed t (List.mem_cons_self ..)
      obtain ⟨hall, hlast⟩ := hrest indent inline
      rw [Line.inlineEvents, traceEvents_text_cons, eventsAfter_text_cons,
        Footing.after_of_no_feed hfeed, if_neg (show Footing.loose ≠ .start by decide), ite_self]
      refine ⟨fun entry he => ?_, hlast⟩
      rcases List.mem_append.1 he with he | he
      · exact Footing.of_mem_trace_loose (.inr hfeed) he
      · exact hall entry he
    | tag placed =>
      have hsigil := plain.inclusion placed (List.mem_cons_self ..)
      obtain ⟨hall, hlast⟩ := hrest default rfl
      rw [Line.inlineEvents, traceEvents_inclusion_cons hsigil, eventsAfter_inclusion_cons hsigil,
        inline, if_neg Bool.false_ne_true]
      refine ⟨fun entry he => ?_, hlast⟩
      rcases List.mem_append.1 he with he | he
      · exact of_mem_traceNode_loose hloose he
      · exact hall entry he

variable (hkeeps : ∀ (name source : Text) (indent : Indent), setting.partials name = some source →
  Line.isBlank indent.padding = true → margin <+: indent.padding →
  Traced.Keeps margin indent.firstLine
    (included .start (if indent.firstLine then .start else .loose) (indent.apply source)))

include hkeeps in
/-- What a tag on a padded line includes keeps the margin. -/
theorem keeps_traceNode (name : Text) (span : Span) {footing : Footing} (hf : footing ≠ .loose)
    (blank : Line.isBlank indent.padding = true) (hp : margin <+: indent.padding) (fresh : Footing) :
    Traced.Keeps margin indent.firstLine
      (traceNode setting included fresh footing (.inclusion name indent span)) := by
  simp only [traceNode, if_neg hf]
  split
  · trivial
  · exact hkeeps _ _ _ (by assumption) blank hp

include plain hloose hkeeps in
/-- Further on in a padded line no line starts up to the first tag, what this tag includes keeps the
margin, and behind it all is loose. -/
theorem keeps_inlineEvents (inline : indent.firstLine = false)
    (blank : Line.isBlank indent.padding = true) (hp : margin <+: indent.padding) :
    Traced.Keeps margin false
        (traceEvents setting included .start .within (Line.inlineEvents indent items)) ∧
      (eventsAfter .start .within (Line.inlineEvents indent items) = .loose ∨
        eventsAfter .start .within (Line.inlineEvents indent items) = .within ∧
          Traced.endsLine false
            (traceEvents setting included .start .within (Line.inlineEvents indent items)) = false) := by
  induction items with
  | nil => exact ⟨trivial, .inr ⟨rfl, rfl⟩⟩
  | cons item items ih =>
    cases item with
    | text t =>
      have hfeed : '\n' ∉ t := plain.no_feed t (List.mem_cons_self ..)
      have hentries := @Footing.ne_feed_of_mem_trace .start .within t hfeed
      have hends := Traced.endsLine_of_no_feed hentries
      obtain ⟨hkept, hlast⟩ := ih plain.tail
      rw [Line.inlineEvents, traceEvents_text_cons, eventsAfter_text_cons,
        Footing.after_of_no_feed hfeed, if_neg (show Footing.within ≠ .start by decide), ite_self]
      refine ⟨(Traced.keeps_of_no_feed hentries).append (hends.symm ▸ hkept), ?_⟩
      rwa [Traced.endsLine_append, hends]
    | tag placed =>
      have hsigil := plain.inclusion placed (List.mem_cons_self ..)
      obtain ⟨hall, hlast⟩ := @loose_inlineEvents setting included items default plain.tail hloose rfl
      have hkept := keeps_traceNode hkeeps placed.tag.name placed.span
        (show Footing.within ≠ .loose by decide) blank hp .start
      rw [inline] at hkept
      rw [Line.inlineEvents, traceEvents_inclusion_cons hsigil, eventsAfter_inclusion_cons hsigil,
        inline, if_neg Bool.false_ne_true]
      exact ⟨hkept.append (Traced.keeps_of_loose hall), .inl hlast⟩

theorem traceEvents_ending (terminator : Text) (footing : Footing) :
    traceEvents setting included .start footing
        (if terminator.isEmpty then [] else [.text terminator]) =
      Footing.trace .start footing terminator := by
  cases terminator with
  | nil => rfl
  | cons c t => exact traceEvents_text _

theorem eventsAfter_ending (terminator : Text) (footing : Footing) :
    eventsAfter .start footing (if terminator.isEmpty then [] else [.text terminator]) =
      Footing.after .start footing terminator := by
  cases terminator <;> rfl

theorem after_end {terminator : Text} (h : Line.IsEnd terminator) (footing : Footing) :
    Footing.after .start footing terminator = .start := by
  rcases h with rfl | rfl <;> rfl

theorem loose_ending {terminator : Text} (h : terminator = [] ∨ Line.IsEnd terminator) :
    ∀ entry ∈ Footing.trace .start .loose terminator, entry.2 = true := by
  rcases h with rfl | rfl | rfl <;> decide

include plain hloose in
/-- A line without padding is loose. -/
theorem loose_line {terminator : Text} (ends : terminator = [] ∨ Line.IsEnd terminator) :
    (∀ entry ∈ traceEvents setting included .start .loose (Line.events ⟨items, terminator⟩),
        entry.2 = true) ∧
      (Line.IsEnd terminator →
        eventsAfter .start .loose (Line.events ⟨items, terminator⟩) = .start) := by
  cases hl : Line.lone? items with
  | some placed =>
    have hsigil := plain.inclusion placed (Line.mem_of_lone hl)
    simp only [Line.events, hl]
    rw [traceEvents_inclusion_cons hsigil, eventsAfter_inclusion_cons hsigil]
    refine ⟨fun entry he => ?_, fun _ => rfl⟩
    exact of_mem_traceNode_loose hloose ((List.mem_append.1 he).resolve_right List.not_mem_nil)
  | none =>
    obtain ⟨hall, hlast⟩ := @loose_inlineEvents setting included items
      (.inline (Line.preceding items)) plain hloose rfl
    simp only [Line.events, hl]
    rw [traceEvents_append, eventsAfter_append, hlast, traceEvents_ending, eventsAfter_ending]
    refine ⟨fun entry he => ?_, fun hend => after_end hend _⟩
    rcases List.mem_append.1 he with he | he
    · exact hall entry he
    · exact loose_ending ends entry he

/-- Within a line, and at the start of an empty one, what ends the line keeps the margin. -/
theorem keeps_ending {terminator : Text} (h : terminator = [] ∨ Line.IsEnd terminator) :
    Traced.Keeps margin false (Footing.trace .start .within terminator) ∧
      Traced.Keeps margin true (Footing.trace .start .start terminator) := by
  rcases h with rfl | rfl | rfl <;>
    simp [Footing.trace, Footing.step, Footing.isLoose, Traced.Keeps]

/-- The text at the start of a padded line. -/
theorem keeps_start {t : Text} (ne_nil : margin ≠ []) (hfeed : '\n' ∉ margin ++ t) :
    Traced.Keeps margin true (Footing.trace .start .start (margin ++ t)) ∧
      Traced.endsLine true (Footing.trace .start .start (margin ++ t)) = false ∧
      Footing.after .start .start (margin ++ t) = .within := by
  obtain ⟨c, u, hu⟩ := List.exists_cons_of_ne_nil (show margin ++ t ≠ [] by simp [ne_nil])
  have hprefix : margin <+: c :: u := hu ▸ List.prefix_append ..
  rw [hu, List.mem_cons, not_or] at hfeed
  have hstep : Footing.step .start .start c = .within := by simp [Footing.step, Ne.symm hfeed.1]
  have hline : decide (c = '\n') = false := decide_eq_false (Ne.symm hfeed.1)
  have hentries := @Footing.ne_feed_of_mem_trace .start .within u hfeed.2
  rw [hu, Footing.trace, hstep]
  refine ⟨⟨fun _ _ => .inr (by rwa [Footing.map_fst_trace]), ?_⟩, ?_, ?_⟩
  · rw [hline]
    exact Traced.keeps_of_no_feed hentries
  · rw [Traced.endsLine_cons, hline]
    exact Traced.endsLine_of_no_feed hentries
  · rw [Footing.after, List.foldl_cons, hstep, ← Footing.after, Footing.after_of_no_feed hfeed.2]
    split <;> rfl

include plain hloose hkeeps in
/-- A padded line keeps the margin. -/
theorem keeps_line {terminator : Text} (ends : terminator = [] ∨ Line.IsEnd terminator) (ne_nil : margin ≠ [])
    (blank : Line.isBlank margin = true) (h : Line.Margined margin items) :
    Traced.Keeps margin true
        (traceEvents setting included .start .start (Line.events ⟨items, terminator⟩)) ∧
      (Line.IsEnd terminator →
        eventsAfter .start .start (Line.events ⟨items, terminator⟩) = .start) := by
  cases hl : Line.lone? items with
  | some placed =>
    have hm := Line.mem_of_lone hl
    simp only [Line.events, hl]
    rw [traceEvents_inclusion_cons (plain.inclusion placed hm),
      eventsAfter_inclusion_cons (plain.inclusion placed hm)]
    refine ⟨?_, fun _ => rfl⟩
    have hkept := @keeps_traceNode setting included margin (.standalone (Line.preceding items)) hkeeps
      placed.tag.name placed.span .start (by decide) (Line.isBlank_preceding hl) (h.prefix_preceding hm) .start
    exact hkept.append trivial
  | none =>
    simp only [Line.events, hl]
    rw [traceEvents_append, eventsAfter_append, traceEvents_ending, eventsAfter_ending]
    refine ⟨?_, fun hend => after_end hend _⟩
    cases h with
    | empty => exact (keeps_ending ends).2
    | lastReturn =>
      have htext : Traced.Keeps margin true (Footing.trace .start .start ['\r']) := by
        simp [Footing.trace, Footing.isLoose, Traced.Keeps]
      exact htext.append (keeps_ending ends).1
    | padded t items =>
      have hfeed := plain.no_feed _ (List.mem_cons_self ..)
      have hpadding : margin <+: (Indent.inline (Line.preceding (.text (margin ++ t) :: items))).padding :=
        Line.prefix_inline blank ⟨t ++ Line.preceding items, by simp [Line.preceding]⟩
      obtain ⟨hstart, hends, hafter⟩ := keeps_start ne_nil hfeed
      obtain ⟨hkept, hlast⟩ := @keeps_inlineEvents setting included margin items _ plain.tail hloose
        hkeeps rfl (Line.isBlank_inline _) hpadding
      rw [Line.inlineEvents, traceEvents_text_cons, eventsAfter_text_cons, hafter, List.append_assoc]
      refine hstart.append (hends.symm ▸ hkept.append ?_)
      rcases hlast with hloose | ⟨hwithin, hline⟩
      · rw [hloose]
        exact Traced.keeps_of_loose (loose_ending ends)
      · rw [hwithin, hline]
        exact (keeps_ending ends).1

include hloose hkeeps in
/-- Padded lines keep the margin, one after the other. -/
theorem keeps_lines {fresh : Bool} {lines : List Line × List Item} (ne_nil : margin ≠ [])
    (blank : Line.isBlank margin = true) (h : Line.AllMargined margin fresh lines)
    (hplain : ∀ line ∈ lines.1, Line.Plain line.items ∧ Line.IsEnd line.terminator)
    (hlast : Line.Plain lines.2) :
    Traced.Keeps margin fresh (traceEvents setting included .start (if fresh then .start else .loose)
      (lines.1.flatMap Line.events ++ Line.events ⟨lines.2, []⟩)) := by
  have hline : ∀ {fresh : Bool} {items : List Item} {terminator : Text}, Line.Plain items →
      terminator = [] ∨ Line.IsEnd terminator → (fresh = true → Line.Margined margin items) →
      Traced.Keeps margin fresh (traceEvents setting included .start
          (if fresh then .start else .loose) (Line.events ⟨items, terminator⟩)) ∧
        (Line.IsEnd terminator → eventsAfter .start (if fresh then .start else .loose)
          (Line.events ⟨items, terminator⟩) = .start) := by
    intro fresh items terminator plain ends hm
    cases fresh with
    | false =>
      obtain ⟨hall, hafter⟩ := loose_line plain hloose ends
      exact ⟨Traced.keeps_of_loose hall, hafter⟩
    | true => exact keeps_line plain hloose hkeeps ends ne_nil blank (hm rfl)
  induction h with
  | last hm => exact (hline hlast (.inl rfl) hm).1
  | @more fresh line lines last hm _ ih =>
    obtain ⟨plain, hend⟩ := hplain line (List.mem_cons_self ..)
    obtain ⟨hkept, hafter⟩ := hline plain (.inr hend) hm
    have hrest := ih (fun other ho => hplain other (List.mem_cons_of_mem _ ho)) hlast
    rw [List.flatMap_cons, List.append_assoc, traceEvents_append, hafter hend]
    exact hkept.append hrest.of_fresh

end

section
variable {setting : Setting} {margin : Text}

/-- Where nothing is padded, all is loose. -/
theorem loose_traced (setting : Setting) (fuel : Nat) (source : Text) :
    ∀ entry ∈ traced setting fuel .loose .loose source, entry.2 = true := by
  induction fuel generalizing source with
  | zero => exact fun _ he => absurd he List.not_mem_nil
  | succ fuel ih =>
    simp only [traced]
    split
    · rename_i ns _
      clear * - ih
      induction ns with
      | nil => exact fun _ he => absurd he List.not_mem_nil
      | cons n ns ihn =>
        have hafter : footingAfter .loose .loose n = .loose := by
          cases n with
          | text t => exact Footing.after_loose
          | inclusion name indent span => exact ite_self _
          | _ => rfl
        intro entry he
        rw [traceNodes, hafter] at he
        rcases List.mem_append.1 he with he | he
        · cases n with
          | text t => exact Footing.of_mem_trace_loose (.inl rfl) he
          | inclusion name indent span => exact of_mem_traceNode_loose ih he
          | _ => cases he
        · exact ihn entry he
    · exact fun _ he => absurd he List.not_mem_nil

variable (plain : ∀ name source, setting.partials name = some source →
  Template.OnlyPartials source setting.tags)

include plain in
/-- Included texts that are padded with at least the margin keep it. -/
theorem keeps_traced (ne_nil : margin ≠ []) (blank : Line.isBlank margin = true) (fuel : Nat)
    (name source : Text) (indent : Indent) (hp : setting.partials name = some source)
    (hblank : Line.isBlank indent.padding = true) (hm : margin <+: indent.padding) :
    Traced.Keeps margin indent.firstLine (traced setting fuel .start
      (if indent.firstLine then .start else .loose) (indent.apply source)) := by
  induction fuel generalizing name source indent with
  | zero => trivial
  | succ fuel ih =>
    simp only [traced]
    split
    · rename_i ns hc
      obtain ⟨pieces, hr, hnested, htags, hlines⟩ := (plain name source hp).exists_reading hblank hc
      have hpadding : indent.padding ≠ [] := by
        rintro hnil
        exact ne_nil (List.prefix_nil.1 (hnil ▸ hm))
      obtain ⟨hplain, hlast⟩ := Line.plain_split hr.laid htags
      rw [(traceNodes_of_nested hnested (by rwa [Piece.tags_events])).1]
      exact keeps_lines (loose_traced setting fuel) ih ne_nil blank
        ((hlines hpadding).shorten hm) hplain hlast
    · trivial

include plain in
/-- A partial tag that stands alone after the margin, in a render whose partials hold nothing but text
and partial tags: in the text that it brings each line starts with the margin, unless it holds
nothing or starts with a loose character. -/
theorem inclusion_indented {host : Host} {fuel : Nat} {name : Text} {span : Span} {context : Context}
    {t : Text} (ne_nil : margin ≠ []) (blank : Line.isBlank margin = true)
    (h : (node fuel setting (expanding setting fuel) (.inclusion name (.standalone margin) span)
      context).Gives host t) :
    let brought := traceNode setting (traced setting fuel) .start .start
      (.inclusion name (.standalone margin) span)
    brought.map Prod.fst = t ∧
      ∀ line ∈ brought.lines, Traced.LineKeeps margin line := by
  intro brought
  have hn : IsPlain (.inclusion name (.standalone margin) span) := blank
  refine ⟨map_fst_traceNode hn ?_ h .start .start, ?_⟩
  · exact fun name source indent hp hb fresh footing t => map_fst_traced plain fuel hp hb fresh footing
  · have hkept : Traced.Keeps margin true brought :=
      @keeps_traceNode setting (traced setting fuel) margin (.standalone margin)
        (keeps_traced plain ne_nil blank fuel) name span .start (by decide) blank List.prefix_rfl .start
    have hfeed : '\n' ∉ margin := fun hf => (Line.of_mem_blank blank hf).2.1 rfl
    obtain ⟨line, others, hl, hline, hothers⟩ := hkept.lines hfeed
    rw [hl, List.forall_mem_cons]
    exact ⟨hline rfl, hothers⟩

end

/-- The first partial includes the second in the middle of its line, which ends with a line feed. -/
def midLine : Setting where
  tags := default
  escape := Escape.html
  partials := .ofList [(['p'], "a{{>q}}c".toList), (['q'], "b\n".toList)]

/-- The tag of the first partial, alone on its line after two spaces. -/
def midLineTag : Node :=
  .inclusion ['p'] (.standalone "  ".toList) ⟨2, 8⟩

/-- A host whose values and lambdas are null. -/
def nullHost : Host where
  pending _ := ⟨.ok .null, false⟩
  inline _ _ := .null
  block _ _ _ := .value .null

theorem onlyPartials_midLine (name source : Text) (h : midLine.partials name = some source) :
    Template.OnlyPartials source midLine.tags ∧
      ∀ placed ∈ Template.placed source midLine.tags,
        '\n' ∉ source.slice placed.span.start placed.span.stop := by
  obtain ⟨front, back, he, -⟩ := List.lookup_eq_some_iff.1 h
  have hm : (name, source) ∈ [(['q'], "b\n".toList), (['p'], "a{{>q}}c".toList)] := by
    rw [show [(['q'], "b\n".toList), (['p'], "a{{>q}}c".toList)] = _ from he]
    simp
  rcases List.mem_pair.1 hm with hm | hm
  all_goals
    cases hm
    unfold Template.OnlyPartials
    decide +kernel

theorem gives_midLine : (node 3 midLine (expanding midLine 3) midLineTag (.root .null)).Gives nullHost
    "  ab\nc".toList := by
  have hresult : (node 3 midLine (expanding midLine 3) midLineTag (.root .null)).result? nullHost
      (fun _ => true) = some "  ab\nc".toList := by
    cbv
  exact Plan.gives_of_result? hresult

/-- What follows the tag in the middle of the line is at the start of a line, and it is loose. -/
theorem inclusion_indented_midLine :
    let brought := traceNode midLine (traced midLine 3) .start .start midLineTag
    brought.map Prod.fst = "  ab\nc".toList ∧ (∀ line ∈ brought.lines, Traced.LineKeeps [' ', ' '] line) ∧
      brought.lines = [[(' ', false), (' ', false), ('a', false), ('b', true)], [('c', true)]] := by
  intro brought
  obtain ⟨hbrought, hlines⟩ := inclusion_indented (fun name source h => (onlyPartials_midLine name source h).1)
    (show "  ".toList ≠ [] by decide) (by decide) gives_midLine
  exact ⟨hbrought, hlines, by decide +kernel⟩

/-- The tag stands alone, and no tag goes over a line end; yet the last line has lost the margin. -/
theorem lost_margin_midLine :
    (∀ name source, midLine.partials name = some source →
      Template.OnlyPartials source midLine.tags ∧
        ∀ placed ∈ Template.placed source midLine.tags,
          '\n' ∉ source.slice placed.span.start placed.span.stop) ∧
      Template.compile "  {{>p}}".toList default = .ok [midLineTag] ∧
      (node 3 midLine (expanding midLine 3) midLineTag (.root .null)).Gives nullHost
        "  ab\nc".toList ∧
      ['c'] ∈ Text.splitAtChar '\n' "  ab\nc".toList ∧ ¬ "  ".toList <+: ['c'] :=
  ⟨onlyPartials_midLine, by cbv, gives_midLine, by decide, by decide⟩

end Render
end Stencil
