import Stencil.Engine
import Stencil.Proofs.Escape
import Stencil.Proofs.Plan.Causes
import Stencil.Proofs.Plan.Runs

/-!
# Escaping is complete

The text of a render has none of the characters that the escape function for HTML replaces within
tags and quoted attributes, if it is made of texts that have none and of interpolations that are
escaped. What variable lambdas return is escaped as a whole, so whatever is in it makes no
difference: only what is compiled outside of it counts.
-/

namespace Stencil

open Escape (Harmless)

mutual
/-- A node whose own texts are harmless and whose interpolations are escaped. -/
def Node.Escaped : Node → Prop
  | .text t => Harmless t
  | .comment _ | .inclusion _ _ _ => True
  | .interpolation _ escape _ => escape = true
  | .block _ _ children _ _ _ => Node.AllEscaped children

def Node.AllEscaped : List Node → Prop
  | [] => True
  | n :: ns => n.Escaped ∧ Node.AllEscaped ns
end

namespace Value

/-- What a render can come to from a value: what is in it, what pending values yield and what
variable lambdas return. -/
inductive Reveals (host : Host) : Value → Value → Prop
  | refl (v : Value) : Reveals host v v
  | item {items : List Value} {v w : Value} (h : v ∈ items) (hw : Reveals host v w) :
    Reveals host (.list items) w
  | entry {entries : List (Text × Value)} {entry : Text × Value} {w : Value} (h : entry ∈ entries)
    (hw : Reveals host entry.2 w) : Reveals host (.map entries) w
  | yielded {id : PendingId} {v w : Value} (hr : (host.pending id).result = .ok v)
    (hw : Reveals host v w) : Reveals host (.pending id) w
  | returned {id : LambdaId} {earlier : Nat} {w : Value}
    (hw : Reveals host (host.inline id earlier) w) : Reveals host (.lambda (.inline id)) w

/-- No lambda of a section can be come to from a value. -/
def BlockFree (host : Host) (v : Value) : Prop :=
  ∀ id, ¬ Reveals host v (.lambda (.block id))

variable {host : Host} {place : Place} {told : Journal}

namespace BlockFree

variable {v w : Value}

theorem item {items : List Value} (h : BlockFree host (.list items)) (hv : v ∈ items) :
    BlockFree host v :=
  fun id hr => h id (.item hv hr)

theorem entry {entries : List (Text × Value)} (h : BlockFree host (.map entries))
    {entry : Text × Value} (he : entry ∈ entries) : BlockFree host entry.2 :=
  fun id hr => h id (.entry he hr)

theorem yielded {id : PendingId} (h : BlockFree host (.pending id))
    (hv : (host.pending id).result = .ok v) : BlockFree host v :=
  fun called hr => h called (.yielded hv hr)

theorem returned {id : LambdaId} (h : BlockFree host (.lambda (.inline id))) (earlier : Nat) :
    BlockFree host (host.inline id earlier) :=
  fun called hr => h called (.returned hr)

theorem get? (h : BlockFree host v) {key : Text} (hw : v.get? key = some w) : BlockFree host w := by
  cases v with
  | map entries =>
    obtain ⟨front, back, rfl, -⟩ := List.lookup_eq_some_iff.1 hw
    exact h.entry (List.mem_append_right front (List.mem_cons_self (a := (key, w))))
  | _ => cases hw

theorem settle (h : BlockFree host v) {fuel : Nat} (hw : (v.settle fuel).Gives host w) :
    BlockFree host w := by
  induction fuel generalizing v with
  | zero =>
    cases v with
    | pending => exact hw.elim
    | _ =>
      cases hw
      exact h
  | succ fuel ih =>
    cases v with
    | pending id =>
      obtain ⟨next, hn, hw⟩ := hw
      exact ih (h.yielded hn) hw
    | _ =>
      cases hw
      exact h

end BlockFree

/-- To settle is to come for pending values, and nothing else. -/
theorem runs_settle {fuel : Nat} {v settled : Value}
    (h : (v.settle fuel).Runs host place told settled) {part : Place} {deed : Deed}
    (hm : (part, deed) ∈ told) : part = place ∧ ∃ id, deed.ComesFor id := by
  induction fuel generalizing v told with
  | zero =>
    cases v with
    | pending => exact h.elim
    | _ =>
      obtain ⟨rfl, -⟩ := h
      cases hm
  | succ fuel ih =>
    cases v with
    | pending id =>
      obtain ⟨waited, rest, next, rfl, hw, -, h⟩ := h
      rcases List.mem_append.1 hm with hm | hm
      · exact ⟨(hw part deed hm).1, id, (hw part deed hm).2⟩
      · exact ih h hm
    | _ =>
      obtain ⟨rfl, -⟩ := h
      cases hm

end Value

namespace Context

variable {host : Host} {place : Place} {told : Journal} {context : Context} {v : Value}

/-- No lambda of a section can be come to from the views of a context. -/
def BlockFree (host : Host) (context : Context) : Prop :=
  ∀ v ∈ context.views, v.BlockFree host

theorem BlockFree.push (h : context.BlockFree host) (hv : v.BlockFree host) :
    (context.push v).BlockFree host := by
  rw [BlockFree, views_push, List.forall_mem_cons]
  exact ⟨hv, h⟩

theorem BlockFree.descend {fuel : Nat} {keys : List Text} {start : Value}
    (h : start.BlockFree host) (hv : (Context.descend fuel keys start).Gives host (some v)) :
    v.BlockFree host := by
  induction keys generalizing start with
  | nil =>
    cases hv
    exact h
  | cons key keys ih =>
    rw [Context.descend] at hv
    split at hv
    · cases hv
    · rename_i next hn
      obtain ⟨settled, hs, hv⟩ := Plan.gives_bind.1 hv
      exact ih ((h.get? hn).settle hs) hv

/-- What a path finds reveals no more than the views. -/
theorem BlockFree.lookup (h : context.BlockFree host) {fuel : Nat} {path : KeyPath}
    (hv : (context.lookup fuel path).Gives host (some v)) : v.BlockFree host := by
  rcases path with _ | _ | ⟨key, keys⟩
  · cases hv
    exact h _ (List.mem_cons_self ..)
  · cases hv
  · rw [Context.lookup] at hv
    split at hv
    · cases hv
    · rename_i found hf
      obtain ⟨view, hview, hget⟩ := List.exists_of_findSome?_eq_some hf
      obtain ⟨settled, hs, hv⟩ := Plan.gives_bind.1 hv
      exact descend (((h view hview).get? hget).settle hs) hv

theorem runs_descend {fuel : Nat} {keys : List Text} {start : Value} {found : Option Value}
    (h : (descend fuel keys start).Runs host place told found) {part : Place} {deed : Deed}
    (hm : (part, deed) ∈ told) : part = place ∧ ∃ id, deed.ComesFor id := by
  induction keys generalizing start told with
  | nil =>
    obtain ⟨rfl, -⟩ := h
    cases hm
  | cons key keys ih =>
    rw [descend] at h
    split at h
    · obtain ⟨rfl, -⟩ := h
      cases hm
    · obtain ⟨front, back, next, rfl, hn, h⟩ := Plan.runs_bind.1 h
      exact (List.mem_append.1 hm).elim (Value.runs_settle hn) (ih h)

/-- To look a path up is to come for pending values, and nothing else. -/
theorem runs_lookup {fuel : Nat} {path : KeyPath} {found : Option Value}
    (h : (context.lookup fuel path).Runs host place told found) {part : Place} {deed : Deed}
    (hm : (part, deed) ∈ told) : part = place ∧ ∃ id, deed.ComesFor id := by
  rcases path with _ | _ | ⟨key, keys⟩
  · obtain ⟨rfl, -⟩ := h
    cases hm
  · obtain ⟨rfl, -⟩ := h
    cases hm
  · rw [lookup] at h
    split at h
    · obtain ⟨rfl, -⟩ := h
      cases hm
    · obtain ⟨front, back, next, rfl, hn, h⟩ := Plan.runs_bind.1 h
      exact (List.mem_append.1 hm).elim (Value.runs_settle hn) (runs_descend h)

end Context

namespace Journal

/-- A variable lambda is called at the place, and what it returns is compiled there. -/
def Returns (journal : Journal) (place : Place) : Prop :=
  (∃ id, (place, .calls (.inline id)) ∈ journal) ∧
    ∃ source tags, (place, .compiles source tags) ∈ journal

/-- Something stands in what a variable lambda returned. -/
def InReturned (journal : Journal) (part : Place) : Prop :=
  ∃ place, place <:+ part ∧ journal.Returns place

variable {journal told : Journal} {place : Place} {i : Nat}

theorem not_inReturned_cons (h : ¬ journal.InReturned place) (hr : ¬ journal.Returns (i :: place)) :
    ¬ journal.InReturned (i :: place) := by
  rintro ⟨part, hp, hpart⟩
  rcases List.suffix_cons_iff.1 hp with rfl | hp
  · exact hr hpart
  · exact h ⟨part, hp, hpart⟩

/-- What is done at the place of a join itself is to go on with it. -/
theorem OfJoin.eq_joins {count : Nat} (h : told.OfJoin count place) {deed : Deed}
    (hm : (place, deed) ∈ told) : deed = .joins count := by
  rcases h place deed hm with ⟨-, he⟩ | ⟨i, -, hp⟩
  · exact he
  · have hle : place.length + 1 ≤ place.length := hp.length_le
    omega

/-- Below a place, where before the deeds of a join there are others at the place itself. -/
theorem under_append_join {before joined : Journal}
    (hu : journal.under place = before ++ joined)
    (hb : ∀ part deed, (part, deed) ∈ before → part = place) (i : Nat) :
    journal.under (i :: place) = joined.under (i :: place) := by
  have hunder : (journal.under place).under (i :: place) = journal.under (i :: place) := by
    rw [under, under, List.filter_filter]
    refine List.filter_congr fun entry _ => ?_
    simpa using fun hp => suffix_of_cons_suffix hp
  rw [← hunder, hu, under_append, under_eq_nil, List.nil_append]
  intro part deed hm hp
  obtain rfl := hb part deed hm
  have hle : part.length + 1 ≤ part.length := hp.length_le
  omega

theorem not_returns_of_compiles (hu : journal.under place = told)
    (h : ∀ source tags, (place, .compiles source tags) ∉ told) : ¬ journal.Returns place := by
  rintro ⟨-, source, tags, hm⟩
  exact h source tags (hu ▸ mem_under.2 ⟨hm, List.suffix_rfl⟩)

theorem not_returns_of_calls (hu : journal.under place = told)
    (h : ∀ id, (place, .calls (.inline id)) ∉ told) : ¬ journal.Returns place := by
  rintro ⟨⟨id, hm⟩, -⟩
  exact h id (hu ▸ mem_under.2 ⟨hm, List.suffix_rfl⟩)

/-- Outside of what variable lambdas return, whatever is compiled escapes. -/
def Escapes (journal : Journal) : Prop :=
  ∀ part source tags nodes, (part, .compiles source tags) ∈ journal → ¬ journal.InReturned part →
    Template.compile source tags = .ok nodes → Node.AllEscaped nodes

end Journal

namespace Render

variable {host : Host} {setting : Setting} {fuel : Nat} {place : Place} {told before journal : Journal}
  {context : Context} {t : Text} {siblings : List (Context → Plan Text)} {i : Nat}

/-- The deeds and the texts of siblings. -/
theorem runs_together (h : (together siblings context).Runs host place told t) :
    told.OfJoin siblings.length place ∧ ∃ ts : List Text, t = ts.flatten ∧ ∀ text ∈ ts,
      ∃ i, ∃ plan ∈ siblings, (plan context).Runs host (i :: place) (told.under (i :: place)) text := by
  obtain ⟨front, back, ts, rfl, hr, rfl, rfl⟩ := Plan.runs_bind.1 h
  rw [List.append_nil]
  exact ⟨(Plan.runs_each hr).1, ts, rfl, (Plan.runs_each hr).2⟩

/-- What is planned gives a harmless text at every place that is not in what a lambda returned. -/
def YieldsHarmless (host : Host) (journal : Journal) (plan : Context → Plan Text) : Prop :=
  ∀ context i place t, context.BlockFree host → ¬ journal.InReturned place →
    (plan context).Runs host (i :: place) (journal.under (i :: place)) t → Harmless t

theorem harmless_together (before : Journal) (h : ∀ plan ∈ siblings, YieldsHarmless host journal plan)
    (hcontext : context.BlockFree host) (hout : ¬ journal.InReturned place)
    (hu : journal.under place = before ++ told)
    (hb : ∀ part deed, (part, deed) ∈ before → part = place)
    (hr : (together siblings context).Runs host place told t) : Harmless t := by
  obtain ⟨-, ts, rfl, hts⟩ := runs_together hr
  refine Escape.harmless_flatten fun text hm => ?_
  obtain ⟨i, plan, hp, hr⟩ := hts text hm
  rw [← Journal.under_append_join hu hb i] at hr
  exact h plan hp context i place text hcontext hout hr

/-- What comes for pending values and then renders siblings, calls no lambda for its text. -/
theorem harmless_settled (h : ∀ plan ∈ siblings, YieldsHarmless host journal plan)
    (hcontext : context.BlockFree host) (hout : ¬ journal.InReturned place)
    (hu : journal.under (i :: place) = before ++ told)
    (hb : ∀ part deed, (part, deed) ∈ before →
      part = i :: place ∧ ∀ source tags, deed ≠ .compiles source tags)
    (hr : (together siblings context).Runs host (i :: place) told t) : Harmless t := by
  obtain ⟨hj, -⟩ := runs_together hr
  refine harmless_together before h hcontext (Journal.not_inReturned_cons hout ?_) hu
    (fun part deed hm => (hb part deed hm).1) hr
  refine Journal.not_returns_of_compiles hu fun source tags hm => ?_
  rcases List.mem_append.1 hm with hm | hm
  · exact (hb _ _ hm).2 source tags rfl
  · cases hj.eq_joins hm

theorem harmless_shown {raw : Thunk Text} {tags : Tags} {expand : Expand} {v : Value}
    (h : ∀ plan ∈ siblings, YieldsHarmless host journal plan)
    (hcontext : context.BlockFree host) (hv : v.BlockFree host)
    (hout : ¬ journal.InReturned place)
    (hu : journal.under (i :: place) = before ++ told)
    (hb : ∀ part deed, (part, deed) ∈ before →
      part = i :: place ∧ ∀ source tags, deed ≠ .compiles source tags)
    (hr : (shown fuel expand (together siblings) raw tags context v).Runs host (i :: place) told t) :
    Harmless t := by
  unfold shown at hr
  split at hr
  · rename_i items
    obtain ⟨joined, back, ts, rfl, heach, rfl, rfl⟩ := Plan.runs_bind.1 hr
    rw [List.append_nil] at hu
    obtain ⟨hj, hts⟩ := Plan.runs_each heach
    have hinside : ¬ journal.InReturned (i :: place) := by
      refine Journal.not_inReturned_cons hout ?_
      refine Journal.not_returns_of_compiles hu fun source tags hm => ?_
      rcases List.mem_append.1 hm with hm | hm
      · exact (hb _ _ hm).2 source tags rfl
      · cases hj.eq_joins hm
    refine Escape.harmless_flatten fun text hm => ?_
    obtain ⟨j, item, hi, hr⟩ := hts text hm
    obtain ⟨front, back, settled, htold, hs, hr⟩ := Plan.runs_bind.1 hr
    have hsettled := (hv.item hi).settle (Plan.gives_of_runs hs)
    have hunder : journal.under (j :: i :: place) = front ++ back := by
      rw [Journal.under_append_join hu (fun part deed hm => (hb part deed hm).1) j, htold]
    refine harmless_settled h (hcontext.push hsettled) hinside hunder (fun part deed hm => ?_) hr
    obtain ⟨hp, id, hc⟩ := Value.runs_settle hs hm
    refine ⟨hp, ?_⟩
    rintro source tags rfl
    exact hc
  · exact harmless_settled h (hcontext.push hv) hout hu hb hr
  · exact absurd (.refl _) (hv _)
  · exact harmless_settled h hcontext hout hu hb hr

/-- To find what decides about a section is to come for pending values and to call a lambda. -/
theorem runs_deciding {found value : Option Value}
    (h : (deciding fuel found).Runs host place told value) {part : Place} {deed : Deed}
    (hm : (part, deed) ∈ told) : part = place ∧ ∀ source tags, deed ≠ .compiles source tags := by
  unfold deciding at h
  split at h
  · obtain ⟨called, back, returned, rfl, ⟨rest, n, rfl, rfl, -⟩, hback⟩ := Plan.runs_bind.1 h
    obtain ⟨waited, last, settled, rfl, hs, rfl, -⟩ := Plan.runs_bind.1 hback
    rw [List.append_nil] at hm
    rcases List.mem_cons.1 hm with he | hm
    · cases he
      exact ⟨rfl, nofun⟩
    · obtain ⟨hp, id, hc⟩ := Value.runs_settle hs hm
      refine ⟨hp, ?_⟩
      rintro source tags rfl
      exact hc
  · obtain ⟨rfl, -⟩ := h
    cases hm

/-- What decides about a section reveals no more than the views. -/
theorem blockFree_of_gives_deciding {found : Option Value} {v : Value}
    (hfound : ∀ w, found = some w → w.BlockFree host)
    (h : (deciding fuel found).Gives host (some v)) : v.BlockFree host := by
  unfold deciding at h
  split at h
  · rename_i id
    obtain ⟨returned, ⟨n, rfl⟩, h⟩ := Plan.gives_bind.1 h
    obtain ⟨settled, hs, h⟩ := Plan.gives_bind.1 h
    cases h
    exact ((hfound _ rfl).returned n).settle hs
  · cases h
    exact hfound v rfl

/-- An escaped tag brings nothing but what the escape function makes of a text. -/
theorem yieldsHarmless_interpolation (hescape : setting.escape = Escape.html) (expand : Expand)
    (path : KeyPath) (span : Span) :
    YieldsHarmless host journal (node fuel setting expand (.interpolation path true span)) := by
  intro context i place t _ _ hr
  obtain ⟨_, _, found, -, -, hr⟩ := Plan.runs_bind.1 hr
  obtain ⟨_, _, shown, -, -, hr⟩ := Plan.runs_bind.1 hr
  cases shown with
  | none =>
    obtain ⟨-, rfl⟩ := hr
    exact Escape.harmless_nil
  | some s =>
    obtain ⟨-, rfl⟩ := hr
    rw [if_pos rfl, hescape]
    exact Escape.harmless_html s

/-- A section brings nothing but what its children do. -/
theorem yieldsHarmless_block {expand : Expand} {path : KeyPath} {inverted : Bool}
    {children : List Node} {raw : Thunk Text} {tags : Tags} {span : Span}
    (hchildren : ∀ plan ∈ nodes fuel setting expand children, YieldsHarmless host journal plan) :
    YieldsHarmless host journal (node fuel setting expand
      (.block path inverted children raw tags span)) := by
  intro context i place t hcontext hout hr
  obtain ⟨looked, _, found, htold, hfound, hr⟩ := Plan.runs_bind.1 hr
  obtain ⟨decided, told, value, rfl, hvalue, hr⟩ := Plan.runs_bind.1 hr
  rw [← List.append_assoc] at htold
  have hbefore : ∀ part deed, (part, deed) ∈ looked ++ decided →
      part = i :: place ∧ ∀ source tags, deed ≠ .compiles source tags := by
    intro part deed hm
    rcases List.mem_append.1 hm with hm | hm
    · obtain ⟨hp, id, hc⟩ := Context.runs_lookup hfound hm
      refine ⟨hp, ?_⟩
      rintro source tags rfl
      exact hc
    · exact runs_deciding hvalue hm
  cases inverted with
  | true =>
    by_cases hs : isShown value = true
    · simp only [hs, if_true, Plan.pure_eq] at hr
      obtain ⟨-, rfl⟩ := hr
      exact Escape.harmless_nil
    · exact harmless_settled hchildren hcontext hout htold hbefore (by simpa [hs] using hr)
  | false =>
    cases value with
    | none =>
      obtain ⟨-, rfl⟩ := hr
      exact Escape.harmless_nil
    | some v =>
      by_cases ht : v.isTruthy = true
      · have hv : v.BlockFree host := by
          refine blockFree_of_gives_deciding (fun w hw => ?_) (Plan.gives_of_runs hvalue)
          exact hcontext.lookup (hw ▸ Plan.gives_of_runs hfound)
        exact harmless_shown hchildren hcontext hv hout htold hbefore (by simpa [ht] using hr)
      · simp only [ht, Plan.pure_eq] at hr
        obtain ⟨-, rfl⟩ := hr
        exact Escape.harmless_nil

mutual
theorem yieldsHarmless_node (hescape : setting.escape = Escape.html)
    (hexpand : ∀ name indent source, setting.partials name = some source →
      YieldsHarmless host journal (expanding setting fuel (Indent.apply indent source) setting.tags)) :
    (n : Node) → n.Escaped →
      YieldsHarmless host journal (node fuel setting (expanding setting fuel) n)
  | .text s, hn => by
    rintro context i place t - - ⟨-, rfl⟩
    exact hn
  | .comment _, _ => by
    rintro context i place t - - ⟨-, rfl⟩
    exact Escape.harmless_nil
  | .interpolation path escape span, hn => by
    obtain rfl : escape = true := hn
    exact yieldsHarmless_interpolation hescape _ path span
  | .inclusion name indent span, _ => by
    intro context i place t hcontext hout hr
    rw [node] at hr
    split at hr
    · obtain ⟨-, rfl⟩ := hr
      exact Escape.harmless_nil
    · rename_i source hp
      exact hexpand name indent source hp context i place t hcontext hout hr
  | .block path inverted children raw tags span, hn =>
    yieldsHarmless_block (yieldsHarmless_nodes hescape hexpand children hn)

theorem yieldsHarmless_nodes (hescape : setting.escape = Escape.html)
    (hexpand : ∀ name indent source, setting.partials name = some source →
      YieldsHarmless host journal (expanding setting fuel (Indent.apply indent source) setting.tags)) :
    (ns : List Node) → Node.AllEscaped ns →
      ∀ plan ∈ nodes fuel setting (expanding setting fuel) ns, YieldsHarmless host journal plan
  | [], _ => nofun
  | n :: ns, hns => by
    obtain ⟨hfirst, hrest⟩ := hns
    intro plan hp
    rcases List.mem_cons.1 hp with rfl | hp
    · exact yieldsHarmless_node hescape hexpand n hfirst
    · exact yieldsHarmless_nodes hescape hexpand ns hrest plan hp
end

/-- A source outside of what a lambda returned is compiled at a place where no lambda is called. -/
theorem yieldsHarmless_expanding (hescape : setting.escape = Escape.html) (hj : journal.Escapes)
    (fuel : Nat) (source : Text) (tags : Tags) :
    YieldsHarmless host journal (expanding setting fuel source tags) := by
  induction fuel generalizing source tags with
  | zero => exact fun _ _ _ _ _ _ hr => hr.elim
  | succ fuel ih =>
    rintro context i place t hcontext hout ⟨rest, ns, htold, hc, hr⟩
    have hr : (text setting fuel ns context).Runs host (i :: place) rest t := hr
    rw [text_eq] at hr
    obtain ⟨hjoin, -⟩ := runs_together hr
    have hinside : ¬ journal.InReturned (i :: place) := by
      refine Journal.not_inReturned_cons hout (Journal.not_returns_of_calls htold fun id hm => ?_)
      rcases List.mem_cons.1 hm with he | hm
      · cases he
      · cases hjoin.eq_joins hm
    have hm : (i :: place, Deed.compiles source tags) ∈ journal := by
      refine (Journal.mem_under.1 (?_ : _ ∈ journal.under (i :: place))).1
      rw [htold]
      exact List.mem_cons_self ..
    have hns := hj _ _ _ _ hm hinside hc
    refine harmless_together [(i :: place, .compiles source tags)]
      (yieldsHarmless_nodes hescape (fun _ _ _ _ => ih _ _) ns hns) hcontext hinside htold ?_ hr
    intro part deed hm
    cases List.mem_singleton.1 hm
    rfl

end Render

/-- The text of a request is harmless, if what is compiled for it outside of what variable lambdas
return escapes, and no lambda of a section can be come to from its view. -/
theorem Request.harmless_of_runs {host : Host} {request : Request} {fuel : Nat} {config : Config}
    {render : Nat} {journal : Journal} {t : Text}
    (h : (request.plan fuel config).Runs host [render] journal t)
    (hescape : (request.setting config).escape = Escape.html)
    (hview : request.view.BlockFree host) (hj : journal.Escapes) : Harmless t := by
  have hunder : journal.under [render] = journal :=
    Journal.under_eq_self fun part deed hm => Plan.suffix_of_runs h hm
  have houtside : ¬ journal.InReturned [] := by
    rintro ⟨place, hp, ⟨id, hm⟩, -⟩
    obtain rfl := List.suffix_nil.1 hp
    simpa using (Plan.suffix_of_runs h hm).length_le
  unfold plan at h
  split at h
  · obtain ⟨rest, ns, hjournal, hc, h⟩ := h
    obtain ⟨waited, told, view, rfl, hs, h⟩ := Plan.runs_bind.1 h
    rw [Render.text_eq] at h
    have hwaited : ∀ part deed, (part, deed) ∈ waited → part = [render] ∧ ∃ id, deed.ComesFor id :=
      fun part deed hm => Value.runs_settle hs hm
    have hcontext : (Context.root view).BlockFree host := by
      intro v hv
      rw [List.mem_singleton.1 hv]
      exact hview.settle (Plan.gives_of_runs hs)
    have hinside : ¬ journal.InReturned [render] := by
      refine Journal.not_inReturned_cons houtside (Journal.not_returns_of_calls hunder fun id hm => ?_)
      rw [hjournal] at hm
      rcases List.mem_cons.1 hm with he | hm
      · cases he
      · rcases List.mem_append.1 hm with hm | hm
        · obtain ⟨-, _, hc⟩ := hwaited _ _ hm
          exact hc
        · cases (Render.runs_together h).1.eq_joins hm
    have hm : ([render], Deed.compiles _ _) ∈ journal := hjournal ▸ List.mem_cons_self ..
    have hns := hj _ _ _ _ hm hinside hc
    refine Render.harmless_together (([render], .compiles _ _) :: waited)
      (Render.yieldsHarmless_nodes hescape
        (fun _ _ _ _ => Render.yieldsHarmless_expanding hescape hj fuel _ _) ns hns)
      hcontext hinside (hunder.trans hjournal) ?_ h
    intro part deed hm
    rcases List.mem_cons.1 hm with he | hm
    · cases he
      rfl
    · exact (hwaited part deed hm).1
  · exact h.elim

end Stencil
