import Mathlib.Data.List.Infix
import Mathlib.Logic.Function.Basic
import Mathlib.Tactic.SplitIfs
import Stencil.Escape

/-!
# Entities of HTML

What is escaped for HTML has no special character but the ampersands that begin its entities, and it
can be read back. An entity that a text has of its own is escaped like the rest of it, so different
texts stay different.
-/

namespace Stencil
namespace Escape

/-- The characters that may not get into a text unescaped. -/
def IsSpecial (c : Char) : Prop :=
  c = '<' ∨ c = '>' ∨ c = '"' ∨ c = '\''

/-- A text with no special character. -/
def Harmless (t : Text) : Prop :=
  ∀ c ∈ t, ¬ IsSpecial c

theorem harmless_nil : Harmless [] := nofun

theorem harmless_htmlChar (c : Char) : Harmless (htmlChar c) := by
  unfold htmlChar Harmless IsSpecial
  split_ifs with hamp hlt hgt hquote happ
  all_goals simp_all

theorem harmless_html (t : Text) : Harmless (html t) := by
  intro c hc
  obtain ⟨d, -, hd⟩ := List.mem_flatMap.1 hc
  exact harmless_htmlChar d c hd

theorem harmless_flatten {ts : List Text} (h : ∀ t ∈ ts, Harmless t) : Harmless ts.flatten := by
  intro c hc
  obtain ⟨t, ht, hc⟩ := List.mem_flatten.1 hc
  exact h t ht c hc

theorem html_cons (c : Char) (t : Text) : html (c :: t) = htmlChar c ++ html t :=
  List.flatMap_cons

def entities : List Text :=
  ["&amp;".toList, "&lt;".toList, "&gt;".toList, "&quot;".toList, "&#39;".toList]

/-- An ampersand is only written as the first character of an entity. -/
theorem htmlChar_of_ampersand {c : Char} {before after : Text}
    (h : htmlChar c = before ++ '&' :: after) : before = [] ∧ htmlChar c ∈ entities := by
  have hentity : htmlChar c ∈ entities ∧ '&' ∉ (htmlChar c).tail ∨ htmlChar c = [c] ∧ c ≠ '&' := by
    unfold htmlChar entities
    split_ifs with hamp
    all_goals simp [hamp]
  rcases hentity with ⟨hmem, htail⟩ | ⟨hself, hc⟩
  · refine ⟨?_, hmem⟩
    cases before with
    | nil => rfl
    | cons b before => simp [h] at htail
  · have hmem : '&' ∈ [c] := by simp [← hself, h]
    exact absurd (List.mem_singleton.1 hmem).symm hc

/-- Each ampersand of a text begins one of the entities. -/
def AmpersandsBegin (t : Text) : Prop :=
  ∀ before after, t = before ++ '&' :: after → ∃ entity ∈ entities, entity <+: '&' :: after

theorem ampersandsBegin_html (t : Text) : AmpersandsBegin (html t) := by
  induction t with
  | nil => exact fun before after h => absurd h (by simp [html])
  | cons c t ih =>
    intro before after h
    rw [html_cons] at h
    -- The ampersand is in what follows the first character, or in what is written for it.
    rcases List.append_eq_append_iff.1 h with ⟨rest, -, hrest⟩ | ⟨part, hpart, hafter⟩
    · exact ih rest after hrest
    · cases part with
      | nil => exact ih [] after hafter.symm
      | cons d part =>
        obtain ⟨rfl, rfl⟩ := List.cons.inj hafter
        obtain ⟨rfl, hmem⟩ := htmlChar_of_ampersand hpart
        exact ⟨_, hmem, html t, by rw [hpart]; rfl⟩

/-- Reads the five entities from left to right; any other character stands for itself. -/
def decode : Text → Text
  | '&' :: 'a' :: 'm' :: 'p' :: ';' :: t => '&' :: decode t
  | '&' :: 'l' :: 't' :: ';' :: t => '<' :: decode t
  | '&' :: 'g' :: 't' :: ';' :: t => '>' :: decode t
  | '&' :: 'q' :: 'u' :: 'o' :: 't' :: ';' :: t => '"' :: decode t
  | '&' :: '#' :: '3' :: '9' :: ';' :: t => '\'' :: decode t
  | c :: t => c :: decode t
  | [] => []

theorem decode_cons {c : Char} (h : c ≠ '&') (t : Text) : decode (c :: t) = c :: decode t := by
  rw [decode] <;> simp_all

theorem decode_htmlChar_append (c : Char) (t : Text) : decode (htmlChar c ++ t) = c :: decode t := by
  unfold htmlChar
  split_ifs with hamp hlt hgt hquote happ
  case neg => exact decode_cons hamp t
  all_goals
    subst c
    rfl

theorem decode_html (t : Text) : decode (html t) = t := by
  induction t with
  | nil => rfl
  | cons c t ih => rw [html_cons, decode_htmlChar_append, ih]

/-- Escaping for HTML is closed and can be undone, and it goes through a text piece by piece. -/
theorem html_faithful :
    (∀ t, Harmless (html t) ∧ AmpersandsBegin (html t) ∧ decode (html t) = t) ∧
      Function.Injective html ∧ ∀ s t, html (s ++ t) = html s ++ html t :=
  ⟨fun t => ⟨harmless_html t, ampersandsBegin_html t, decode_html t⟩,
    Function.LeftInverse.injective decode_html, html_append⟩

/-- The text of an entity is not taken for the character. -/
example : html "&lt;".toList = "&amp;lt;".toList ∧ decode "&amp;lt;".toList = "&lt;".toList := by
  decide

end Escape
end Stencil
