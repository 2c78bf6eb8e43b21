import Mathlib
import Stencil.Proofs.Engine.Recorded
import Stencil.Proofs.Plan.Escaped

/-!
# Renders that escape

A render under the escape function for HTML that ends with a text, ends with a harmless one, if the
templates compiled for it outside of what variable lambdas return are harmless and escape all their
interpolations. What variable lambdas return may be anything.
-/

namespace Stencil
namespace Engine

open Escape (Harmless)

variable {host : Host} {fuel : Nat} {config : Config} {actions : List Action}

/-- Whatever else is done on the engine, the text of a render that escapes is harmless. -/
theorem run_escaped {render : Nat} {request : Request} {defaults : Config} {text : Text}
    (hs : (Action.starts config actions)[render]? = some (request, defaults))
    (hf : ((new config).run host fuel actions).statuses[render]? = some (.finished (.ok text)))
    (hescape : (request.setting defaults).escape = Escape.html)
    (hview : request.view.BlockFree host)
    (hj : ((journal host fuel config actions).under [render]).Escapes) : Harmless text :=
  Request.harmless_of_runs (runs_of_finished hs hf) hescape hview hj

/-- A lambda that returns a text with a special character and an interpolation that is not escaped. -/
def returnsRaw : Host where
  pending _ := ⟨.ok .null, false⟩
  inline _ _ := .string "<{{{n}}}".toList
  block _ _ _ := .value .null

/-- A render of an interpolation of the lambda within a partial. -/
def rawWithin : Request where
  template := .string "a{{>p}}".toList
  view := .map [(['l'], .lambda (.inline 0)), (['n'], .string ['>'])]
  partials := .ofList [(['p'], "{{l}}".toList)]
  tags := none
  escape := none

theorem journal_rawWithin : (journal returnsRaw 3 default [.start rawWithin]).under [0] =
    [([0], .compiles "a{{>p}}".toList default), ([0], .joins 2),
      ([1, 0], .compiles "{{l}}".toList default), ([1, 0], .joins 1),
      ([0, 1, 0], .calls (.inline 0)), ([0, 1, 0], .compiles "<{{{n}}}".toList default),
      ([0, 1, 0], .joins 2)] := by
  cbv

/-- Neither what the lambda returns gets into the text, nor what is interpolated in it. -/
theorem run_escaped_rawWithin :
    ((new default).run returnsRaw 3 [.start rawWithin]).statuses[0]? =
        some (.finished (.ok "a&lt;&gt;".toList)) ∧
      Harmless "a&lt;&gt;".toList := by
  have hf : ((new default).run returnsRaw 3 [.start rawWithin]).statuses[0]? =
      some (.finished (.ok "a&lt;&gt;".toList)) := by
    cbv
  refine ⟨hf, @run_escaped _ _ default _ 0 rawWithin default _ rfl hf rfl ?_ ?_⟩
  · -- the lambda is one in the place of a tag, and it returns a text
    rintro id (_ | _ | ⟨he, hw⟩ | _ | _)
    rcases List.mem_pair.1 he with rfl | rfl
    · cases hw with
      | returned hw => cases hw
    · cases hw
  · rw [journal_rawWithin]
    intro part source tags nodes hm hout hc
    simp only [List.mem_cons, Prod.mk.injEq, Deed.compiles.injEq, reduceCtorEq, and_false, false_or,
      or_false, List.not_mem_nil] at hm
    rcases hm with ⟨rfl, rfl, rfl⟩ | ⟨rfl, rfl, rfl⟩ | ⟨rfl, rfl, rfl⟩
    · have hcompile : Template.compile "a{{>p}}".toList default =
          .ok [.text ['a'], .inclusion ['p'] (.inline ['a']) ⟨1, 7⟩] := by
        cbv
      obtain rfl := Except.ok.inj (hcompile.symm.trans hc)
      simp [Node.AllEscaped, Node.Escaped, Harmless, Escape.IsSpecial]
    · have hcompile : Template.compile "{{l}}".toList default =
          .ok [.interpolation (.keys [['l']]) true ⟨0, 5⟩] := by
        cbv
      obtain rfl := Except.ok.inj (hcompile.symm.trans hc)
      simp [Node.AllEscaped, Node.Escaped]
    · exact absurd ⟨_, List.suffix_rfl, ⟨0, by simp⟩, "<{{{n}}}".toList, default, by simp⟩
        hout

end Engine
end Stencil
