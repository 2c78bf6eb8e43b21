import Stencil.Text.Basic

/-!
# Key paths

A single dot means the innermost view itself; any other name is a list of keys with dots between.
-/

namespace Stencil

inductive KeyPath
  | implicit
  | keys (list : List Text)
  deriving DecidableEq, Repr

namespace KeyPath

def parse (name : Text) : KeyPath :=
  if name = ['.'] then .implicit else .keys (name.splitAtChar '.')

def text : KeyPath → Text
  | .implicit => ['.']
  | .keys list => ['.'].intercalate list

@[simp] theorem text_parse (name : Text) : (parse name).text = name := by
  simp only [parse]
  split
  · simp_all [text]
  · exact Text.intercalate_splitAtChar '.' name

end KeyPath
end Stencil
