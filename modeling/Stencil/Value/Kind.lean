import Stencil.Text.Basic

/-!
# Kinds of view values

The names under which messages and reports speak of values.
-/

namespace Stencil

inductive Kind
  | null | boolean | number | string | array | object | function | pending
  deriving DecidableEq, Repr

namespace Kind

def name : Kind → Text
  | .null => "null".toList
  | .boolean => "boolean".toList
  | .number => "number".toList
  | .string => "string".toList
  | .array => "array".toList
  | .object => "object".toList
  | .function => "function".toList
  | .pending => "pending".toList

theorem name_injective {k l : Kind} (h : k.name = l.name) : k = l := by
  revert h
  cases k <;> cases l <;> decide

end Kind
end Stencil
