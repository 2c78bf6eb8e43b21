import Stencil.Number.Basic
import Stencil.Value.Kind

/-!
# View values

Plain data, lambdas and pending values. What a lambda returns and what a pending value becomes is
not part of the value: both are handles, and a host gives them their meaning.
-/

namespace Stencil

/-- A handle of a value that is not there yet. Copies share one computation. -/
abbrev PendingId := Nat

abbrev LambdaId := Nat

/-- The two shapes of lambdas, fixed when the lambda is made. -/
inductive Lambda
  /-- Called without arguments; returns template text to render in place of a tag. -/
  | inline (id : LambdaId)
  /-- Called with the source of a section; what it returns is the output of the section. -/
  | block (id : LambdaId)
  deriving DecidableEq, Repr

inductive Value
  | null
  | bool (value : Bool)
  | number (value : Number)
  | string (text : Text)
  | list (items : List Value)
  | map (entries : List (Text × Value))
  | lambda (lambda : Lambda)
  | pending (id : PendingId)
  deriving Repr

namespace Value

instance : Inhabited Value where
  default := .null

def kind : Value → Kind
  | .null => .null
  | .bool _ => .boolean
  | .number _ => .number
  | .string _ => .string
  | .list _ => .array
  | .map _ => .object
  | .lambda _ => .function
  | .pending _ => .pending

/-- Looks a key up; only maps have keys. -/
def get? (key : Text) : Value → Option Value
  | .map entries => entries.lookup key
  | _ => none

/-- Whether a section shows the value. Null, false, zero, the empty text and the empty list are not
shown; every map and every lambda is. -/
def isTruthy : Value → Bool
  | .null => false
  | .bool b => b
  | .number n => !n.toBinary64.isZero
  | .string t => !t.isEmpty
  | .list items => !items.isEmpty
  | .map _ | .lambda _ | .pending _ => true

def boolText (b : Bool) : Text :=
  if b then "true".toList else "false".toList

mutual
/-- The text of a value in an interpolation. -/
def output : Value → Text
  | .null => []
  | .bool b => boolText b
  | .number n => n.text
  | .string t => t
  | .list items => [','].intercalate (outputs items)
  | .map _ | .lambda _ | .pending _ => []

def outputs : List Value → List Text
  | [] => []
  | v :: vs => output v :: outputs vs
end

@[simp] theorem outputs_eq_map (vs : List Value) : outputs vs = vs.map output := by
  induction vs with
  | nil => simp [outputs]
  | cons v vs ih => simp [outputs, ih]

mutual
/-- Whether no pending value can be reached through lists. -/
def isSettled : Value → Bool
  | .pending _ => false
  | .list items => allSettled items
  | _ => true

def allSettled : List Value → Bool
  | [] => true
  | v :: vs => isSettled v && allSettled vs
end

@[simp] theorem allSettled_eq_all (vs : List Value) : allSettled vs = vs.all isSettled := by
  induction vs with
  | nil => simp [allSettled]
  | cons v vs ih => simp [allSettled, ih]

end Value
end Stencil
