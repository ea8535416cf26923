/-
Values: nothing, truth values, numbers and texts. Values of different kinds are never equal, and numbers are compared as
doubles are, so that an undefined number differs from itself and the two zeros are one.

Every operation answers with a value or with the reason why its operands do not fit: operands of two kinds are a
mismatch, whatever the operator; operands of one kind may be of a kind the operator does not take. Division is total: by
zero it gives an infinite or undefined number.
-/
import Scriptlet.Numeral

namespace Scriptlet

inductive Value where
  | nil
  | bool (b : Bool)
  | number (x : Float)
  | string (text : String)
  deriving DecidableEq

/-- the kind of a value, as error messages name it -/
inductive ValueKind where
  | nil
  | boolean
  | number
  | string
  deriving DecidableEq

def ValueKind.name : ValueKind → String
  | .nil => "nil"
  | .boolean => "boolean"
  | .number => "number"
  | .string => "string"

namespace Value

def kind : Value → ValueKind
  | .nil => .nil
  | .bool _ => .boolean
  | .number _ => .number
  | .string _ => .string

/-- does the value count as true: nothing, zero, the empty text and `false` do not -/
def isTruthy : Value → Bool
  | .nil => false
  | .bool b => b
  | .number x => !(x == 0)
  | .string text => text != ""

/-- are two values equal to the program -/
def isEqual : Value → Value → Bool
  | .nil, .nil => true
  | .bool a, .bool b => a == b
  | .number a, .number b => a == b
  | .string a, .string b => a == b
  | _, _ => false

/-- the truth value opposite to what the value counts as -/
def invert (v : Value) : Value := .bool (!v.isTruthy)

def render : Value → String
  | .nil => "nil"
  | .bool b => if b then "true" else "false"
  | .number x => Numeral.text x
  | .string text => text

end Value

/-! ## Operations -/

inductive EvalError where
  | undefinedVariable (name : String)
  | mismatchedTypes (left right : ValueKind)
  | invalidOperands (operator : String) (kind : ValueKind)
  | invalidOperand (operator : String) (kind : ValueKind)
  deriving DecidableEq

def EvalError.message : EvalError → String
  | .undefinedVariable name => "Undefined variable '" ++ name ++ "'."
  | .mismatchedTypes left right =>
    "Invalid operation. Mismatched types " ++ left.name ++ " and " ++ right.name ++ "."
  | .invalidOperands operator kind =>
    "Invalid operation. Operator '" ++ operator ++ "' does not apply to " ++ kind.name ++ " operands."
  | .invalidOperand operator kind =>
    "Invalid operation. Operator '" ++ operator ++ "' does not apply to a " ++ kind.name ++ " operand."

inductive Comparison where
  | greater
  | greaterEqual
  | less
  | lessEqual
  deriving DecidableEq

/-- does the ordering hold; never with an undefined number -/
def Comparison.holds : Comparison → Float → Float → Bool
  | .greater, a, b => b < a
  | .greaterEqual, a, b => b ≤ a
  | .less, a, b => a < b
  | .lessEqual, a, b => a ≤ b

namespace Value

/-- why an operator does not take two operands -/
def operandsError (operator : String) (left right : Value) : EvalError :=
  if left.kind = right.kind then .invalidOperands operator left.kind
  else .mismatchedTypes left.kind right.kind

def onNumbers (operator : String) (f : Float → Float → Value) : Value → Value → Except EvalError Value
  | .number a, .number b => .ok (f a b)
  | left, right => .error (operandsError operator left right)

/-- the sum of numbers, or two texts one after the other -/
def plus : Value → Value → Except EvalError Value
  | .number a, .number b => .ok (.number (a + b))
  | .string a, .string b => .ok (.string (a ++ b))
  | left, right => .error (operandsError "+" left right)

def minus : Value → Value → Except EvalError Value := onNumbers "-" fun a b => .number (a - b)

def times : Value → Value → Except EvalError Value := onNumbers "*" fun a b => .number (a * b)

def divide : Value → Value → Except EvalError Value := onNumbers "/" fun a b => .number (a / b)

/-- an ordering of numbers; an error names the operator as it was written -/
def compare (operator : String) (comparison : Comparison) : Value → Value → Except EvalError Value :=
  onNumbers operator fun a b => .bool (comparison.holds a b)

def negate : Value → Except EvalError Value
  | .number x => .ok (.number (-x))
  | v => .error (.invalidOperand "-" v.kind)

end Value

end Scriptlet
