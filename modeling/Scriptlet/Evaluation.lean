/-
Evaluation of expressions. It may change bindings, and what it has changed stays changed when it fails later. Both
operands of an operator are evaluated before their kinds are looked at; `and` and `or` evaluate their right operand only
if the left one leaves the answer open, and answer with an operand.

A tree may hold any token as an operator: `!` inverts and every other sign negates, `or` is a disjunction and every
other logical operator a conjunction, and an operator that is neither arithmetic nor an ordering compares for equality.
What is done with operators is kept apart from the rest of evaluation (`OperatorArms`), and `Expr.evaluate` is
evaluation by the operators just described.
-/
import Scriptlet.Scope
import Scriptlet.Tree

namespace EStateM

variable {ε ε' σ α β : Type}

@[simp] theorem pure_apply (a : α) (s : σ) : (pure a : EStateM ε σ α) s = .ok a s := rfl

@[simp] theorem throw_apply (e : ε) (s : σ) : (throw e : EStateM ε σ α) s = .error e s := rfl

@[simp] theorem bind_apply (x : EStateM ε σ α) (f : α → EStateM ε σ β) (s : σ) :
    (x >>= f) s = match x s with
      | .ok a t => f a t
      | .error e t => .error e t := by
  simp only [Bind.bind, EStateM.bind]
  cases x s <;> rfl

@[simp] theorem map_apply (f : α → β) (x : EStateM ε σ α) (s : σ) :
    (f <$> x) s = match x s with
      | .ok a t => .ok (f a) t
      | .error e t => .error e t := by
  simp only [Functor.map, EStateM.map]
  cases x s <;> rfl

@[simp] theorem adaptExcept_apply (f : ε → ε') (x : EStateM ε σ α) (s : σ) :
    x.adaptExcept f s = match x s with
      | .ok a t => .ok a t
      | .error e t => .error (f e) t := by
  simp only [EStateM.adaptExcept]
  cases x s <;> rfl

end EStateM

namespace Scriptlet

/-- a computation over the bindings that may fail -/
abbrev Evaluation (α : Type) := EStateM EvalError Scope α

namespace Evaluation

/-- an answer that does not touch the bindings -/
def answer {α : Type} : Except EvalError α → Evaluation α
  | .ok value => pure value
  | .error e => throw e

def lookup (name : String) : Evaluation Value := do
  let scope ← get
  answer (scope.frames.get scope.current name)

def assign (name : String) (value : Value) : Evaluation Unit := do
  let scope ← get
  let frames ← answer (scope.frames.assign scope.current name value)
  set { scope with frames }

end Evaluation

def applyUnary (operator : Token) (operand : Value) : Except EvalError Value :=
  match operator.kind with
  | .bang => .ok operand.invert
  | _ => operand.negate

def applyBinary (left : Value) (operator : Token) (right : Value) : Except EvalError Value :=
  match operator.kind with
  | .plus => left.plus right
  | .minus => left.minus right
  | .star => left.times right
  | .slash => left.divide right
  | .greater => Value.compare operator.lexeme .greater left right
  | .greaterEqual => Value.compare operator.lexeme .greaterEqual left right
  | .less => Value.compare operator.lexeme .less left right
  | .lessEqual => Value.compare operator.lexeme .lessEqual left right
  | .bangEqual => .ok (.bool (!left.isEqual right))
  | _ => .ok (.bool (left.isEqual right))

/-- does the left operand of a logical operator settle the answer -/
def settles (operator : Token) (left : Value) : Bool :=
  match operator.kind with
  | .kwOr => left.isTruthy
  | _ => !left.isTruthy

/-- what is done with a sign, with a binary operator, and with the left operand of a logical one -/
structure OperatorArms where
  unary : Token → Value → Except EvalError Value
  binary : Value → Token → Value → Except EvalError Value
  settles : Token → Value → Bool

/-- the operators as they are -/
def OperatorArms.actual : OperatorArms := ⟨applyUnary, applyBinary, Scriptlet.settles⟩

/-- the value of an expression, with any treatment of operators -/
def Expr.evaluateBy (arms : OperatorArms) : Expr → Evaluation Value
  | .literal value => pure value
  | .grouping inner => inner.evaluateBy arms
  | .unary operator operand => do
    let value ← operand.evaluateBy arms
    .answer (arms.unary operator value)
  | .binary left operator right => do
    let a ← left.evaluateBy arms
    let b ← right.evaluateBy arms
    .answer (arms.binary a operator b)
  | .logical left operator right => do
    let a ← left.evaluateBy arms
    if arms.settles operator a then pure a else right.evaluateBy arms
  | .var name => .lookup name.lexeme
  | .assign name value => do
    let v ← value.evaluateBy arms
    .assign name.lexeme v
    pure v

namespace Expr

def evaluate (e : Expr) : Evaluation Value := e.evaluateBy .actual

@[simp] theorem evaluate_literal (value : Value) : (literal value).evaluate = pure value := rfl

@[simp] theorem evaluate_grouping (inner : Expr) : (grouping inner).evaluate = inner.evaluate := rfl

@[simp] theorem evaluate_unary (operator : Token) (operand : Expr) : (unary operator operand).evaluate = (do
    let value ← operand.evaluate
    .answer (applyUnary operator value)) := rfl

@[simp] theorem evaluate_binary (left : Expr) (operator : Token) (right : Expr) :
    (binary left operator right).evaluate = (do
      let a ← left.evaluate
      let b ← right.evaluate
      .answer (applyBinary a operator b)) := rfl

@[simp] theorem evaluate_logical (left : Expr) (operator : Token) (right : Expr) :
    (logical left operator right).evaluate = (do
      let a ← left.evaluate
      if settles operator a then pure a else right.evaluate) := rfl

@[simp] theorem evaluate_var (name : Token) : (var name).evaluate = .lookup name.lexeme := rfl

@[simp] theorem evaluate_assign (name : Token) (value : Expr) : (assign name value).evaluate = (do
    let v ← value.evaluate
    .assign name.lexeme v
    pure v) := rfl

end Expr

end Scriptlet
