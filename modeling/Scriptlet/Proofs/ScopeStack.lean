/-
Scope stacks. An evaluator that knows no frames: its environment is a list of finite maps, innermost first, that is
handed from step to step. A block pushes an empty map and pops it however it ends; a declaration writes the innermost
map; a name is read from the first map that binds it, and assigned there. `Expr.evaluateIn` and `Stmt.executeIn` are
what evaluation and execution over shared frames come down to.
-/
import Mathlib.Data.Finmap
import Scriptlet.Proofs.Refinement
import Scriptlet.Session

namespace Scriptlet

/-- names with their values, in no order -/
abbrev Names := Finmap fun _ : String => Value

/-- scopes, innermost first -/
abbrev ScopeStack := List Names

namespace ScopeStack

/-- the value of a name: the innermost scope that binds it has it -/
def find? (name : String) : ScopeStack → Option Value
  | [] => none
  | names :: outer => (names.lookup name).or (find? name outer)

/-- changes the value of a name in the innermost scope that binds it -/
def assign? (name : String) (value : Value) : ScopeStack → Option ScopeStack
  | [] => none
  | names :: outer =>
    if name ∈ names then some (names.insert name value :: outer) else (assign? name value outer).map (names :: ·)

def define (name : String) (value : Value) : ScopeStack → ScopeStack
  | [] => []
  | names :: outer => names.insert name value :: outer

def lookup (name : String) : EStateM EvalError ScopeStack Value := fun scopes =>
  match scopes.find? name with
  | some value => .ok value scopes
  | none => .error (.undefinedVariable name) scopes

def assign (name : String) (value : Value) : EStateM EvalError ScopeStack Unit := fun scopes =>
  match scopes.assign? name value with
  | some after => .ok () after
  | none => .error (.undefinedVariable name) scopes

end ScopeStack

def Expr.evaluateIn : Expr → EStateM EvalError ScopeStack Value
  | .literal value => pure value
  | .grouping inner => inner.evaluateIn
  | .unary operator operand => do
    let value ← operand.evaluateIn
    ofExcept (applyUnary operator value)
  | .binary left operator right => do
    let a ← left.evaluateIn
    let b ← right.evaluateIn
    ofExcept (applyBinary a operator b)
  | .logical left operator right => do
    let a ← left.evaluateIn
    if settles operator a then pure a else right.evaluateIn
  | .var name => ScopeStack.lookup name.lexeme
  | .assign name value => do
    let v ← value.evaluateIn
    ScopeStack.assign name.lexeme v
    pure v

structure Stacked where
  scopes : ScopeStack
  sink : Sink

namespace Stacked

def writeLine (text : String) : EStateM IoFailure Stacked Unit := fun s =>
  let bytes := Utf8.encode (text ++ "\n")
  let written := { s with sink := s.sink.write bytes }
  if s.sink.fits bytes then .ok () written else .error .sinkFull written

def value (expr : Expr) : EStateM Stop Stacked Value := fun s =>
  match expr.evaluateIn s.scopes with
  | .ok v scopes => .ok v { s with scopes }
  | .error e scopes => .error (.evaluation e) { s with scopes }

def define (name : String) (v : Value) : EStateM Stop Stacked Unit :=
  modify fun s => { s with scopes := s.scopes.define name v }

/-- an empty scope around a computation -/
def inNewScope (body : EStateM Stop Stacked Unit) : EStateM Stop Stacked Unit := fun s =>
  (body { s with scopes := ∅ :: s.scopes }).mapState fun t => { t with scopes := t.scopes.tail }

end Stacked

mutual

def Stmt.executeIn : Stmt → EStateM Stop Stacked Unit
  | .expression expr => do
    let _ ← Stacked.value expr
  | .print expr => do
    let v ← Stacked.value expr
    (Stacked.writeLine v.render).adaptExcept .io
  | .declare name none => Stacked.define name.lexeme .nil
  | .declare name (some expr) => do
    let v ← Stacked.value expr
    Stacked.define name.lexeme v
  | .assign name expr => do
    let _ ← Stacked.value (.assign name expr)
  | .block body => Stacked.inNewScope (Stmt.executeAllIn body)
  | .branch condition yes no => do
    let v ← Stacked.value condition
    if v.isTruthy then yes.executeIn else no.executeIn
  | .skip => pure ()

def Stmt.executeAllIn : List Stmt → EStateM Stop Stacked Unit
  | [] => pure ()
  | s :: rest => do
    s.executeIn
    Stmt.executeAllIn rest

end

namespace Stacked

def complain : List Diagnostic → EStateM IoFailure Stacked Unit
  | [] => pure ()
  | d :: rest => do
    writeLine d.render
    complain rest

def stopped : Stop → EStateM IoFailure Stacked Ending
  | .evaluation e => do
    writeLine e.message
    pure .runtimeError
  | .io failure => throw failure

def run (source : Source) : EStateM IoFailure Stacked Ending :=
  if source.broken then throw .unreadable
  else
    match compile source.content with
    | .error diagnostics => do
      complain diagnostics
      pure .compileError
    | .ok program => handle (Stmt.executeAllIn program) (fun _ => pure .completed) stopped

end Stacked

end Scriptlet
