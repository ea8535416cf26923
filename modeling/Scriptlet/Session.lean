/-
Sessions. A session holds the bindings and the sink that everything is written to. `Stmt.execute` runs one statement;
`Session.run` takes a source, and either complains about it, when nothing of it is executed, or runs it to its end or to
the first error. Bindings and output made before an error stay. A block runs in a frame of its own, and whichever way it
ends, what follows runs in the frame that was current before it.
-/
import Scriptlet.Bytes
import Scriptlet.Evaluation
import Scriptlet.Grammar.Level
import Scriptlet.Token.Stream

namespace Scriptlet

structure Session where
  scope : Scope
  sink : Sink
  deriving DecidableEq

inductive IoFailure where
  | unreadable
  | sinkFull
  deriving DecidableEq

inductive Stop where
  | evaluation (error : EvalError)
  | io (failure : IoFailure)
  deriving DecidableEq

/-- a computation in a session that may stop -/
abbrev Execution (α : Type) := EStateM Stop Session α

namespace Session

def ofLimit (limit : Option Nat) : Session := ⟨.initial, .ofLimit limit⟩

def writeLine (text : String) : EStateM IoFailure Session Unit := fun s =>
  let bytes := Utf8.encode (text ++ "\n")
  let written := { s with sink := s.sink.write bytes }
  if s.sink.fits bytes then .ok () written else .error .sinkFull written

end Session

namespace Execution

def writeLine (text : String) : Execution Unit := (Session.writeLine text).adaptExcept .io

/-- the value of an expression, with any treatment of operators -/
def valueBy (arms : OperatorArms) (expr : Expr) : Execution Value := fun s =>
  match expr.evaluateBy arms s.scope with
  | .ok v scope => .ok v { s with scope }
  | .error e scope => .error (.evaluation e) { s with scope }

def value (expr : Expr) : Execution Value := valueBy .actual expr

@[simp] theorem value_apply (expr : Expr) (s : Session) : value expr s = match expr.evaluate s.scope with
    | .ok v scope => .ok v { s with scope }
    | .error e scope => .error (.evaluation e) { s with scope } := rfl

def define (name : String) (v : Value) : Execution Unit := modify fun s => { s with scope := s.scope.define name v }

/-- runs in a frame of its own -/
def inNewFrame (body : Execution Unit) : Execution Unit := fun s =>
  match body { s with scope := s.scope.enter } with
  | .ok _ t => .ok () { t with scope := t.scope.moveTo s.scope.current }
  | .error stop t => .error stop { t with scope := t.scope.moveTo s.scope.current }

end Execution

mutual

/-- runs a statement, with any treatment of operators -/
def Stmt.executeBy (arms : OperatorArms) : Stmt → Execution Unit
  | .expression expr => do
    let _ ← Execution.valueBy arms expr
  | .print expr => do
    let v ← Execution.valueBy arms expr
    Execution.writeLine v.render
  | .declare name none => Execution.define name.lexeme .nil
  | .declare name (some expr) => do
    let v ← Execution.valueBy arms expr
    Execution.define name.lexeme v
  | .assign name expr => do
    let _ ← Execution.valueBy arms (.assign name expr)
  | .block body => Execution.inNewFrame (Stmt.executeAllBy arms body)
  | .branch condition yes no => do
    let v ← Execution.valueBy arms condition
    if v.isTruthy then yes.executeBy arms else no.executeBy arms
  | .skip => pure ()

def Stmt.executeAllBy (arms : OperatorArms) : List Stmt → Execution Unit
  | [] => pure ()
  | s :: rest => do
    s.executeBy arms
    Stmt.executeAllBy arms rest

end

namespace Stmt

def execute (s : Stmt) : Execution Unit := s.executeBy .actual

def executeAll (body : List Stmt) : Execution Unit := executeAllBy .actual body

@[simp] theorem execute_expression (expr : Expr) : (expression expr).execute = (do
    let _ ← Execution.value expr) := rfl

@[simp] theorem execute_print (expr : Expr) : (print expr).execute = (do
    let v ← Execution.value expr
    Execution.writeLine v.render) := rfl

@[simp] theorem execute_declare_none (name : Token) :
    (declare name none).execute = Execution.define name.lexeme .nil := rfl

@[simp] theorem execute_declare_some (name : Token) (expr : Expr) : (declare name (some expr)).execute = (do
    let v ← Execution.value expr
    Execution.define name.lexeme v) := rfl

@[simp] theorem execute_assign (name : Token) (expr : Expr) : (assign name expr).execute = (do
    let _ ← Execution.value (.assign name expr)) := rfl

@[simp] theorem execute_block (body : List Stmt) : (block body).execute = Execution.inNewFrame (executeAll body) := rfl

@[simp] theorem execute_branch (condition : Expr) (yes no : Stmt) : (branch condition yes no).execute = (do
    let v ← Execution.value condition
    if v.isTruthy then yes.execute else no.execute) := rfl

@[simp] theorem execute_skip : skip.execute = pure () := rfl

@[simp] theorem executeAll_nil : executeAll [] = pure () := rfl

@[simp] theorem executeAll_cons (s : Stmt) (rest : List Stmt) : executeAll (s :: rest) = (do
    s.execute
    executeAll rest) := rfl

/-- a program runs as its parts do one after the other -/
theorem executeAll_append (p q : List Stmt) : executeAll (p ++ q) = (do executeAll p; executeAll q) := by
  induction p with
  | nil => rfl
  | cons s rest ih => simp [ih]

end Stmt

/-- the program in a source, or all that is wrong with it: a source with a lexical fault is not looked at further -/
def compile (content : Bytes) : Except (List Diagnostic) Program :=
  let lexing := Lexing.ofBytes content
  if lexing.diagnostics ≠ [] then .error lexing.diagnostics
  else
    let parsing := Parsing.ofTokens lexing.tokens
    if parsing.diagnostics ≠ [] then .error parsing.diagnostics else .ok parsing.program

inductive Ending where
  | completed
  | compileError
  | runtimeError
  deriving DecidableEq

namespace Session

def complain : List Diagnostic → EStateM IoFailure Session Unit
  | [] => pure ()
  | d :: rest => do
    writeLine d.render
    complain rest

/-- runs a program; an error of its own making is written -/
def perform (program : Program) : EStateM IoFailure Session Ending := fun s =>
  match Stmt.executeAll program s with
  | .ok _ t => .ok .completed t
  | .error (.evaluation e) t => (do writeLine e.message; pure .runtimeError : EStateM IoFailure Session Ending) t
  | .error (.io failure) t => .error failure t

def run (source : Source) : EStateM IoFailure Session Ending :=
  if source.broken then throw .unreadable
  else
    match compile source.content with
    | .error diagnostics => do
      complain diagnostics
      pure .compileError
    | .ok program => perform program

theorem perform_of_completed {program : Program} {s t : Session} (h : Stmt.executeAll program s = .ok () t) :
    perform program s = .ok .completed t := by
  rw [perform, h]

theorem perform_of_error {program : Program} {s t : Session} {e : EvalError}
    (h : Stmt.executeAll program s = .error (.evaluation e) t) :
    perform program s = (do writeLine e.message; pure .runtimeError : EStateM IoFailure Session Ending) t := by
  rw [perform, h]

/-- a program that ends in an answer has come to its end, or its own error has been written -/
theorem perform_cases {program : Program} {s t : Session} {ending : Ending} (h : perform program s = .ok ending t) :
    (ending = .completed ∧ Stmt.executeAll program s = .ok () t) ∨
    (ending = .runtimeError ∧ ∃ e u, Stmt.executeAll program s = .error (.evaluation e) u ∧
      writeLine e.message u = .ok () t) := by
  unfold perform at h
  split at h
  next hrun =>
    cases h
    exact .inl ⟨rfl, hrun⟩
  next e u hrun =>
    rw [EStateM.bind_apply] at h
    split at h
    next hwrite =>
      cases h
      exact .inr ⟨rfl, e, u, hrun, hwrite⟩
    next => cases h
  next => cases h

theorem run_of_broken {source : Source} (h : source.broken = true) : run source = throw .unreadable := if_pos h

theorem run_of_whole {source : Source} (h : source.broken = false) : run source =
    match compile source.content with
    | .error diagnostics => do
      complain diagnostics
      pure .compileError
    | .ok program => perform program := by
  simp [run, h]

theorem run_of_compile {content : Bytes} {program : Program} (h : compile content = .ok program) :
    run (.ofBytes content) = perform program := by
  rw [run_of_whole rfl, Source.ofBytes, h]

theorem run_of_complaints {content : Bytes} {diagnostics : List Diagnostic} (h : compile content = .error diagnostics) :
    run (.ofBytes content) = (do
      complain diagnostics
      pure .compileError) := by
  rw [run_of_whole rfl, Source.ofBytes, h]

end Session

end Scriptlet
