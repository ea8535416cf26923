/-
Reading with a cursor. The grammar as a machine: a token list that is never cut, the position of the next token in it, a
count of the constructs that are open, and the complaints so far. Rules move the position and give back what they have
read, or the complaint that stopped them. Nothing is assumed about the machine. Looking at a token outside of the list,
or at the one before the first, or closing more constructs than were opened is a crash; and a rule that calls itself, or
a loop that goes round, without end has no result at all.

The machine writes down every place it has been at, and where each declaration began and ended. That it never crashes,
that it ends, where it goes on its way, and that it reads what the grammar reads is shown in `CursorReading`.
-/
import Mathlib
import Scriptlet.Proofs.Canonical

namespace Scriptlet

/-- what the machine has done -/
inductive Footprint where
  /-- it was at a position, with some constructs open -/
  | place (position depth : Nat)
  /-- it has read a declaration, or skipped what was none -/
  | declared (start stop : Nat)
  deriving DecidableEq

def Footprint.position : Footprint → Nat
  | .place position _ => position
  | .declared _ stop => stop

/-- the machine between two steps -/
structure Cursor where
  tokens : List Token
  /-- the place of the next token -/
  position : Nat
  /-- how many constructs are open -/
  depth : Nat
  diagnostics : List Diagnostic
  trail : List Footprint

/-- what must not happen -/
inductive Crash where
  | outOfRange
  | beforeFirst
  | unbalanced
  deriving DecidableEq

/-- steps of the machine, which may crash or go on forever -/
abbrev Steps := StateT Cursor (ExceptT Crash Option)

/-- steps that may end with a complaint -/
abbrev Walk := ExceptT Diagnostic Steps

namespace Cursor

/-! ## Single steps -/

def peek : Steps Token := do
  let c ← get
  match c.tokens[c.position]? with
  | some t => return t
  | none => throw .outOfRange

def previous : Steps Token := do
  let c ← get
  if c.position = 0 then throw .beforeFirst
  match c.tokens[c.position - 1]? with
  | some t => return t
  | none => throw .outOfRange

def isAtEnd : Steps Bool := return (← peek).kind = .eof

/-- the cursor at another place, which it writes down -/
def put (c : Cursor) (position depth : Nat) : Cursor :=
  { c with position := position, depth := depth, trail := c.trail ++ [.place position depth] }

/-- goes behind the next token, if there is one, and gives back the token read last -/
def advance : Steps Token := do
  unless ← isAtEnd do modify fun c => c.put (c.position + 1) c.depth
  previous

/-- is the next token there, and of a kind that `p` accepts -/
def check (p : TokenKind → Bool) : Steps Bool := do
  if ← isAtEnd then return false
  return p (← peek).kind

def accept (p : TokenKind → Bool) : Steps Bool := do
  if ← check p then
    let _ ← advance
    return true
  return false

def complaint (t : Token) (cause : Cause) : Diagnostic := .grammatical t.line t.location cause.message

/-- ends with a complaint about the next token -/
def complain {α : Type} (cause : Cause) : Walk α := do
  throw (complaint (← peek) cause)

/-- goes behind a token of the given kind, or complains about the next token -/
def consume (kind : TokenKind) (cause : Cause) : Walk Token := do
  if ← check (· = kind) then advance else complain cause

/-- keeps a complaint and goes on -/
def report (d : Diagnostic) : Steps Unit := modify fun c => { c with diagnostics := c.diagnostics ++ [d] }

/-- how many constructs are open -/
def nesting : Steps Nat := return (← get).depth

def here : Steps Nat := return (← get).position

/-- writes down a declaration that began at `start` and ends here -/
def record (start : Nat) : Steps Unit :=
  modify fun c => { c with trail := c.trail ++ [.declared start c.position] }

def enter : Steps Unit := modify fun c => c.put c.position (c.depth + 1)

def leave : Steps Unit := do
  let c ← get
  if c.depth = 0 then throw .unbalanced
  set (c.put c.position (c.depth - 1))

end Cursor

open Cursor

/-! ## Rules -/

/-- what a machine is set up with -/
structure Machine where
  /-- how deep constructs may nest -/
  limit : Nat
  /-- the kinds before which a statement can begin again -/
  resumes : TokenKind → Bool

namespace Machine

/-- passes over tokens up to a place where a statement can begin -/
def skip (m : Machine) : Steps Unit := do
  if ← isAtEnd then return
  if (← previous).kind = .semicolon then return
  if m.resumes (← peek).kind then return
  let _ ← advance
  m |>.skip
partial_fixpoint

/-- passes over the token to blame, and on to a place where a statement can begin -/
def resume (m : Machine) : Steps Unit := do
  let _ ← advance
  m.skip

/-- a rule with one more construct open, unless there are too many -/
abbrev nested (m : Machine) {α : Type} (rule : Walk α) : Steps (Except Diagnostic α) := do
  if m.limit ≤ (← nesting) then complain .tooMuchNesting
  else
    enter
    let result ← rule.run
    leave
    return result

mutual

def expression (m : Machine) : Walk Expr := m.nested (m |>.assignment)
partial_fixpoint

def assignment (m : Machine) : Walk Expr := do
  let target ← m |>.operands 6
  if ← accept (· = .equal) then
    let equals ← previous
    let value ← m.nested (m |>.assignment)
    match target with
    | .var name => return .assign name value
    | _ =>
      -- the left side stands for the whole
      report (complaint equals .invalidTarget)
      return target
  else return target
partial_fixpoint

/-- operands with operators between them, of the tier given -/
def operands (m : Machine) : Nat → Walk Expr
  | 0 => m |>.unary
  | k + 1 => do
    let left ← m |>.operands k
    m |>.operations k left
partial_fixpoint

/-- operators that join operands of a tier, and their right operands, as long as there are any -/
def operations (m : Machine) (k : Nat) (left : Expr) : Walk Expr := do
  if ← check (Level.accepts k) then
    let operator ← advance
    let right ← m |>.operands k
    m |>.operations k (Level.join k left operator right)
  else return left
partial_fixpoint

def unary (m : Machine) : Walk Expr := do
  if ← accept Level.isSign then
    let operator ← previous
    let right ← m.nested (m |>.unary)
    return .unary operator right
  else m |>.primary
partial_fixpoint

def primary (m : Machine) : Walk Expr := do
  match Level.atom? (← peek) with
  | some e =>
    let _ ← advance
    return e
  | none =>
    if ← accept (· = .leftParen) then
      let e ← m |>.expression
      let _ ← consume .rightParen .expectParenAfterExpression
      return .grouping e
    else complain .expectExpression
partial_fixpoint

end

def printing (m : Machine) : Walk Stmt := do
  let value ← m.expression
  let _ ← consume .semicolon .expectSemicolonAfterValue
  return .print value

def bare (m : Machine) : Walk Stmt := do
  let e ← m.expression
  let _ ← consume .semicolon .expectSemicolonAfterExpression
  return .expression e

/-- the declaration of a name, with a value if an equals sign comes next -/
def initialized (m : Machine) (name : Token) : Walk Stmt := do
  if ← accept (· = .equal) then
    let initial ← m.expression
    return .declare name (some initial)
  else return .declare name none

def declaring (m : Machine) : Walk Stmt := do
  let name ← consume .identifier .expectName
  let s ← m.initialized name
  let _ ← consume .semicolon .expectSemicolonAfterDeclaration
  return s

def closing (statements : List Stmt) : Walk (List Stmt) := do
  let _ ← consume .rightBrace .expectBraceAfterBlock
  return statements

mutual

def statement (m : Machine) : Walk Stmt := do
  if ← accept (· = .kwIf) then m |>.conditional
  else if ← accept (· = .kwPrint) then m.printing
  else if ← accept (· = .leftBrace) then
    let body ← m.nested (m |>.block)
    return .block body
  else if ← check Level.isReserved then complain (.reserved (← peek).lexeme)
  else m.bare
partial_fixpoint

def conditional (m : Machine) : Walk Stmt := do
  let _ ← consume .leftParen .expectParenAfterIf
  let condition ← m.expression
  let _ ← consume .rightParen .expectParenAfterCondition
  let yes ← m.nested (m |>.statement)
  if ← accept (· = .kwElse) then
    let no ← m.nested (m |>.statement)
    return .branch condition yes no
  else return .branch condition yes .skip
partial_fixpoint

def block (m : Machine) : Steps (Except Diagnostic (List Stmt)) := do
  let statements ← m |>.declarations (· = .rightBrace) []
  closing statements
partial_fixpoint

def declared (m : Machine) : Walk Stmt := do
  if ← accept (· = .kwVar) then m.declaring else m |>.statement
partial_fixpoint

/-- a declaration; what is none is complained about and passed over -/
def declaration (m : Machine) : Steps (Option Stmt) := do
  match ← (m |>.declared).run with
  | .ok s => return some s
  | .error d =>
    report d
    m.resume
    return none
partial_fixpoint

/-- declarations up to a token of a kind that `closes` accepts, or up to the end, behind the statements read before -/
def declarations (m : Machine) (closes : TokenKind → Bool) (read : List Stmt) : Steps (List Stmt) := do
  if ← check closes then return read
  else if ← isAtEnd then return read
  else
    let start ← here
    let s ← m |>.declaration
    record start
    m |>.declarations closes (read ++ s.toList)
partial_fixpoint

end

def standard : Machine where
  limit := maxNesting
  resumes := TokenKind.beginsStatement

end Machine

namespace Cursor

/-! ## Whole token lists -/

/-- tokens with an end mark behind them, if the last one is not an end mark already -/
def terminated (tokens : List Token) : List Token :=
  if tokens.getLast?.map Token.kind = some .eof then tokens
  else tokens ++ [.atEnd ((tokens.getLast?.map Token.line).getD 1)]

def start (tokens : List Token) : Cursor := ⟨terminated tokens, 0, 0, [], [.place 0 0]⟩

/-- reads a whole token list; what is left is the cursor at its last place -/
def parse (tokens : List Token) : Option (Except Crash (Program × Cursor)) :=
  ((Machine.standard.declarations (fun _ => false) []).run (start tokens)).run

end Cursor

end Scriptlet
