/-
The grammar.

  program     : declaration* ;
  declaration : "var" IDENTIFIER ( "=" expression )? ";" | statement ;
  statement   : "if" "(" expression ")" statement ( "else" statement )? | "print" expression ";"
              | "{" declaration* "}" | expression ";" ;
  expression  : assignment ;
  assignment  : IDENTIFIER "=" assignment | disjunction ;
  disjunction : conjunction ( "or" conjunction )* ;
  conjunction : equality ( "and" equality )* ;
  equality    : comparison ( ( "!=" | "==" ) comparison )* ;
  comparison  : term ( ( ">" | ">=" | "<" | "<=" ) term )* ;
  term        : factor ( ( "-" | "+" ) factor )* ;
  factor      : unary ( ( "*" | "/" ) unary )* ;
  unary       : ( "!" | "-" ) unary | primary ;
  primary     : NUMBER | STRING | "true" | "false" | IDENTIFIER | "(" expression ")" ;

Constructs nest to a limited depth. A `Level` holds the rules for one depth; wherever a construct goes one deeper, its
rule is taken from the level inside. The innermost level is `exhausted` and refuses to read anything, and every other
one is built from the level inside it by `enclosing`, so the whole grammar is `enclosing` iterated.

A token list is read up to its first end mark; a list without one ends on the line of its last token. The result is the
statements that could be read and what is to be said about the others, in the order in which it was found.
-/
import Scriptlet.Grammar.Rule

namespace Scriptlet

/-- the rules of one depth -/
structure Level where
  /-- an assignment, or an expression of a tighter kind -/
  assignment : Rule Expr
  /-- signs and their operand, or an expression without a sign -/
  unary : Rule Expr
  /-- a statement that declares nothing -/
  statement : Rule Stmt
  /-- a declaration or another statement -/
  declaration : Rule Stmt
  /-- the inside of a block and its closing brace -/
  block : Rule (List Stmt)

namespace Level

/-- no room for another level -/
def exhausted : Level where
  assignment := .fail .tooMuchNesting
  unary := .fail .tooMuchNesting
  statement := .fail .tooMuchNesting
  declaration := .fail .tooMuchNesting
  block := .fail .tooMuchNesting

/-- the signs `!` and `-`, which stand before their operand -/
def isSign : TokenKind → Bool
  | .bang | .minus => true
  | _ => false

def isFactor : TokenKind → Bool
  | .star | .slash => true
  | _ => false

def isTerm : TokenKind → Bool
  | .minus | .plus => true
  | _ => false

def isComparison : TokenKind → Bool
  | .greater | .greaterEqual | .less | .lessEqual => true
  | _ => false

def isEquality : TokenKind → Bool
  | .bangEqual | .equalEqual => true
  | _ => false

/-- the words kept for statements the language does not have -/
def isReserved : TokenKind → Bool
  | .kwFor | .kwWhile | .kwFun | .kwReturn => true
  | _ => false

/-- the expression that a single token is -/
def atom? (t : Token) : Option Expr :=
  match t.kind with
  | .kwFalse => some (.literal (.bool false))
  | .kwTrue => some (.literal (.bool true))
  | .number x => some (.literal (.number x))
  | .string text => some (.literal (.string text))
  | .identifier => some (.var t)
  | _ => none

/-- an assignment to what stands on the left of the equals sign at `here`; anything but a name is no target, and then
the left side stands for the whole -/
def assignTo (target : Expr) (here : List Token) (value : Expr) : Expr × List Fault :=
  match target with
  | .var name => (.assign name value, [])
  | _ => (target, [⟨.invalidTarget, here⟩])

variable (inside : Level)

/-- an expression goes one level deeper -/
def expression : Rule Expr := inside.assignment

def primary : Rule Expr :=
  .atom atom? (.after (· = .leftParen)
    (fun _ => (inside.expression.left (.expect .rightParen .expectParenAfterExpression)).map .grouping)
    (.fail .expectExpression))

/-- signs, each of them one level deeper than the one before -/
def signed : Rule Expr := .after isSign (fun operator => inside.unary.map (.unary operator)) inside.primary

def factor : Rule Expr := inside.signed.chain isFactor .binary

def term : Rule Expr := inside.factor.chain isTerm .binary

def comparison : Rule Expr := inside.term.chain isComparison .binary

def equality : Rule Expr := inside.comparison.chain isEquality .binary

def conjunction : Rule Expr := inside.equality.chain (· = .kwAnd) .logical

def disjunction : Rule Expr := inside.conjunction.chain (· = .kwOr) .logical

/-- assignments, grouped from the right, the assigned value one level deeper -/
def assigning : Rule Expr :=
  inside.disjunction.followed (· = .equal)
    (fun target here => inside.assignment.conclude (assignTo target here)) id

/-- a conditional behind its `if`, the branches one level deeper -/
def conditional : Rule Stmt :=
  (Rule.expect .leftParen .expectParenAfterIf).right <|
    (inside.expression.left (.expect .rightParen .expectParenAfterCondition)).bind fun condition =>
      inside.statement.followed (· = .kwElse)
        (fun yes _ => inside.statement.map (.branch condition yes)) (fun yes => .branch condition yes .skip)

def printing : Rule Stmt :=
  (inside.expression.left (.expect .semicolon .expectSemicolonAfterValue)).map .print

def bare : Rule Stmt :=
  (inside.expression.left (.expect .semicolon .expectSemicolonAfterExpression)).map .expression

/-- every statement but a declaration -/
def command : Rule Stmt :=
  .after (· = .kwIf) (fun _ => inside.conditional) <|
    .after (· = .kwPrint) (fun _ => inside.printing) <|
      .after (· = .leftBrace) (fun _ => inside.block.map .block) <|
        .refuse isReserved (fun t => .reserved t.lexeme) inside.bare

def declaring : Rule Stmt :=
  ((Rule.expect .identifier .expectName).followed (· = .equal)
    (fun name _ => inside.expression.map fun initial => Stmt.declare name (some initial))
    (fun name => .declare name none)).left (.expect .semicolon .expectSemicolonAfterDeclaration)

def declared : Rule Stmt := .after (· = .kwVar) (fun _ => inside.declaring) inside.command

def enclosing : Level where
  assignment := inside.assigning
  unary := inside.signed
  statement := inside.command
  declaration := inside.declared
  block := .block inside.declared

/-- the level with room for `n` levels, itself included -/
def withRoom : Nat → Level
  | 0 => exhausted
  | n + 1 => (withRoom n).enclosing

end Level

def maxNesting : Nat := 128

/-- the rules that stand outside of everything -/
def outermost : Level := .withRoom (maxNesting + 1)

/-! ## Programs -/

structure Parsing where
  program : Program
  diagnostics : List Diagnostic

namespace Parsing

/-- the tokens before the first end mark -/
def body (tokens : List Token) : List Token := tokens.takeWhile (·.kind ≠ .eof)

/-- the line on which a token list ends: that of the first end mark or else that of the last token, and the first line
if there is no token at all -/
def endLine (tokens : List Token) : Nat :=
  match tokens.find? (·.kind = .eof) with
  | some mark => mark.line
  | none => (tokens.getLast?.map Token.line).getD 1

def ofTokens (tokens : List Token) : Parsing :=
  let read := sequence outermost.declaration (fun _ => false) (body tokens)
  ⟨read.statements, read.faults.map (Fault.diagnostic (endLine tokens))⟩

end Parsing

end Scriptlet
