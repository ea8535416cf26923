/-
Syntax trees. Names and operators stay in the tree as the tokens they were read from. `Stmt.assign` is never read from a
source, where an assignment is an expression, but it can be built and executed. The missing branch of a conditional is
`Stmt.skip`.

A tree is shown in prefix form, each operation in parentheses with its operator first: `print 1 + 2;` shows as
`(print (+ 1.0 2.0))`. Texts stand without quotes, and a missing branch is left out.
-/
import Scriptlet.Token
import Scriptlet.Value

namespace Scriptlet

inductive Expr where
  | literal (value : Value)
  | unary (operator : Token) (operand : Expr)
  | binary (left : Expr) (operator : Token) (right : Expr)
  | logical (left : Expr) (operator : Token) (right : Expr)
  | grouping (inner : Expr)
  | var (name : Token)
  | assign (name : Token) (value : Expr)
  deriving DecidableEq

inductive Stmt where
  | expression (expr : Expr)
  | print (expr : Expr)
  | declare (name : Token) (initial : Option Expr)
  | assign (name : Token) (value : Expr)
  | block (body : List Stmt)
  | branch (condition : Expr) (yes no : Stmt)
  | skip

abbrev Program := List Stmt

/-! ## Prefix form -/

def Value.prefixed : Value → String
  | .number x => Numeral.full x
  | v => v.render

def parenthesized (parts : List String) : String := "(" ++ " ".intercalate parts ++ ")"

def Expr.prefixed : Expr → String
  | .literal v => v.prefixed
  | .unary operator operand => parenthesized [operator.lexeme, operand.prefixed]
  | .binary left operator right => parenthesized [operator.lexeme, left.prefixed, right.prefixed]
  | .logical left operator right => parenthesized [operator.lexeme, left.prefixed, right.prefixed]
  | .grouping inner => parenthesized ["group", inner.prefixed]
  | .var name => name.lexeme
  | .assign name value => parenthesized ["=", name.lexeme, value.prefixed]

mutual

def Stmt.prefixed : Stmt → String
  | .expression expr => parenthesized [";", expr.prefixed]
  | .print expr => parenthesized ["print", expr.prefixed]
  | .declare name none => parenthesized ["var", name.lexeme]
  | .declare name (some expr) => parenthesized ["var", name.lexeme, expr.prefixed]
  | .assign name value => parenthesized ["=", name.lexeme, value.prefixed]
  | .block body => parenthesized ("block" :: Stmt.prefixedAll body)
  | .branch condition yes .skip => parenthesized ["if", condition.prefixed, yes.prefixed]
  | .branch condition yes no => parenthesized ["if", condition.prefixed, yes.prefixed, no.prefixed]
  | .skip => parenthesized ["nop"]

def Stmt.prefixedAll : List Stmt → List String
  | [] => []
  | s :: rest => s.prefixed :: Stmt.prefixedAll rest

end

end Scriptlet
