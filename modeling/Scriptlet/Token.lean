/-
Tokens and diagnostics. A token is a kind, the source text it was cut from and the line on which it ends. Strings and
numbers carry the value they stand for in their kind; two kinds have the same shape when they differ in such a value at
most.

A diagnostic is what is said about a source that is no program. A lexical one names a line; a grammatical one also names
the token at which the grammar gave up.
-/
import Scriptlet.Numeral

namespace Scriptlet

inductive TokenKind where
  | leftParen | rightParen | leftBrace | rightBrace
  | comma | minus | plus | semicolon | slash | star
  | bang | bangEqual | equal | equalEqual | greater | greaterEqual | less | lessEqual
  | identifier
  | string (text : String)
  | number (value : Float)
  | kwAnd | kwElse | kwFalse | kwFor | kwFun | kwIf | kwOr | kwPrint | kwReturn | kwTrue | kwVar | kwWhile
  | eof
  deriving DecidableEq

namespace TokenKind

/-- the kinds without a value -/
def plain : List TokenKind :=
  [.leftParen, .rightParen, .leftBrace, .rightBrace, .comma, .minus, .plus, .semicolon, .slash, .star,
   .bang, .bangEqual, .equal, .equalEqual, .greater, .greaterEqual, .less, .lessEqual, .identifier,
   .kwAnd, .kwElse, .kwFalse, .kwFor, .kwFun, .kwIf, .kwOr, .kwPrint, .kwReturn, .kwTrue, .kwVar, .kwWhile, .eof]

def label : TokenKind → String
  | .leftParen => "LEFT_PAREN"
  | .rightParen => "RIGHT_PAREN"
  | .leftBrace => "LEFT_BRACE"
  | .rightBrace => "RIGHT_BRACE"
  | .comma => "COMMA"
  | .minus => "MINUS"
  | .plus => "PLUS"
  | .semicolon => "SEMICOLON"
  | .slash => "SLASH"
  | .star => "STAR"
  | .bang => "BANG"
  | .bangEqual => "BANG_EQUAL"
  | .equal => "EQUAL"
  | .equalEqual => "EQUAL_EQUAL"
  | .greater => "GREATER"
  | .greaterEqual => "GREATER_EQUAL"
  | .less => "LESS"
  | .lessEqual => "LESS_EQUAL"
  | .identifier => "IDENTIFIER"
  | .string _ => "STRING"
  | .number _ => "NUMBER"
  | .kwAnd => "AND"
  | .kwElse => "ELSE"
  | .kwFalse => "FALSE"
  | .kwFor => "FOR"
  | .kwFun => "FUN"
  | .kwIf => "IF"
  | .kwOr => "OR"
  | .kwPrint => "PRINT"
  | .kwReturn => "RETURN"
  | .kwTrue => "TRUE"
  | .kwVar => "VAR"
  | .kwWhile => "WHILE"
  | .eof => "EOF"

/-- the words that are not identifiers -/
def keywords : List (String × TokenKind) :=
  [("and", .kwAnd), ("else", .kwElse), ("false", .kwFalse), ("for", .kwFor), ("fun", .kwFun), ("if", .kwIf),
   ("or", .kwOr), ("print", .kwPrint), ("return", .kwReturn), ("true", .kwTrue), ("var", .kwVar), ("while", .kwWhile)]

def ofWord (word : String) : TokenKind := (keywords.lookup word).getD .identifier

/-- a kind with its value blanked out -/
def shape : TokenKind → TokenKind
  | .string _ => .string ""
  | .number _ => .number 0
  | kind => kind

/-- do two kinds differ in their values at most -/
def sameShape (a b : TokenKind) : Bool := a.shape = b.shape

end TokenKind

structure Token where
  kind : TokenKind
  lexeme : String
  line : Nat
  deriving DecidableEq

namespace Token

/-- the mark that closes every token sequence -/
def atEnd (line : Nat) : Token := ⟨.eof, "", line⟩

/-- do two tokens agree in shape, text and line -/
def agrees (a b : Token) : Bool := a.kind.sameShape b.kind && a.lexeme == b.lexeme && a.line == b.line

/-- where a diagnostic says it found the token -/
def location (t : Token) : String :=
  match t.kind with
  | .eof => "at end"
  | _ => "at '" ++ t.lexeme ++ "'"

/-- a token on one line: label, text and value -/
def render (t : Token) : String :=
  let value := match t.kind with
    | .string text => text
    | .number x => Numeral.short x
    | _ => "null"
  t.kind.label ++ " " ++ t.lexeme ++ " " ++ value

end Token

inductive Diagnostic where
  | lexical (line : Nat) (message : String)
  | grammatical (line : Nat) (location : String) (message : String)
  deriving DecidableEq

namespace Diagnostic

def line : Diagnostic → Nat
  | .lexical line _ => line
  | .grammatical line _ _ => line

def render : Diagnostic → String
  | .lexical line message => "[line " ++ Nat.repr line ++ "] Error : " ++ message
  | .grammatical line location message => "[line " ++ Nat.repr line ++ "] Error " ++ location ++ ": " ++ message

end Diagnostic

end Scriptlet
