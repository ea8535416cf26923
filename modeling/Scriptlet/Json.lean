/-
JSON documents, and their two written forms: `compact` without any space, and `indented` with one item per line, two
spaces deeper for each level. Fields keep their order. A number that is not finite has no form in JSON and is written as
`null`.

Tokens, values and trees have documents. A constructor with fields is an object of one field named for it; one without
is a string.
-/
import Scriptlet.Tree

namespace Scriptlet

inductive Json where
  | null
  | bool (b : Bool)
  | natural (n : Nat)
  | number (x : Float)
  | string (text : String)
  | array (items : List Json)
  | object (fields : List (String × Json))

namespace Json

def hexDigit (n : Nat) : Char := Char.ofNat (if n < 10 then n + '0'.toNat else n - 10 + 'a'.toNat)

/-- how a character is written in a string: quote, backslash and control characters are escaped, and nothing else -/
def escape (c : Char) : List Char :=
  match c with
  | '"' => ['\\', '"']
  | '\\' => ['\\', '\\']
  | '\x08' => ['\\', 'b']
  | '\x0c' => ['\\', 'f']
  | '\n' => ['\\', 'n']
  | '\r' => ['\\', 'r']
  | '\t' => ['\\', 't']
  | _ => if c.toNat < 0x20 then ['\\', 'u', '0', '0', hexDigit (c.toNat / 16), hexDigit (c.toNat % 16)] else [c]

def quote (text : String) : String := "\"" ++ String.ofList (text.toList.flatMap escape) ++ "\""

def braced (text : String) : String := "\x7b" ++ text ++ "\x7d"

mutual

def compact : Json → String
  | .null => "null"
  | .bool b => if b then "true" else "false"
  | .natural n => Nat.repr n
  | .number x => (Numeral.json? x).getD "null"
  | .string text => quote text
  | .array items => "[" ++ ",".intercalate (compactItems items) ++ "]"
  | .object fields => braced (",".intercalate (compactFields fields))

def compactItems : List Json → List String
  | [] => []
  | item :: rest => item.compact :: compactItems rest

def compactFields : List (String × Json) → List String
  | [] => []
  | (key, value) :: rest => (quote key ++ ":" ++ value.compact) :: compactFields rest

end

def lineStart (depth : Nat) : String := "\n" ++ String.ofList (List.replicate (2 * depth) ' ')

/-- lines one level deeper than the brackets around them -/
def lines (depth : Nat) (items : List String) : String :=
  if items = [] then ""
  else lineStart (depth + 1) ++ ("," ++ lineStart (depth + 1)).intercalate items ++ lineStart depth

mutual

def indented (depth : Nat) : Json → String
  | .array items => "[" ++ lines depth (indentedItems (depth + 1) items) ++ "]"
  | .object fields => braced (lines depth (indentedFields (depth + 1) fields))
  | .null => compact .null
  | .bool b => compact (.bool b)
  | .natural n => compact (.natural n)
  | .number x => compact (.number x)
  | .string text => compact (.string text)

def indentedItems (depth : Nat) : List Json → List String
  | [] => []
  | item :: rest => item.indented depth :: indentedItems depth rest

def indentedFields (depth : Nat) : List (String × Json) → List String
  | [] => []
  | (key, value) :: rest => (quote key ++ ": " ++ value.indented depth) :: indentedFields depth rest

end

end Json

/-! ## Tokens, values and trees -/

def Json.tagged (tag : String) (content : Json) : Json := .object [(tag, content)]

def TokenKind.toJson (kind : TokenKind) : Json :=
  match kind with
  | .string text => .tagged kind.label (.string text)
  | .number x => .tagged kind.label (.number x)
  | _ => .string kind.label

def Token.toJson (t : Token) : Json :=
  .object [("token_type", t.kind.toJson), ("lexeme", .string t.lexeme), ("line", .natural t.line)]

def Value.toJson : Value → Json
  | .nil => .string "Nil"
  | .bool b => .tagged "Bool" (.bool b)
  | .number x => .tagged "Number" (.number x)
  | .string text => .tagged "String" (.string text)

def Expr.toJson : Expr → Json
  | .literal value => .tagged "Literal" value.toJson
  | .unary operator operand => .tagged "Unary" (.object [("operator", operator.toJson), ("right", operand.toJson)])
  | .binary left operator right =>
    .tagged "Binary" (.object [("left", left.toJson), ("operator", operator.toJson), ("right", right.toJson)])
  | .logical left operator right =>
    .tagged "Logical" (.object [("left", left.toJson), ("operator", operator.toJson), ("right", right.toJson)])
  | .grouping inner => .tagged "Grouping" inner.toJson
  | .var name => .tagged "Variable" name.toJson
  | .assign name value => .tagged "Assign" (.object [("name", name.toJson), ("value", value.toJson)])

mutual

def Stmt.toJson : Stmt → Json
  | .expression expr => .tagged "Expression" expr.toJson
  | .print expr => .tagged "Print" expr.toJson
  | .declare name none => .tagged "Var" (.object [("name", name.toJson), ("initializer", .null)])
  | .declare name (some expr) => .tagged "Var" (.object [("name", name.toJson), ("initializer", expr.toJson)])
  | .assign name value => .tagged "Assign" (.object [("name", name.toJson), ("value", value.toJson)])
  | .block body => .tagged "Block" (.array (Stmt.toJsons body))
  | .branch condition yes no =>
    .tagged "If" (.object [("condition", condition.toJson), ("then_branch", yes.toJson), ("else_branch", no.toJson)])
  | .skip => .string "NoOp"

def Stmt.toJsons : List Stmt → List Json
  | [] => []
  | s :: rest => s.toJson :: Stmt.toJsons rest

end

end Scriptlet
