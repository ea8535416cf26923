/-
Segments. A source is cut from the left into segments: blank ones (space, line break, comment), tokens, and faults.
`cut` takes the longest segment that begins with a given byte. A string that is never closed is one fault up to the end
of the source; a byte that begins nothing is a fault of its own.

`cut_text_append_rest`: a segment and what is left of it make up the source, so nothing is lost or read twice.
`cut_rest_length`: a segment is never empty.
-/
import Scriptlet.Bytes
import Scriptlet.Numeral
import Scriptlet.Token

namespace Scriptlet

inductive LexicalFault where
  | unterminatedString
  | unexpectedCharacter
  deriving DecidableEq

def LexicalFault.message : LexicalFault → String
  | .unterminatedString => "Unterminated string"
  | .unexpectedCharacter => "Unexpected character"

/-- what a segment is -/
inductive Piece where
  | blank
  | token (kind : TokenKind)
  | fault (cause : LexicalFault)
  deriving DecidableEq

/-- the first segment of a source, and the source after it -/
structure Segment where
  piece : Piece
  text : Bytes
  rest : Bytes
  deriving DecidableEq

namespace Segment

def single (piece : Piece) (b : UInt8) (rest : Bytes) : Segment := ⟨piece, [b], rest⟩

/-- a segment that goes on while the bytes satisfy `p` -/
def spanning (piece : Bytes → Piece) (p : UInt8 → Bool) (b : UInt8) (rest : Bytes) : Segment :=
  ⟨piece (b :: rest.takeWhile p), b :: rest.takeWhile p, rest.dropWhile p⟩

/-- an operator that an equals sign prolongs -/
def operator (short long : TokenKind) (b : UInt8) : Bytes → Segment
  | [] => single (.token short) b []
  | c :: rest => if c = byte '=' then ⟨.token long, [b, c], rest⟩ else single (.token short) b (c :: rest)

/-- a slash, or a comment up to the end of its line -/
def slash (b : UInt8) : Bytes → Segment
  | [] => single (.token .slash) b []
  | c :: rest =>
    if c = byte '/' then
      ⟨.blank, b :: c :: rest.takeWhile (· != byte '\n'), rest.dropWhile (· != byte '\n')⟩
    else single (.token .slash) b (c :: rest)

/-- a string up to the next quote, which it may not escape -/
def quoted (b : UInt8) (rest : Bytes) : Segment :=
  let content := rest.takeWhile (· != byte '"')
  match rest.dropWhile (· != byte '"') with
  | [] => ⟨.fault .unterminatedString, b :: rest, []⟩
  | q :: after => ⟨.token (.string (Utf8.decode content)), b :: content ++ [q], after⟩

def numeral (text : Bytes) : Piece := .token (.number ((Numeral.read? (Utf8.characters text)).getD 0))

/-- digits, and a point with any number of digits after it -/
def number (b : UInt8) (rest : Bytes) : Segment :=
  let whole := b :: rest.takeWhile Bytes.isDigit
  match rest.dropWhile Bytes.isDigit with
  | [] => ⟨numeral whole, whole, []⟩
  | c :: after =>
    if c = byte '.' then
      let text := whole ++ c :: after.takeWhile Bytes.isDigit
      ⟨numeral text, text, after.dropWhile Bytes.isDigit⟩
    else ⟨numeral whole, whole, c :: after⟩

def wordPiece (text : Bytes) : Piece := .token (.ofWord (Utf8.decode text))

def isBlank (b : UInt8) : Bool := b = byte ' ' || b = byte '\r' || b = byte '\t' || b = byte '\n'

/-- the bytes that are a token by themselves -/
def punctuator? (b : UInt8) : Option TokenKind :=
  match Char.ofUInt8 b with
  | '(' => some .leftParen
  | ')' => some .rightParen
  | '{' => some .leftBrace
  | '}' => some .rightBrace
  | ',' => some .comma
  | '-' => some .minus
  | '+' => some .plus
  | ';' => some .semicolon
  | '*' => some .star
  | _ => none

/-- the operators that an equals sign prolongs, without it and with it -/
def operator? (b : UInt8) : Option (TokenKind × TokenKind) :=
  match Char.ofUInt8 b with
  | '!' => some (.bang, .bangEqual)
  | '=' => some (.equal, .equalEqual)
  | '<' => some (.less, .lessEqual)
  | '>' => some (.greater, .greaterEqual)
  | _ => none

/-- the longest segment of the source `b :: rest` -/
def cut (b : UInt8) (rest : Bytes) : Segment :=
  match punctuator? b, operator? b with
  | some kind, _ => single (.token kind) b rest
  | none, some (short, long) => operator short long b rest
  | none, none =>
    if isBlank b then single .blank b rest
    else if b = byte '/' then slash b rest
    else if b = byte '"' then quoted b rest
    else if Bytes.isDigit b then number b rest
    else if Bytes.isLetter b then spanning wordPiece Bytes.isWord b rest
    else single (.fault .unexpectedCharacter) b rest

/-- text and rest are what the segment was cut from -/
def Covers (s : Segment) (b : UInt8) (source : Bytes) : Prop := s.text ++ s.rest = b :: source ∧ s.text ≠ []

theorem single_covers (piece : Piece) (b : UInt8) (rest : Bytes) : (single piece b rest).Covers b rest := by
  simp [single, Covers]

theorem spanning_covers (piece : Bytes → Piece) (p : UInt8 → Bool) (b : UInt8) (rest : Bytes) :
    (spanning piece p b rest).Covers b rest := by
  simp [spanning, Covers]

theorem operator_covers (short long : TokenKind) (b : UInt8) (rest : Bytes) :
    (operator short long b rest).Covers b rest := by
  cases rest with
  | nil => exact single_covers _ _ _
  | cons c rest =>
    simp only [operator]
    split
    · simp [Covers]
    · exact single_covers _ _ _

theorem slash_covers (b : UInt8) (rest : Bytes) : (slash b rest).Covers b rest := by
  cases rest with
  | nil => exact single_covers _ _ _
  | cons c rest =>
    simp only [slash]
    split
    · simp [Covers]
    · exact single_covers _ _ _

theorem quoted_covers (b : UInt8) (rest : Bytes) : (quoted b rest).Covers b rest := by
  have whole := List.takeWhile_append_dropWhile (p := (· != byte '"')) (l := rest)
  simp only [quoted]
  split
  · simp [Covers]
  · rename_i q after h
    rw [h] at whole
    simp [Covers, whole]

theorem number_covers (b : UInt8) (rest : Bytes) : (number b rest).Covers b rest := by
  have whole := List.takeWhile_append_dropWhile (p := Bytes.isDigit) (l := rest)
  simp only [number]
  split
  · rename_i h
    rw [h] at whole
    simpa [Covers] using whole
  · rename_i c after h
    rw [h] at whole
    split
    · simpa [Covers] using whole
    · simpa [Covers] using whole

theorem cut_covers (b : UInt8) (rest : Bytes) : (cut b rest).Covers b rest := by
  unfold cut
  split
  · exact single_covers _ _ _
  · exact operator_covers _ _ _ _
  · split
    · exact single_covers _ _ _
    split
    · exact slash_covers _ _
    split
    · exact quoted_covers _ _
    split
    · exact number_covers _ _
    split
    · exact spanning_covers _ _ _ _
    · exact single_covers _ _ _

/-- Nothing of the source is lost or read twice. -/
theorem cut_text_append_rest (b : UInt8) (rest : Bytes) : (cut b rest).text ++ (cut b rest).rest = b :: rest :=
  (cut_covers b rest).1

/-- A segment is never empty. -/
theorem cut_rest_length (b : UInt8) (rest : Bytes) : (cut b rest).rest.length ≤ rest.length := by
  have h := congrArg List.length (cut_text_append_rest b rest)
  have nonempty := List.length_pos_iff.2 (cut_covers b rest).2
  simp only [List.length_append, List.length_cons] at h
  omega

end Segment

end Scriptlet
