/-
Scanning with a cursor. The cutting of a source into tokens as a machine: a buffer that is never cut, the place in it
where the segment at hand begins, the place of the next byte, a count of lines, and the kind of a token that has been
made out and not been handed over yet. Lines are counted in two places, between segments and inside of strings, and a
comment leaves the end of its line to be counted later. Past the end of the buffer a zero byte is seen; the place one
behind the end of the buffer says that the end mark has been handed out.

Nothing is assumed about the machine. Reading a byte outside of the buffer, or a stretch that does not lie in it, is a
crash, and a loop that goes round without end has no result at all. That it never crashes, that it ends, and that it
hands out what a token stream hands out is shown in `ByteCursorSteps`.
-/
import Scriptlet.Proofs.Cursor
import Scriptlet.Session

namespace Scriptlet

/-- the machine between two steps -/
structure ByteCursor where
  buffer : Bytes
  /-- where the segment at hand begins -/
  start : Nat
  /-- the place of the next byte -/
  position : Nat
  line : Nat
  /-- the kind of a token not handed over yet -/
  pending : Option TokenKind
  deriving DecidableEq

/-- steps of the machine, which may crash or go on forever -/
abbrev ByteSteps := StateT ByteCursor (ExceptT Crash Option)

namespace ByteCursor

def new : ByteCursor := ⟨[], 0, 0, 1, none⟩

/-! ## Single steps -/

def isAtEnd : ByteSteps Bool := return decide ((← get).buffer.length ≤ (← get).position)

def here : ByteSteps UInt8 := do
  let c ← get
  match c.buffer[c.position]? with
  | some b => return b
  | none => throw .outOfRange

/-- the byte at the cursor, which goes behind it -/
def advance : ByteSteps UInt8 := do
  let b ← here
  modify fun c => { c with position := c.position + 1 }
  return b

/-- the byte at the cursor, or zero if there is none -/
def peek : ByteSteps UInt8 := do
  if ← isAtEnd then return 0 else here

/-- goes behind the given byte, if it comes next -/
def accept (b : UInt8) : ByteSteps Bool := do
  if ← isAtEnd then return false
  if (← peek) = b then
    let _ ← advance
    return true
  return false

def slice (i j : Nat) : ByteSteps Bytes := do
  let c ← get
  if i ≤ j ∧ j ≤ c.buffer.length then return (c.buffer.drop i).take (j - i) else throw .outOfRange

def before (i : Nat) : ByteSteps Nat := if i = 0 then throw .beforeFirst else return i - 1

def lexeme (i j : Nat) : ByteSteps String := return Utf8.decode (← slice i j)

def newLine : ByteSteps Unit := modify fun c => { c with line := c.line + 1 }

/-- keeps the kind of a token to be handed over -/
def found (kind : TokenKind) : ByteSteps (Except Diagnostic Unit) := do
  modify fun c => { c with pending := some kind }
  return .ok ()

def complain (cause : LexicalFault) : ByteSteps (Except Diagnostic Unit) :=
  return .error (.lexical (← get).line cause.message)

/-- goes on to the end of the line, or of the buffer -/
def skipComment : ByteSteps Unit := do
  let c ← get
  let behind ← slice c.position c.buffer.length
  match behind.findIdx? (· = byte '\n') with
  | some n => set { c with position := c.position + n }
  | none => set { c with position := c.buffer.length }

/-- drops what the buffer held and takes up a source; what arrives of one that cannot be read is kept -/
def load (source : Source) : ByteSteps (Except IoFailure Unit) := do
  set (⟨[], 0, 0, 1, none⟩ : ByteCursor)
  modify fun c => { c with buffer := c.buffer ++ source.content }
  if source.broken then return .error .unreadable else return .ok ()

end ByteCursor

open ByteCursor

/-! ## Segments -/

/-- the tables a machine is set up with -/
structure Lexicon where
  punctuator? : UInt8 → Option TokenKind
  /-- operators without an equals sign behind them, and with one -/
  operator? : UInt8 → Option (TokenKind × TokenKind)
  keyword? : Bytes → Option TokenKind

namespace Lexicon

/-- goes behind the bytes that `p` accepts -/
def pass (m : Lexicon) (p : UInt8 → Bool) : ByteSteps Unit := do
  if p (← peek) then
    let _ ← advance
    m |>.pass p
partial_fixpoint

/-- goes on to the next quote, and counts the lines that end before it -/
def passQuoted (m : Lexicon) : ByteSteps Unit := do
  if ← isAtEnd then return
  if (← peek) = byte '"' then return
  if (← advance) = byte '\n' then newLine
  m |>.passQuoted
partial_fixpoint

/-- a string, behind its first quote -/
def string (m : Lexicon) : ByteSteps (Except Diagnostic Unit) := do
  m.passQuoted
  if ← isAtEnd then complain .unterminatedString
  else
    let _ ← advance
    let c ← get
    found (.string (← lexeme (c.start + 1) (← before c.position)))

def number (m : Lexicon) : ByteSteps (Except Diagnostic Unit) := do
  m.pass Bytes.isDigit
  if ← accept (byte '.') then m.pass Bytes.isDigit
  let c ← get
  let text ← lexeme c.start c.position
  found (.number ((Numeral.read? text.toList).getD 0))

def word (m : Lexicon) : ByteSteps (Except Diagnostic Unit) := do
  m.pass Bytes.isWord
  let c ← get
  found ((m.keyword? (← slice c.start c.position)).getD .identifier)

/-- a segment; if it is a token, its kind is kept -/
def segment (m : Lexicon) : ByteSteps (Except Diagnostic Unit) := do
  let b ← advance
  match m.punctuator? b, m.operator? b with
  | some kind, _ => found kind
  | none, some (short, long) => if ← accept (byte '=') then found long else found short
  | none, none =>
    if b = byte ' ' ∨ b = byte '\r' ∨ b = byte '\t' then return .ok ()
    else if b = byte '\n' then
      newLine
      return .ok ()
    else if b = byte '/' then
      if ← accept (byte '/') then
        skipComment
        return .ok ()
      else found .slash
    else if b = byte '"' then m.string
    else if Bytes.isDigit b then m.number
    else if Bytes.isLetter b then m.word
    else complain .unexpectedCharacter

/-- goes behind the next segment and hands over its item, if it has one -/
def round (m : Lexicon) : ByteSteps (Option Item) := do
  modify fun c => { c with start := c.position, pending := none }
  match ← m.segment with
  | .error d => return some (.diagnostic d)
  | .ok () =>
    let c ← get
    match c.pending with
    | some kind =>
      set { c with pending := none }
      return some (.token ⟨kind, ← lexeme c.start c.position, c.line⟩)
    | none => return none

/-- the next item; the end mark once, and then none -/
def next (m : Lexicon) : ByteSteps (Option Item) := do
  let c ← get
  if c.buffer.length < c.position then return none
  else if c.position = c.buffer.length then
    set { c with position := c.position + 1 }
    return some (.token (.atEnd c.line))
  else
    match ← m.round with
    | some item => return some item
    | none => m |>.next
partial_fixpoint

/-- the items handed over before, and all that are still to come -/
def collect (m : Lexicon) (handed : List Item) : ByteSteps (List Item) := do
  match ← m.next with
  | some item => m |>.collect (handed ++ [item])
  | none => return handed
partial_fixpoint

def scan (m : Lexicon) (source : Source) : ByteSteps (Except IoFailure (List Item)) := do
  match ← load source with
  | .error failure => return .error failure
  | .ok () => return .ok (← m.collect [])

def standard : Lexicon where
  punctuator? := Segment.punctuator?
  operator? := Segment.operator?
  keyword? text := (TokenKind.keywords.find? fun entry => Utf8.encode entry.1 = text).map Prod.snd

end Lexicon

end Scriptlet
