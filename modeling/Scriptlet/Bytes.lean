/-
Bytes. Source text, file content and written output are lists of bytes. The lexical grammar is decided on single bytes,
so its character classes are the ASCII ones: a byte from 128 on is never a digit or a letter.

`Utf8.encode` writes a text as bytes. `Utf8.decode` reads any bytes as a text: well-formed sequences give their
characters, and each longest run of bytes that begins a character and breaks off gives one replacement character, as
does each byte that begins none. `Utf8.check?` is the strict reader: it refuses where `decode` replaces. `Utf8.first`
gives, for the first byte of a character, what the bytes after it must be; `Utf8.finish` reads those bytes and stops
before the first one that does not fit, which is then read afresh.

A program is handed over by a reader that may break off: what is known of a `Source` are the bytes that arrived and
whether reading failed after them. A `Sink` keeps what is written to it, up to its limit if it has one. A write that
does not fit is cut: its beginning is kept and the sink is full.
-/

namespace Scriptlet

abbrev Bytes := List UInt8

/-- the byte of an ASCII character -/
abbrev byte (c : Char) : UInt8 := c.toUInt8

namespace Bytes

def isDigit (b : UInt8) : Bool := byte '0' ≤ b && b ≤ byte '9'

def isLetter (b : UInt8) : Bool := byte 'a' ≤ b && b ≤ byte 'z' || byte 'A' ≤ b && b ≤ byte 'Z'

/-- what may follow the first letter of a word -/
def isWord (b : UInt8) : Bool := isLetter b || isDigit b

def lineFeeds (text : Bytes) : Nat := text.count (byte '\n')

theorem lineFeeds_append (a b : Bytes) : lineFeeds (a ++ b) = lineFeeds a + lineFeeds b := by
  simp [lineFeeds]

end Bytes

/-! ## UTF-8 -/

namespace Utf8

def encode (text : String) : Bytes := text.toList.flatMap String.utf8EncodeChar

/-- an inclusive range of bytes -/
structure Span where
  low : UInt8
  high : UInt8

def Span.holds (s : Span) (b : UInt8) : Bool := s.low ≤ b && b ≤ s.high

/-- any byte that continues a character -/
def tail : Span := ⟨0x80, 0xBF⟩

/-- the leading bits of a character and the ranges of the bytes that complete it; none for a byte that begins no
character. The narrower ranges keep out overlong forms, surrogates and code points past the last one. -/
def first (b : UInt8) : Option (Nat × List Span) :=
  let n := b.toNat
  if n < 0x80 then some (n, [])
  else if n < 0xC2 then none
  else if n < 0xE0 then some (n % 0x20, [tail])
  else if n = 0xE0 then some (n % 0x10, [⟨0xA0, 0xBF⟩, tail])
  else if n = 0xED then some (n % 0x10, [⟨0x80, 0x9F⟩, tail])
  else if n < 0xF0 then some (n % 0x10, [tail, tail])
  else if n = 0xF0 then some (n % 0x08, [⟨0x90, 0xBF⟩, tail, tail])
  else if n < 0xF4 then some (n % 0x08, [tail, tail, tail])
  else if n = 0xF4 then some (n % 0x08, [⟨0x80, 0x8F⟩, tail, tail])
  else none

/-- reads one byte per range on top of the bits so far: the code point, or none where a byte does not fit, and the bytes
not used -/
def finish : Nat → List Span → Bytes → Option Nat × Bytes
  | code, [], rest => (some code, rest)
  | _, _ :: _, [] => (none, [])
  | code, s :: spans, b :: rest =>
    if s.holds b then finish (code * 0x40 + b.toNat % 0x40) spans rest else (none, b :: rest)

theorem finish_length (code : Nat) (spans : List Span) (bytes : Bytes) :
    (finish code spans bytes).2.length ≤ bytes.length := by
  induction spans generalizing code bytes with
  | nil => simp [finish]
  | cons s spans ih =>
    cases bytes with
    | nil => simp [finish]
    | cons b rest =>
      simp only [finish]
      split
      · exact Nat.le_succ_of_le (ih _ rest)
      · exact Nat.le_refl _

/-- the character that begins with `b`, or none if it is ill-formed, and the bytes after it -/
def character (b : UInt8) (rest : Bytes) : Option Char × Bytes :=
  match first b with
  | none => (none, rest)
  | some (code, spans) => ((finish code spans rest).1.map Char.ofNat, (finish code spans rest).2)

theorem character_length (b : UInt8) (rest : Bytes) : (character b rest).2.length ≤ rest.length := by
  unfold character
  split
  · exact Nat.le_refl _
  · exact finish_length _ _ _

/-- stands for bytes that are no character -/
def replacement : Char := '\uFFFD'

/-- the characters of any bytes, ill-formed parts replaced -/
def characters : Bytes → List Char
  | [] => []
  | b :: rest => ((character b rest).1.getD replacement) :: characters (character b rest).2
termination_by bytes => bytes.length
decreasing_by exact Nat.lt_succ_of_le (character_length b rest)

def decode (bytes : Bytes) : String := String.ofList (characters bytes)

def characters? : Bytes → Option (List Char)
  | [] => some []
  | b :: rest =>
    match (character b rest).1 with
    | none => none
    | some c => (characters? (character b rest).2).map (c :: ·)
termination_by bytes => bytes.length
decreasing_by exact Nat.lt_succ_of_le (character_length b rest)

def check? (bytes : Bytes) : Option String := (characters? bytes).map String.ofList

end Utf8

/-! ## Sources and sinks -/

structure Source where
  content : Bytes
  broken : Bool
  deriving DecidableEq

namespace Source

/-- a source that was read to its end -/
def ofBytes (content : Bytes) : Source := ⟨content, false⟩

/-- a reader that fails once it has handed over `n` bytes: only a shorter source is read to its end -/
def failingAfter (n : Nat) (content : Bytes) : Source :=
  if content.length < n then ofBytes content else ⟨content.take n, true⟩

end Source

/-- written bytes and how many may be kept -/
structure Sink where
  kept : Bytes
  limit : Option Nat
  deriving DecidableEq

namespace Sink

def ofLimit (limit : Option Nat) : Sink := ⟨[], limit⟩

/-- how many of `n` more bytes fit -/
def room (s : Sink) (n : Nat) : Nat :=
  match s.limit with
  | none => n
  | some limit => min n (limit - s.kept.length)

def fits (s : Sink) (bytes : Bytes) : Bool := s.room bytes.length = bytes.length

/-- keeps as many of the bytes as fit -/
def write (s : Sink) (bytes : Bytes) : Sink := { s with kept := s.kept ++ bytes.take (s.room bytes.length) }

end Sink

end Scriptlet
