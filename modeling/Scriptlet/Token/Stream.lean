/-
Token streams. A stream holds the source still to be cut, the current line, and whether the end mark has been handed
out. `next` hands out one item, a token or a diagnostic, and skips blank segments; after the last segment comes the end
mark, once, and then nothing. `load` starts a stream over, whatever state it was in, and keeps what arrived of a source
whose reader failed.
-/
import Scriptlet.Bytes
import Scriptlet.Token
import Scriptlet.Token.Segment

namespace Scriptlet

/-- what a stream hands out -/
inductive Item where
  | token (t : Token)
  | diagnostic (d : Diagnostic)
  deriving DecidableEq

/-- a source that is being cut into tokens -/
structure TokenStream where
  /-- what has not been cut yet -/
  rest : Bytes
  /-- the line on which `rest` begins -/
  line : Nat
  /-- has the end mark been handed out -/
  ended : Bool
  deriving DecidableEq

/-- the item of a segment that ends on the given line; a blank one has none -/
def Segment.item? (s : Segment) (line : Nat) : Option Item :=
  match s.piece with
  | .blank => none
  | .token kind => some (.token ⟨kind, Utf8.decode s.text, line⟩)
  | .fault cause => some (.diagnostic (.lexical line cause.message))

namespace TokenStream

/-- a stream over nothing, on the first line -/
def fresh : TokenStream := ⟨[], 1, false⟩

/-- a stream that has never been loaded and counts no lines yet -/
def blank : TokenStream := ⟨[], 0, false⟩

def load (source : Source) : TokenStream := ⟨source.content, 1, false⟩

/-- the next item of a source on a line, and the stream after it -/
def nextFrom : Bytes → Nat → Item × TokenStream
  | [], line => (.token (.atEnd line), ⟨[], line, true⟩)
  | b :: rest, line =>
    let segment := Segment.cut b rest
    let line' := line + Bytes.lineFeeds segment.text
    match segment.item? line' with
    | some item => (item, ⟨segment.rest, line', false⟩)
    | none => nextFrom segment.rest line'
termination_by source => source.length
decreasing_by exact Nat.lt_succ_of_le (Segment.cut_rest_length b rest)

/-- the next item, and the stream after it; none once the end mark has been handed out -/
def next (s : TokenStream) : Option (Item × TokenStream) :=
  if s.ended then none else some (nextFrom s.rest s.line)

/-- how many items may still come -/
def bound (s : TokenStream) : Nat := if s.ended then 0 else s.rest.length + 1

theorem nextFrom_bound (source : Bytes) (line : Nat) : (nextFrom source line).2.bound ≤ source.length := by
  fun_induction nextFrom source line with
  | case1 => simp [bound]
  | case2 b rest line segment line' item h =>
    simpa [bound] using Segment.cut_rest_length b rest
  | case3 b rest line segment line' h ih =>
    exact Nat.le_trans ih (Nat.le_succ_of_le (Segment.cut_rest_length b rest))

theorem next_bound {s t : TokenStream} {item : Item} (h : s.next = some (item, t)) : t.bound < s.bound := by
  unfold next at h
  split at h
  · contradiction
  · rename_i open'
    have step := nextFrom_bound s.rest s.line
    rw [Option.some.inj h] at step
    simpa [bound, open'] using Nat.lt_succ_of_le step

/-- all items still to come, and the stream after them -/
def drain (s : TokenStream) : List Item × TokenStream :=
  match _h : s.next with
  | none => ([], s)
  | some (item, t) =>
    let later := drain t
    (item :: later.1, later.2)
termination_by s.bound
decreasing_by exact next_bound _h

end TokenStream

structure Lexing where
  tokens : List Token
  diagnostics : List Diagnostic
  deriving DecidableEq

namespace Lexing

/-- items told apart -/
def ofItems (items : List Item) : Lexing where
  tokens := items.filterMap fun
    | .token t => some t
    | .diagnostic _ => none
  diagnostics := items.filterMap fun
    | .token _ => none
    | .diagnostic d => some d

def ofBytes (content : Bytes) : Lexing := ofItems (TokenStream.load (.ofBytes content)).drain.1

end Lexing

end Scriptlet
