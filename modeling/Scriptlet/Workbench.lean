/-
Workbenches. A session is handed source after source and has one token stream and one token reader for all of them,
which hold whatever the source before has left there: bytes that arrived before a reader failed, a line count, a
position, faults not told yet. `run` takes a source through both of them and into the session. Every source begins by
taking the stream up anew, and reading tokens begins by taking the reader up anew.

`run_session`: what a session does with a source is `Session.run`, whatever stream and reader held before.
-/
import Scriptlet.Session

namespace Scriptlet

/-- takes up a source: what the stream held is dropped, and what arrives of the source takes its place -/
def TokenStream.reload (s : TokenStream) (source : Source) : TokenStream :=
  let emptied := { s with rest := [], line := 1, ended := false }
  { emptied with rest := emptied.rest ++ source.content }

structure TokenReader where
  tokens : List Token
  /-- how many of the tokens have been read -/
  position : Nat
  /-- how many levels are open where reading goes on -/
  depth : Nat
  /-- what has not been told yet -/
  diagnostics : List Diagnostic

namespace TokenReader

def fresh : TokenReader := ⟨[], 0, 0, []⟩

/-- takes up a token list, whatever was left of the one before -/
def reload (r : TokenReader) (tokens : List Token) : TokenReader :=
  { r with tokens, position := 0, depth := 0, diagnostics := [] }

/-- reads all tokens from its position on, at its depth; what is to be told is handed over and the tokens dropped -/
def readOn (r : TokenReader) : Parsing × TokenReader :=
  let ahead := r.tokens.drop r.position
  let read := sequence (Level.withRoom (maxNesting + 1 - r.depth)).declaration (fun _ => false) (Parsing.body ahead)
  let found := read.faults.map (Fault.diagnostic (Parsing.endLine ahead))
  (⟨read.statements, r.diagnostics ++ found⟩,
    { r with tokens := [], position := r.position + (Parsing.body ahead).length, diagnostics := [] })

/-- Nothing of an earlier token list is left in a reading. -/
theorem readOn_reload (r : TokenReader) (tokens : List Token) : (r.reload tokens).readOn.1 = .ofTokens tokens := rfl

end TokenReader

/-- a session with the stream and the reader it uses -/
structure Workbench where
  stream : TokenStream
  reader : TokenReader
  session : Session

namespace Workbench

def ofSink (sink : Sink) : Workbench := ⟨.fresh, .fresh, ⟨.initial, sink⟩⟩

/-- takes the session's step -/
def inSession {α : Type} (x : EStateM IoFailure Session α) : EStateM IoFailure Workbench α := fun w =>
  match x w.session with
  | .ok a session => .ok a { w with session }
  | .error failure session => .error failure { w with session }

/-- the tokens of a source; one that cannot be read has been taken up nonetheless -/
def scan (source : Source) : EStateM IoFailure Workbench Lexing := fun w =>
  let stream := w.stream.reload source
  if source.broken then .error .unreadable { w with stream }
  else .ok (.ofItems stream.drain.1) { w with stream := stream.drain.2 }

def read (tokens : List Token) : EStateM IoFailure Workbench Parsing := fun w =>
  let (parsing, reader) := (w.reader.reload tokens).readOn
  .ok parsing { w with reader }

def reject (diagnostics : List Diagnostic) : EStateM IoFailure Workbench Ending :=
  inSession do
    Session.complain diagnostics
    pure .compileError

def run (source : Source) : EStateM IoFailure Workbench Ending := do
  let lexing ← scan source
  if lexing.diagnostics ≠ [] then reject lexing.diagnostics
  else
    let parsing ← read lexing.tokens
    if parsing.diagnostics ≠ [] then reject parsing.diagnostics
    else inSession (Session.perform parsing.program)

theorem scan_of_whole {source : Source} (h : source.broken = false) (w : Workbench) : ∃ stream,
    scan source w = .ok (.ofBytes source.content) { w with stream } :=
  ⟨(w.stream.reload source).drain.2, by simp only [scan, h]; rfl⟩

/-- a source that cannot be read leaves nothing behind but in the stream -/
theorem run_of_broken {source : Source} (h : source.broken = true) (w : Workbench) : ∃ stream,
    run source w = .error .unreadable { w with stream } := by
  refine ⟨w.stream.reload source, ?_⟩
  simp [run, scan, h]

/-- a source that was read to its end is the session's to run -/
theorem run_of_whole {source : Source} (h : source.broken = false) (w : Workbench) : ∃ stream reader,
    run source w = inSession (Session.run source) { w with stream, reader } := by
  obtain ⟨stream, hscan⟩ := scan_of_whole h w
  refine ⟨stream, if (Lexing.ofBytes source.content).diagnostics ≠ [] then w.reader
    else (w.reader.reload (Lexing.ofBytes source.content).tokens).readOn.2, ?_⟩
  simp only [run, EStateM.bind_apply, hscan, Session.run_of_whole h, compile]
  by_cases hlexical : (Lexing.ofBytes source.content).diagnostics ≠ []
  · simp only [if_pos hlexical]
    rfl
  · simp only [if_neg hlexical, EStateM.bind_apply, read, TokenReader.readOn_reload]
    by_cases hgrammatical : (Parsing.ofTokens (Lexing.ofBytes source.content).tokens).diagnostics ≠ []
    · simp only [if_pos hgrammatical]
      rfl
    · simp only [if_neg hgrammatical]

/-- **Nothing stays on the workbench.** What becomes of the session, and how a source ends, is the same whatever the
stream and the reader hold. -/
theorem run_session (source : Source) (w : Workbench) :
    (match run source w with
      | .ok ending after => .ok ending after.session
      | .error failure after => .error failure after.session) = Session.run source w.session := by
  by_cases h : source.broken = true
  · obtain ⟨stream, hrun⟩ := run_of_broken h w
    rw [hrun, Session.run_of_broken h]
    rfl
  · obtain ⟨stream, reader, hrun⟩ := run_of_whole (Bool.eq_false_iff.2 h) w
    rw [hrun, inSession]
    cases Session.run source w.session <;> rfl

end Workbench

end Scriptlet
