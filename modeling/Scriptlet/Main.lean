/-
The command itself: it reads files and the standard input, hands them to `Report`, and writes what comes back. Nothing
is decided here but how the errors of the system are told apart.
-/
import Scriptlet.Command.Report

namespace Scriptlet.Main

def fileFault : IO.Error → FileFault
  | .permissionDenied _ _ _ => .denied
  | .inappropriateType _ code _ => if code = 21 then .isDirectory else .notDirectory
  | .invalidArgument _ _ _ => .nameTooLong
  | _ => .notFound

def readFile (file : String) : IO (Except FileFault Bytes) := do
  try
    return .ok (← IO.FS.readBinFile file).toList
  catch e => return .error (fileFault e)

/-- one line of the standard input with its line break, last byte first; empty at the end of the input -/
partial def readLine (input : IO.FS.Stream) (line : Bytes) : IO Bytes := do
  let chunk ← input.read 1
  match chunk.toList with
  | [] => return line
  | b :: _ => if b = byte '\n' then return b :: line else readLine input (b :: line)

/-- writes bytes at once -/
def put (output : IO.FS.Stream) (bytes : Bytes) : IO Unit := do
  output.write ⟨bytes.toArray⟩
  output.flush

/-- runs the lines of the standard input until it ends -/
partial def converse (input output : IO.FS.Stream) (session : Session) : IO Unit := do
  put output Report.prompt
  let line ← readLine input []
  unless line.isEmpty do
    let after := (Report.answer session line.reverse).2
    put output after.sink.kept
    converse input output after

def answer (request : Request) : IO UInt32 := do
  if request.logs then IO.FS.writeFile Report.logFile ""
  match request with
  | .perform .repl _ =>
    converse (← IO.getStdin) (← IO.getStdout) (.ofLimit none)
    return 0
  | .perform (.tokenize file _) _ | .perform (.parse file _) _ | .perform (.run file) _ => finish (← readFile file)
  | _ => finish (.error .notFound)
where
  finish (content : Except FileFault Bytes) : IO UInt32 := do
    let report := Report.ofRequest (fun _ => content) [] request
    put (← IO.getStdout) report.stdout
    put (← IO.getStderr) report.stderr
    return UInt32.ofNat report.exit

end Scriptlet.Main

def main (arguments : List String) : IO UInt32 :=
  Scriptlet.Main.answer (Scriptlet.Request.ofArguments arguments)
