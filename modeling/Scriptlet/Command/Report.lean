/-
What a command does: the bytes it writes to its two outputs and the code it exits with. A source with diagnostics exits
with 65, a program that fails with 70, an unreadable file with 1 and a misused command line with 2. The text that tells
how to call the program, for help or after a misuse, is left out.
-/
import Scriptlet.Command.Arguments
import Scriptlet.Command.Folder
import Scriptlet.Command.Quoted
import Scriptlet.Json
import Scriptlet.Session
import Scriptlet.Tree

namespace Scriptlet

structure Report where
  exit : Nat
  stdout : Bytes
  stderr : Bytes
  deriving DecidableEq

def outputLines (texts : List String) : Bytes := texts.flatMap fun text => Utf8.encode (text ++ "\n")

namespace Report

/-- the exit code of a source, by whether anything is wrong with it -/
def codeOf (diagnostics : List Diagnostic) : Nat := if diagnostics = [] then 0 else 65

def codeOfEnding : Ending → Nat
  | .completed => 0
  | .compileError => 65
  | .runtimeError => 70

def complaints (diagnostics : List Diagnostic) : Bytes := outputLines (diagnostics.map Diagnostic.render)

/-- shows the tokens of a source, whether or not all of it could be cut -/
def tokenize (content : Bytes) (json : Bool) : Report :=
  let lexing := Lexing.ofBytes content
  let shown :=
    if json then [(Json.array (lexing.tokens.map Token.toJson)).indented 0] else lexing.tokens.map Token.render
  ⟨codeOf lexing.diagnostics, outputLines shown, complaints lexing.diagnostics⟩

/-- shows the statements of a source, if nothing is wrong with it; the tokens are parsed even behind lexical faults -/
def parse (content : Bytes) (json : Bool) : Report :=
  let lexing := Lexing.ofBytes content
  let parsing := Parsing.ofTokens lexing.tokens
  let diagnostics := lexing.diagnostics ++ parsing.diagnostics
  let shown :=
    if json then [(Json.array (Stmt.toJsons parsing.program)).indented 0] else Stmt.prefixedAll parsing.program
  ⟨codeOf diagnostics, if diagnostics = [] then outputLines shown else [], complaints diagnostics⟩

/-- runs a source in a session; only what is written during the run is in its sink -/
def answer (session : Session) (content : Bytes) : Except IoFailure Ending × Session :=
  match Session.run (.ofBytes content) { session with sink := .ofLimit none } with
  | .ok ending after => (.ok ending, after)
  | .error failure after => (.error failure, after)

def run (content : Bytes) : Report :=
  let (ending, session) := answer (.ofLimit none) content
  ⟨(ending.toOption.map codeOfEnding).getD 1, session.sink.kept, []⟩

def prompt : Bytes := Utf8.encode "deslang> "

/-- the lines of an input, each with its line break; the last one may lack it -/
def lines : Bytes → List Bytes
  | [] => []
  | b :: rest =>
    if b = byte '\n' then [b] :: lines rest
    else
      match lines rest with
      | [] => [[b]]
      | line :: more => (b :: line) :: more

/-- everything written while lines are run one after the other, with a prompt before each and one before the end -/
def converse : Session → List Bytes → Bytes
  | _, [] => prompt
  | session, line :: rest =>
    let after := (answer session line).2
    prompt ++ after.sink.kept ++ converse after rest

def ofFileFault (file : String) (fault : FileFault) : Report :=
  ⟨1, [], Utf8.encode ("Error: Failed to " ++ fault.action ++ " file " ++ Text.quoted file ++
    "\n\nCaused by:\n    " ++ fault.reason ++ "\n")⟩

def withFile (file : String) (content : Except FileFault Bytes) (f : Bytes → Report) : Report :=
  match content with
  | .ok bytes => f bytes
  | .error fault => ofFileFault file fault

/-- does a task, given what files hold and what is typed at the prompt -/
def perform (read : String → Except FileFault Bytes) (input : Bytes) : Task → Report
  | .tokenize file json => withFile file (read file) fun content => tokenize content json
  | .parse file json => withFile file (read file) fun content => parse content json
  | .run file => withFile file (read file) run
  | .repl => ⟨0, converse (.ofLimit none) (lines input), []⟩

def versionText : String := "deslang 0.1.0"

/-- the name of the file that `--log` creates -/
def logFile : String := "app.log"

/-- answers a request; how the program is called is not told in the answer -/
def ofRequest (read : String → Except FileFault Bytes) (input : Bytes) : Request → Report
  | .perform task _ => perform read input task
  | .version => ⟨0, outputLines [versionText], []⟩
  | .help => ⟨0, [], []⟩
  | .misuse => ⟨2, [], []⟩

end Report

def Request.logs : Request → Bool
  | .perform _ log => log
  | _ => false

end Scriptlet
