/-
The command line. Arguments are taken from left to right. Before a task is named, a word is the script to run, and the
name of a task is recognised wherever a word may stand; behind it, its own options and at most one file name follow. A
flag may be given once on either side of the task's name. Behind `--` nothing is an option or the name of a task. An
option that asks for the version or for help settles the matter at once; whatever does not fit is a misuse.
-/

namespace Scriptlet

inductive Task where
  | tokenize (file : String) (json : Bool)
  | parse (file : String) (json : Bool)
  | run (file : String)
  | repl
  deriving DecidableEq

inductive Request where
  | perform (task : Task) (log : Bool)
  | version
  | help
  | misuse
  deriving DecidableEq

/-- the tasks by name, before their file is known -/
inductive Verb where
  | tokenize
  | parse
  | run
  | repl
  deriving DecidableEq

namespace Verb

def ofName? : String → Option Verb
  | "tokenize" => some .tokenize
  | "parse" => some .parse
  | "run" => some .run
  | "repl" => some .repl
  | _ => none

def takesFile : Verb → Bool
  | .repl => false
  | _ => true

def takesJson : Verb → Bool
  | .tokenize | .parse => true
  | _ => false

/-- the task itself, unless it lacks its file -/
def task? : Verb → Option String → Bool → Option Task
  | .tokenize, some file, json => some (.tokenize file json)
  | .parse, some file, json => some (.parse file json)
  | .run, some file, _ => some (.run file)
  | .repl, _, _ => some .repl
  | _, none, _ => none

end Verb

inductive Argument where
  | endOfOptions
  | long (name : String)
  | short (letter : Char)
  | word (text : String)
  deriving DecidableEq

/-- the look of an argument; a dash alone is a word -/
def Argument.ofString (text : String) : Argument :=
  match text.toList with
  | ['-', '-'] => .endOfOptions
  | '-' :: '-' :: name => .long (String.ofList name)
  | '-' :: letter :: _ => .short letter
  | _ => .word text

namespace Request

/-- the options and the file behind the name of a task -/
structure Details where
  file : Option String
  json : Bool
  log : Bool
  deriving DecidableEq

/-- what the task's name and all behind it ask for -/
def ofDetails (verb : Verb) (outerLog : Bool) (d : Details) : Request :=
  match verb.task? d.file d.json with
  | some task => .perform task (outerLog || d.log)
  | none => .misuse

/-- takes a file name: not an empty one, and at most one -/
def Details.withFile? (d : Details) (verb : Verb) (name : String) : Option Details :=
  if name = "" || d.file.isSome || !verb.takesFile then none else some { d with file := some name }

/-- the arguments behind `--` behind the name of a task -/
def wordsBehind (verb : Verb) (outerLog : Bool) : Details → List String → Request
  | d, [] => ofDetails verb outerLog d
  | d, text :: rest =>
    match d.withFile? verb text with
    | some d => wordsBehind verb outerLog d rest
    | none => .misuse

/-- the arguments behind the name of a task -/
def behind (verb : Verb) (outerLog : Bool) : Details → List String → Request
  | d, [] => ofDetails verb outerLog d
  | d, text :: rest =>
    match Argument.ofString text with
    | .endOfOptions => wordsBehind verb outerLog d rest
    | .long "help" => .help
    | .short 'h' => .help
    | .long "log" => if d.log then .misuse else behind verb outerLog { d with log := true } rest
    | .long "json" =>
      if d.json || !verb.takesJson then .misuse else behind verb outerLog { d with json := true } rest
    | .word name =>
      match d.withFile? verb name with
      | some d => behind verb outerLog d rest
      | none => .misuse
    | _ => .misuse

/-- a script, or the prompt if there is none -/
def ofScript (script : Option String) (log : Bool) : Request :=
  match script with
  | some file => .perform (.run file) log
  | none => .perform .repl log

/-- the arguments behind `--` where no task is named -/
def scriptBehind (log : Bool) : Option String → List String → Request
  | script, [] => ofScript script log
  | some _, _ :: _ => .misuse
  | none, text :: rest => if text = "" then .misuse else scriptBehind log (some text) rest

/-- the arguments behind `help`: nothing, or one name of a task or `help` again, and no option -/
def helpOn : List String → Request
  | [] => .help
  | [name] => if name = "help" || (Verb.ofName? name).isSome then .help else .misuse
  | _ => .misuse

/-- the arguments before the name of a task -/
def before : Option String → Bool → List String → Request
  | script, log, [] => ofScript script log
  | script, log, text :: rest =>
    match Argument.ofString text with
    | .endOfOptions => scriptBehind log script rest
    | .long "version" => .version
    | .short 'V' => .version
    | .long "help" => .help
    | .short 'h' => .help
    | .long "log" => if log then .misuse else before script true rest
    | .word "help" => helpOn rest
    | .word name =>
      match Verb.ofName? name with
      | some verb => behind verb log ⟨none, false, false⟩ rest
      | none => if name = "" || script.isSome then .misuse else before (some name) log rest
    | _ => .misuse

def ofArguments (arguments : List String) : Request := before none false arguments

end Request

end Scriptlet
