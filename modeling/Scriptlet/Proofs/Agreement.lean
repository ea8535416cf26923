/-
Commands on one file. Showing the tokens of a file, showing its statements and running it go their own ways: running
stops at a lexical fault and writes what is wrong to the standard output, showing the statements goes on behind it and
writes to the error output. What they find wrong with a file is the same nonetheless.

- `Report.run_of_faulty`, `Report.run_exit_of_accepted`: what running does with a source, by what is wrong with it.
- `Report.commands_agree`: exit codes and complaints of the commands, as they are called from a command line.
-/
import Scriptlet.Command.Report
import Scriptlet.Proofs.Transcript

namespace Scriptlet

/-! ## What is wrong with a source -/

section Compile

variable {content : Bytes}

theorem compile_of_lexical (h : (Lexing.ofBytes content).diagnostics ≠ []) :
    compile content = .error (Lexing.ofBytes content).diagnostics := by
  simp only [compile, if_pos h]

theorem compile_of_grammatical (h : (Lexing.ofBytes content).diagnostics = [])
    (h' : (Parsing.ofTokens (Lexing.ofBytes content).tokens).diagnostics ≠ []) :
    compile content = .error (Parsing.ofTokens (Lexing.ofBytes content).tokens).diagnostics := by
  simp only [compile, if_neg (not_not.2 h), if_pos h']

theorem compile_of_faultless (h : (Lexing.ofBytes content).diagnostics = [])
    (h' : (Parsing.ofTokens (Lexing.ofBytes content).tokens).diagnostics = []) :
    compile content = .ok (Parsing.ofTokens (Lexing.ofBytes content).tokens).program := by
  simp only [compile, if_neg (not_not.2 h), if_neg (not_not.2 h')]

end Compile

namespace Report

theorem codeOf_eq_iff {diagnostics : List Diagnostic} : codeOf diagnostics = 65 ↔ diagnostics ≠ [] := by
  rw [codeOf]
  split_ifs with h <;> simp [h]

theorem complaints_append (first second : List Diagnostic) :
    complaints (first ++ second) = complaints first ++ complaints second := by
  simp [complaints, outputLines]

end Report

/-- with a sink that takes everything, all complaints are written -/
theorem Session.complain_of_unlimited (diagnostics : List Diagnostic) (scope : Scope) (kept : Bytes) :
    complain diagnostics ⟨scope, ⟨kept, none⟩⟩ = .ok () ⟨scope, ⟨kept ++ Report.complaints diagnostics, none⟩⟩ := by
  induction diagnostics generalizing kept with
  | nil => simp [complain, Report.complaints, outputLines]
  | cons d rest ih =>
    simp only [complain, EStateM.bind_apply, writeLine_of_unlimited, ih]
    simp [Report.complaints, outputLines]

/-- a source with faults is complained about, and nothing else happens -/
theorem Session.run_of_faulty {content : Bytes} {diagnostics : List Diagnostic}
    (h : compile content = .error diagnostics)
    (scope : Scope) (kept : Bytes) : run (.ofBytes content) ⟨scope, ⟨kept, none⟩⟩ =
      .ok .compileError ⟨scope, ⟨kept ++ Report.complaints diagnostics, none⟩⟩ := by
  simp [run_of_complaints h, complain_of_unlimited]

namespace Report

variable {content : Bytes}

theorem run_of_answer {ending : Ending} {t : Session}
    (h : Session.run (.ofBytes content) (.ofLimit none) = .ok ending t) :
    run content = ⟨codeOfEnding ending, t.sink.kept, []⟩ := by
  have hanswer : answer (.ofLimit none) content = (.ok ending, t) := by
    have hstart : ({ Session.ofLimit none with sink := .ofLimit none } : Session) = .ofLimit none := rfl
    rw [answer, hstart, h]
  rw [run, hanswer]
  rfl

theorem run_of_faulty {diagnostics : List Diagnostic} (h : compile content = .error diagnostics) :
    run content = ⟨65, complaints diagnostics, []⟩ :=
  run_of_answer (Session.run_of_faulty h .initial [])

/-- no program exits as a source with faults -/
theorem run_exit_of_accepted {program : Program} (h : compile content = .ok program) : (run content).exit ≠ 65 := by
  obtain ⟨ending, t, hperform, -⟩ := Session.perform_onward program (rfl : (Session.ofLimit none).sink.limit = none)
  rw [run_of_answer (by rw [Session.run_of_compile h]; exact hperform)]
  cases ending with
  | completed => simp [codeOfEnding]
  | runtimeError => simp [codeOfEnding]
  | compileError => exact absurd hperform (Session.perform_ne_compileError program _ t)

/-- running and showing the tokens tell the same lexical faults -/
theorem run_of_lexical (h : (Lexing.ofBytes content).diagnostics ≠ []) (json : Bool) :
    run content = ⟨65, (tokenize content json).stderr, []⟩ :=
  run_of_faulty (compile_of_lexical h)

/-- running and showing the statements tell the same faults of a source that has no lexical ones -/
theorem run_of_grammatical (h : (Lexing.ofBytes content).diagnostics = [])
    (h' : (Parsing.ofTokens (Lexing.ofBytes content).tokens).diagnostics ≠ []) (json : Bool) :
    run content = ⟨65, (parse content json).stderr, []⟩ := by
  rw [run_of_faulty (compile_of_grammatical h h'), parse, h, List.nil_append]

theorem parse_exit_iff {json : Bool} : (parse content json).exit = 65 ↔
    (Lexing.ofBytes content).diagnostics ≠ [] ∨
    (Parsing.ofTokens (Lexing.ofBytes content).tokens).diagnostics ≠ [] := by
  rw [parse, codeOf_eq_iff]
  simp only [ne_eq, List.append_eq_nil_iff]
  tauto

theorem run_exit_iff : (run content).exit = 65 ↔
    (Lexing.ofBytes content).diagnostics ≠ [] ∨
    (Parsing.ofTokens (Lexing.ofBytes content).tokens).diagnostics ≠ [] := by
  by_cases h : (Lexing.ofBytes content).diagnostics = []
  · by_cases h' : (Parsing.ofTokens (Lexing.ofBytes content).tokens).diagnostics = []
    · simp [h, h', run_exit_of_accepted (compile_of_faultless h h')]
    · simp [h', run_of_grammatical h h' false]
  · simp [h, run_of_lexical h false]

end Report

/-! ## Command lines -/

namespace Request

/-- a file named behind the name of a task; `--` goes before one that looks like an option -/
def operand (file : String) : List String :=
  match Argument.ofString file with
  | .word _ => [file]
  | _ => ["--", file]

theorem behind_operand {verb : Verb} {d : Details} {file : String} (hd : d.file = none) (hverb : verb.takesFile = true)
    (hfile : file ≠ "") (log : Bool) :
    behind verb log d (operand file) = ofDetails verb log { d with file := some file } := by
  have hwith : d.withFile? verb file = some { d with file := some file } := by
    simp [Details.withFile?, hd, hverb, hfile]
  rw [operand]
  split
  · rename_i name hlook
    have hname : Argument.ofString file = .word file := by
      rw [Argument.ofString] at hlook ⊢
      split at hlook <;> simp_all
    simp only [behind, hname, hwith]
  · change wordsBehind verb log d [file] = _
    simp only [wordsBehind, hwith]

end Request

namespace Report

/-- what a command line does, given what files hold and what is typed at the prompt -/
def ofCommand (read : String → Except FileFault Bytes) (input : Bytes) (arguments : List String) : Report :=
  ofRequest read input (Request.ofArguments arguments)

section Command

open Request

variable {read : String → Except FileFault Bytes} {file : String} {content : Bytes}

theorem withFile_of_read (hread : read file = .ok content) (f : Bytes → Report) :
    withFile file (read file) f = f content := by
  rw [hread]
  rfl

/-- a task that is named with its options before its file -/
theorem ofCommand_operand (verb : Verb) (json : Bool) {options : List String} {task : Task} (hfile : file ≠ "")
    (hoptions : ∀ rest, ofArguments (options ++ rest) = behind verb false ⟨none, json, false⟩ rest)
    (hverb : verb.takesFile = true) (htask : verb.task? (some file) json = some task) (input : Bytes) :
    ofCommand read input (options ++ operand file) = perform read input task := by
  rw [ofCommand, hoptions, behind_operand rfl hverb hfile, ofDetails, htask, ofRequest]

/-- **The commands agree on every file.** Running a file and showing its statements find it faulty or neither does, and
both do if showing its tokens does. What running writes then is what the one or the other writes to the error output, or
the beginning of it. The form in which tokens and statements are shown matters to neither exit code nor error output. -/
theorem commands_agree (input : Bytes) (hfile : file ≠ "") (hread : read file = .ok content) :
    let command := fun arguments => ofCommand read input (arguments ++ operand file)
    let lexical := (Lexing.ofBytes content).diagnostics
    ((command ["run"]).exit = 65 ↔ (command ["parse"]).exit = 65) ∧
    ((command ["tokenize"]).exit = 65 ↔ lexical ≠ []) ∧
    ((command ["tokenize"]).exit = 65 → (command ["run"]).exit = 65 ∧ (command ["parse"]).exit = 65) ∧
    (lexical = [] → (command ["run"]).exit = 65 → (command ["run"]).stdout = (command ["parse"]).stderr) ∧
    (lexical ≠ [] → (command ["run"]).stdout = (command ["tokenize"]).stderr ∧
      (command ["run"]).stdout <+: (command ["parse"]).stderr) ∧
    ((command ["tokenize", "--json"]).exit = (command ["tokenize"]).exit ∧
      (command ["tokenize", "--json"]).stderr = (command ["tokenize"]).stderr) ∧
    ((command ["parse", "--json"]).exit = (command ["parse"]).exit ∧
      (command ["parse", "--json"]).stderr = (command ["parse"]).stderr) := by
  intro command lexical
  have hrun : command ["run"] = run content :=
    (ofCommand_operand .run false hfile (fun _ => rfl) rfl rfl input).trans (withFile_of_read hread _)
  have htokenize : command ["tokenize"] = tokenize content false :=
    (ofCommand_operand .tokenize false hfile (fun _ => rfl) rfl rfl input).trans (withFile_of_read hread _)
  have htokenizeJson : command ["tokenize", "--json"] = tokenize content true :=
    (ofCommand_operand .tokenize true hfile (fun _ => rfl) rfl rfl input).trans (withFile_of_read hread _)
  have hparse : command ["parse"] = parse content false :=
    (ofCommand_operand .parse false hfile (fun _ => rfl) rfl rfl input).trans (withFile_of_read hread _)
  have hparseJson : command ["parse", "--json"] = parse content true :=
    (ofCommand_operand .parse true hfile (fun _ => rfl) rfl rfl input).trans (withFile_of_read hread _)
  rw [hrun, htokenize, htokenizeJson, hparse, hparseJson]
  have hlexical : (tokenize content false).exit = 65 ↔ lexical ≠ [] := codeOf_eq_iff
  refine ⟨run_exit_iff.trans parse_exit_iff.symm, hlexical, fun h => ?_, fun h hexit => ?_, fun h => ?_, ⟨rfl, rfl⟩,
    ⟨rfl, rfl⟩⟩
  · exact ⟨run_exit_iff.2 (.inl (hlexical.1 h)), parse_exit_iff.2 (.inl (hlexical.1 h))⟩
  · have hgrammatical := (run_exit_iff.1 hexit).resolve_left (not_not.2 h)
    rw [run_of_grammatical h hgrammatical false]
  · rw [run_of_lexical h false]
    refine ⟨rfl, ?_⟩
    change complaints lexical <+: complaints (lexical ++ _)
    rw [complaints_append]
    exact List.prefix_append _ _

/-- a byte that begins nothing, and a statement that lacks its end -/
def faultyText : Bytes := Utf8.encode "#\nprint true"

/-- a folder with one file, whose name looks like an option -/
def faultyFolder : Folder := ⟨[("-a", faultyText)]⟩

theorem commands_agree_sample : faultyFolder.read "-a" = .ok faultyText ∧ (Lexing.ofBytes faultyText).diagnostics ≠ [] ∧
    (ofCommand faultyFolder.read [] ["run", "--", "-a"]).exit = 65 ∧
    (ofCommand faultyFolder.read [] ["run", "--", "-a"]).stdout =
      (ofCommand faultyFolder.read [] ["tokenize", "--", "-a"]).stderr ∧
    (ofCommand faultyFolder.read [] ["run", "--", "-a"]).stdout <+:
      (ofCommand faultyFolder.read [] ["parse", "--", "-a"]).stderr := by
  have hread : faultyFolder.read "-a" = .ok faultyText := by cbv
  have hlexical : (Lexing.ofBytes faultyText).diagnostics ≠ [] := by
    have hlexing : (Lexing.ofBytes faultyText).diagnostics.length = 1 := by cbv
    exact List.ne_nil_of_length_pos (by rw [hlexing]; decide)
  obtain ⟨-, htokenize, hboth, -, hlexicalOnly, -⟩ := commands_agree [] (by decide : "-a" ≠ "") hread
  exact ⟨hread, hlexical, (hboth (htokenize.2 hlexical)).1, hlexicalOnly hlexical⟩

end Command

end Report

end Scriptlet
