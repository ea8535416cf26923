/-
Sources with the same tokens. Two sources may differ in blanks, comments and line feeds and still hold the same tokens,
only on other lines. A session cannot tell them apart: it answers both alike, and if it runs them, it writes and binds
the same. If it complains, the complaints are the same ones, and only the lines that they name differ.

With every token moved to one and the same line, the two token lists become equal, so what is read from them becomes
equal too (`Parsing.read_of_sameText`); moving tokens changes nothing about a program that runs, and of a complaint it
changes the line.

- `Parsing.diagnostics_of_sameText`: the complaints about two token lists that differ in lines at most.
- `Workbench.step_of_sameText`: whole calls.
-/
import Scriptlet.Proofs.Agreement
import Scriptlet.Proofs.MovedText

namespace Scriptlet

/-! ## Lines left aside -/

namespace Token

/-- the tokens agree in kind, value and text -/
def SameText (t u : Token) : Prop := t.kind = u.kind ∧ t.lexeme = u.lexeme

def onLine (line : Nat) (t : Token) : Token := { t with line }

theorem moves_onLine (line : Nat) : Moves (onLine line) := ⟨fun _ => rfl, fun _ => rfl⟩

theorem onLine_eq_iff {t u : Token} (line : Nat) : t.onLine line = u.onLine line ↔ t.SameText u := by
  simp [onLine, SameText]

theorem SameText.location {t u : Token} (h : t.SameText u) : t.location = u.location := by
  simp only [Token.location, h.1, h.2]

end Token

/-- on one and the same line, token lists that agree in their texts are equal -/
theorem map_onLine_eq {first second : List Token} (h : List.Forall₂ Token.SameText first second) (line : Nat) :
    first.map (Token.onLine line) = second.map (Token.onLine line) := by
  induction h with
  | nil => rfl
  | cons ht _ ih => rw [List.map_cons, List.map_cons, ih, (Token.onLine_eq_iff line).2 ht]

/-- the diagnostics agree in all but the line -/
def Diagnostic.SameText : Diagnostic → Diagnostic → Prop
  | .lexical _ message, .lexical _ message' => message = message'
  | .grammatical _ location message, .grammatical _ location' message' => location = location' ∧ message = message'
  | _, _ => False

/-- a fault is told the same way on every line -/
theorem Fault.diagnostic_sameText {fault fault' : Fault} {line : Nat}
    (h : fault.mapTokens (Token.onLine line) = fault'.mapTokens (Token.onLine line)) (endLine endLine' : Nat) :
    (fault.diagnostic endLine).SameText (fault'.diagnostic endLine') := by
  obtain ⟨cause, unread⟩ := fault
  obtain ⟨cause', unread'⟩ := fault'
  simp only [Fault.mapTokens, Fault.mk.injEq] at h
  obtain ⟨rfl, hunread⟩ := h
  have hlocation : (unread.head?.getD (.atEnd endLine)).location = (unread'.head?.getD (.atEnd endLine')).location := by
    cases unread with
    | nil =>
      rw [List.map_eq_nil_iff.1 hunread.symm]
      rfl
    | cons t rest =>
      cases unread' with
      | nil => cases hunread
      | cons u rest' =>
        injection hunread with hhead
        exact ((Token.onLine_eq_iff line).1 hhead).location
  exact ⟨hlocation, rfl⟩

/-! ## Token lists -/

namespace Parsing

variable {first second : List Token}

/-- what is read from two token lists is the same but for the lines -/
theorem read_of_sameText (h : List.Forall₂ Token.SameText first second) (line : Nat) :
    (sequence outermost.declaration (fun _ => false) (body first)).mapTokens (Token.onLine line) =
      (sequence outermost.declaration (fun _ => false) (body second)).mapTokens (Token.onLine line) := by
  rw [← read_mapTokens (Token.moves_onLine line), ← read_mapTokens (Token.moves_onLine line), map_onLine_eq h line]

/-- the complaints about two token lists are the same but for the lines -/
theorem diagnostics_of_sameText (h : List.Forall₂ Token.SameText first second) :
    List.Forall₂ Diagnostic.SameText (ofTokens first).diagnostics (ofTokens second).diagnostics := by
  have hfaults := congrArg Sequence.faults (read_of_sameText h 0)
  simp only [Sequence.mapTokens] at hfaults
  have hpairs := List.forall₂_map_left_iff.1 (List.forall₂_map_right_iff.1 (List.forall₂_eq_eq_eq.symm ▸ hfaults))
  refine List.forall₂_map_left_iff.2 (List.forall₂_map_right_iff.2 (hpairs.imp fun fault fault' hsame => ?_))
  exact Fault.diagnostic_sameText hsame _ _

/-- the programs in two token lists do the same -/
theorem perform_of_sameText (h : List.Forall₂ Token.SameText first second) :
    Session.perform (ofTokens first).program = Session.perform (ofTokens second).program := by
  have hprogram := congrArg Sequence.statements (read_of_sameText h 0)
  simp only [Sequence.mapTokens] at hprogram
  calc Session.perform (ofTokens first).program
    _ = Session.perform (Stmt.mapTokensAll (Token.onLine 0) (ofTokens first).program) :=
      (Session.perform_mapTokens (Token.moves_onLine 0) _).symm
    _ = Session.perform (Stmt.mapTokensAll (Token.onLine 0) (ofTokens second).program) := congrArg _ hprogram
    _ = Session.perform (ofTokens second).program := Session.perform_mapTokens (Token.moves_onLine 0) _

end Parsing

/-! ## Calls -/

namespace Workbench

variable {w : Workbench} {content : Bytes}

/-- what can be seen of a call is what can be seen of the session -/
theorem step_of_run {source : Source} {ending : Ending} {t : Session}
    (h : Session.run source w.session = .ok ending t) :
    (w.step source).1 = ⟨.ok ending, t.sink.kept.drop w.session.sink.kept.length, t.globals⟩ := by
  have hanswer := run_answer source w
  have hsession := step_session w source
  rw [h] at hanswer hsession
  simp only [step] at hsession ⊢
  rw [hanswer, hsession]
  rfl

/-- a source that is complained about has its complaints written, and nothing is bound -/
theorem step_of_faulty {diagnostics : List Diagnostic} (hsink : w.session.sink.limit = none)
    (h : compile content = .error diagnostics) :
    (w.step (.ofBytes content)).1 = ⟨.ok .compileError, Report.complaints diagnostics, w.session.globals⟩ := by
  rcases hw : w.session with ⟨scope, kept, limit⟩
  rw [hw] at hsink
  obtain rfl : limit = none := hsink
  have hrun := Session.run_of_faulty h scope kept
  rw [← hw] at hrun
  rw [step_of_run hrun, hw]
  simp [Session.globals]

/-- **Layout does not matter.** Two sources without lexical faults whose tokens agree in kind, value and text, on
whatever lines, are answered alike in every session with a sink that takes everything. Unless the answer is a complaint
they write the same and leave the same global bindings; if it is one, what is written are complaints that agree one by
one in all but the line. -/
theorem step_of_sameText {first second : Bytes} (hfirst : (Lexing.ofBytes first).diagnostics = [])
    (hsecond : (Lexing.ofBytes second).diagnostics = [])
    (htokens : List.Forall₂ Token.SameText (Lexing.ofBytes first).tokens (Lexing.ofBytes second).tokens)
    (w : Workbench) (hsink : w.session.sink.limit = none) :
    let a := (w.step (.ofBytes first)).1
    let b := (w.step (.ofBytes second)).1
    ∃ ending, a.answer = .ok ending ∧ b.answer = .ok ending ∧
      (ending ≠ .compileError → a.output = b.output ∧ a.globals = b.globals) ∧
      (ending = .compileError → ∃ complaints complaints',
        compile first = .error complaints ∧ a.output = Report.complaints complaints ∧
        compile second = .error complaints' ∧ b.output = Report.complaints complaints' ∧
        List.Forall₂ Diagnostic.SameText complaints complaints') := by
  intro a b
  have hdiagnostics := Parsing.diagnostics_of_sameText htokens
  by_cases hsilent : (Parsing.ofTokens (Lexing.ofBytes first).tokens).diagnostics = []
  · have hsilent' : (Parsing.ofTokens (Lexing.ofBytes second).tokens).diagnostics = [] := by
      rw [hsilent] at hdiagnostics
      exact List.forall₂_nil_left_iff.1 hdiagnostics
    have hrun := Session.run_of_compile (compile_of_faultless hfirst hsilent)
    have hrun' := Session.run_of_compile (compile_of_faultless hsecond hsilent')
    rw [← Parsing.perform_of_sameText htokens] at hrun'
    obtain ⟨ending, t, hperform, -⟩ :=
      Session.perform_onward (Parsing.ofTokens (Lexing.ofBytes first).tokens).program hsink
    have ha : a = _ := step_of_run (hrun ▸ hperform)
    have hb : b = _ := step_of_run (hrun' ▸ hperform)
    refine ⟨ending, by rw [ha], by rw [hb], fun _ => ⟨by rw [ha, hb], by rw [ha, hb]⟩, ?_⟩
    rintro rfl
    exact absurd hperform (Session.perform_ne_compileError _ w.session t)
  · have hsilent' : (Parsing.ofTokens (Lexing.ofBytes second).tokens).diagnostics ≠ [] := by
      intro hnil
      rw [hnil] at hdiagnostics
      exact hsilent (List.forall₂_nil_right_iff.1 hdiagnostics)
    have hfaulty := compile_of_grammatical hfirst hsilent
    have hfaulty' := compile_of_grammatical hsecond hsilent'
    have ha : a = _ := step_of_faulty hsink hfaulty
    have hb : b = _ := step_of_faulty hsink hfaulty'
    refine ⟨.compileError, by rw [ha], by rw [hb], fun h => absurd rfl h, fun _ => ?_⟩
    exact ⟨_, _, hfaulty, by rw [ha], hfaulty', by rw [hb], hdiagnostics⟩

/-- an assignment to what is no name, on one line -/
def plainText : Bytes := Utf8.encode "true = a;"

/-- the same tokens on several lines, with a comment between them -/
def spreadText : Bytes := Utf8.encode "true\n=  // no name\na\n;"

theorem lexing_plainText : Lexing.ofBytes plainText =
    ⟨[⟨.kwTrue, "true", 1⟩, ⟨.equal, "=", 1⟩, ⟨.identifier, "a", 1⟩, ⟨.semicolon, ";", 1⟩, .atEnd 1], []⟩ := by
  cbv

theorem lexing_spreadText : Lexing.ofBytes spreadText =
    ⟨[⟨.kwTrue, "true", 1⟩, ⟨.equal, "=", 2⟩, ⟨.identifier, "a", 3⟩, ⟨.semicolon, ";", 4⟩, .atEnd 4], []⟩ := by
  cbv

theorem step_of_sameText_spread :
    List.Forall₂ Token.SameText (Lexing.ofBytes plainText).tokens (Lexing.ofBytes spreadText).tokens ∧
    let a := ((ofSink (.ofLimit none)).step (.ofBytes plainText)).1
    let b := ((ofSink (.ofLimit none)).step (.ofBytes spreadText)).1
    ∃ ending, a.answer = .ok ending ∧ b.answer = .ok ending ∧
      (ending ≠ .compileError → a.output = b.output ∧ a.globals = b.globals) ∧
      (ending = .compileError → ∃ complaints complaints',
        compile plainText = .error complaints ∧ a.output = Report.complaints complaints ∧
        compile spreadText = .error complaints' ∧ b.output = Report.complaints complaints' ∧
        List.Forall₂ Diagnostic.SameText complaints complaints') := by
  have htokens : List.Forall₂ Token.SameText (Lexing.ofBytes plainText).tokens (Lexing.ofBytes spreadText).tokens := by
    rw [lexing_plainText, lexing_spreadText]
    repeat' first | exact .nil | refine .cons ⟨rfl, rfl⟩ ?_
  refine ⟨htokens, step_of_sameText ?_ ?_ htokens (ofSink (.ofLimit none)) rfl⟩
  · rw [lexing_plainText]
  · rw [lexing_spreadText]

end Workbench

end Scriptlet
