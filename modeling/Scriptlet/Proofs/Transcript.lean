/-
Transcripts. A session is handed sources one after the other; of each call it can be seen how it ended, what it wrote
and which names it left bound in the global frame. Whatever has happened on a workbench before (sources that could not
be read, faults, errors inside of blocks, sinks that were full), nothing of it shows in a later call but through the
global bindings.

- `Workbench.Reached.atGlobal`: after every call statements run in the global frame.
- `Workbench.steps_of_reached`: two workbenches with the same global bindings cannot be told apart.
- `Workbench.steps_surviving`: calls that failed before anything was executed can be left out.
-/
import Scriptlet.Proofs.FrameChain
import Scriptlet.Proofs.Pieces
import Scriptlet.Workbench

namespace Scriptlet

/-! ## The global frame -/

namespace Session

/-- the names bound in the global frame, which is number zero -/
def globals (s : Session) : Names := (s.scope.frames.all[0]?.map fun frame => frame.bindings.names).getD ∅

/-- statements run in the global frame -/
structure AtGlobal (s : Session) : Prop where
  current : s.scope.current = 0
  frame : ∃ bindings, s.scope.frames.all[0]? = some ⟨bindings, none⟩

theorem AtGlobal.fit {s : Session} (h : s.AtGlobal) : Scope.view.fit s.scope := by
  obtain ⟨bindings, hframe⟩ := h.frame
  change s.scope.current < s.scope.frames.all.size
  rw [h.current]
  exact (Array.getElem?_eq_some_iff.1 hframe).1

theorem AtGlobal.stack {s : Session} (h : s.AtGlobal) : s.scope.stack = [s.globals] := by
  obtain ⟨bindings, hframe⟩ := h.frame
  rw [Scope.stack, h.current, Frames.chain_eq, globals, hframe]
  rfl

theorem AtGlobal.later {s t : Session} (h : s.AtGlobal) (hlater : s.Later t) : t.AtGlobal where
  current := hlater.scope.current.trans h.current
  frame := by
    obtain ⟨bindings, hframe⟩ := h.frame
    have henclosing := hlater.scope.frames.enclosing 0 (Array.getElem?_eq_some_iff.1 hframe).1
    rw [hframe] at henclosing
    obtain ⟨⟨after, _⟩, hafter, rfl⟩ := Option.map_eq_some_iff.1 henclosing
    exact ⟨after, hafter⟩

end Session

/-! ## Sinks that behave the same -/

namespace Sink

/-- of any further bytes, as many fit into one as into the other -/
def Alike (s t : Sink) : Prop := ∀ n, s.room n = t.room n

theorem Alike.since {s t : Sink} (h : s.Alike t) : s.since s.kept.length = t.since t.kept.length := by
  obtain ⟨a, limit⟩ := s
  obtain ⟨b, limit'⟩ := t
  have hroom (n : Nat) := h n
  simp only [room] at hroom
  simp only [Sink.since, List.drop_length, mk.injEq, true_and]
  cases limit with
  | none =>
    cases limit' with
    | none => rfl
    | some m =>
      have := hroom (m - b.length + 1)
      simp only at this
      omega
  | some l =>
    cases limit' with
    | none =>
      have := hroom (l - a.length + 1)
      simp only at this
      omega
    | some m =>
      have := hroom (l - a.length + (m - b.length))
      simp only at this
      simp only [Option.map_some, Option.some.injEq]
      omega

theorem alike_of_since {s t : Sink} {m n : Nat} (hs : m ≤ s.kept.length) (ht : n ≤ t.kept.length)
    (h : s.since m = t.since n) : s.Alike t := by
  intro k
  rw [← room_since hs, ← room_since ht, h]

end Sink

/-! ## Calls -/

/-- what can be seen of a call: how it ended, what it wrote, and the global bindings it left -/
structure Step where
  answer : Except IoFailure Ending
  output : Bytes
  globals : Names

namespace Workbench

/-- runs a source, and what can be seen of it -/
def step (w : Workbench) (source : Source) : Step × Workbench :=
  let result := run source w
  (⟨result.answer, result.state.session.sink.kept.drop w.session.sink.kept.length, result.state.session.globals⟩,
    result.state)

/-- runs sources in turn, and what can be seen of each -/
def steps (w : Workbench) : List Source → List Step
  | [] => []
  | source :: later => (w.step source).1 :: (w.step source).2.steps later

def withSink (w : Workbench) (sink : Sink) : Workbench := { w with session := { w.session with sink } }

/-- what a history of calls may lead to; the sink may be changed between any two calls -/
inductive Reached : Workbench → Prop where
  | fresh (sink : Sink) : Reached (.ofSink sink)
  | step {w : Workbench} (h : Reached w) (source : Source) : Reached (w.step source).2
  | withSink {w : Workbench} (h : Reached w) (sink : Sink) : Reached (w.withSink sink)

theorem run_mapState (source : Source) (w : Workbench) :
    (run source w).mapState session = Session.run source w.session := by
  rw [← run_session]
  cases run source w <;> rfl

theorem run_answer (source : Source) (w : Workbench) :
    (run source w).answer = (Session.run source w.session).answer := by
  rw [← run_mapState, EStateM.Result.answer_mapState]

theorem step_session (w : Workbench) (source : Source) :
    (w.step source).2.session = (Session.run source w.session).state := by
  rw [← run_mapState, EStateM.Result.state_mapState]
  rfl

theorem step_later (w : Workbench) (source : Source) : w.session.Later (w.step source).2.session := by
  rw [step_session]
  exact (Session.run_refines source : (Session.view 0).Refines _ _).later w.session

/-- after every call statements run in the global frame again, whatever ended the call -/
theorem Reached.atGlobal {w : Workbench} (h : w.Reached) : w.session.AtGlobal := by
  induction h with
  | fresh sink => exact ⟨rfl, .empty, rfl⟩
  | step _ source ih => exact ih.later (step_later _ source)
  | withSink _ sink ih => exact ⟨ih.current, ih.frame⟩

end Workbench

/-- a source whose tokens spell a program is accepted as that program -/
theorem compile_of_lexing {content : Bytes} (program : Program) (tokens : List Token) (line : Nat)
    (hlexing : Lexing.ofBytes content = ⟨tokens ++ [.atEnd line], []⟩) (h : Stmt.canonicalAll program = true)
    (hs : Spells (Stmt.spellingAll program) tokens) (hdeep : Stmt.nestingAll program ≤ maxNesting) :
    compile content = .ok program := by
  have hparsing : Parsing.ofTokens (tokens ++ [.atEnd line]) = ⟨program, []⟩ :=
    Parsing.ofTokens_spelled h hs rfl [] hdeep
  simp [compile, hlexing, hparsing]

/-! ## What is carried over -/

namespace Workbench

/-- statements run in the global frame in both, the global bindings are the same, and the sinks behave the same -/
structure Alike (a b : Workbench) : Prop where
  left : a.session.AtGlobal
  right : b.session.AtGlobal
  globals : a.session.globals = b.session.globals
  sink : a.session.sink.Alike b.session.sink

/-- one call of either cannot be told from one call of the other, and leaves them alike -/
theorem Alike.step {a b : Workbench} (h : a.Alike b) (source : Source) :
    (a.step source).1 = (b.step source).1 ∧ (a.step source).2.Alike (b.step source).2 := by
  let m := a.session.sink.kept.length
  let n := b.session.sink.kept.length
  have hleft : (Session.view m).Refines (Session.run source) (Stacked.run source) := Session.run_refines source
  have hright : (Session.view n).Refines (Session.run source) (Stacked.run source) := Session.run_refines source
  have hsee : (Session.view m).see a.session = (Session.view n).see b.session := by
    simp only [Session.view, h.left.stack, h.right.stack, h.globals, m, n, h.sink.since]
  have hsame : (Session.run source a.session).mapState (Session.view m).see =
      (Session.run source b.session).mapState (Session.view n).see := by
    rw [hleft.seen _ ⟨h.left.fit, le_rfl⟩, hright.seen _ ⟨h.right.fit, le_rfl⟩, hsee]
  have hanswer := congrArg EStateM.Result.answer hsame
  have hstate := congrArg EStateM.Result.state hsame
  rw [EStateM.Result.answer_mapState, EStateM.Result.answer_mapState] at hanswer
  rw [EStateM.Result.state_mapState, EStateM.Result.state_mapState, ← step_session, ← step_session] at hstate
  have hl := h.left.later (step_later a source)
  have hr := h.right.later (step_later b source)
  simp only [Session.view, Stacked.mk.injEq, hl.stack, hr.stack, List.cons.injEq, and_true] at hstate
  obtain ⟨hglobals, hsink⟩ := hstate
  refine ⟨?_, hl, hr, hglobals, ?_⟩
  · have houtput := congrArg Sink.kept hsink
    simp only [Workbench.step, Step.mk.injEq]
    exact ⟨by rw [run_answer, run_answer, hanswer], houtput, hglobals⟩
  · exact Sink.alike_of_since (step_later a source).sink.kept.length_le (step_later b source).sink.kept.length_le hsink

theorem Alike.steps {a b : Workbench} (h : a.Alike b) (sources : List Source) : a.steps sources = b.steps sources := by
  induction sources generalizing a b with
  | nil => rfl
  | cons source later ih =>
    obtain ⟨hfirst, hafter⟩ := h.step source
    rw [Workbench.steps, Workbench.steps, hfirst, ih hafter]

/-- **Nothing but global bindings is carried over.** On two workbenches with any histories, statements run in the global
frame, and if the global bindings are the same and the sinks behave the same, every call of the one answers, writes and
binds what the same call of the other does. -/
theorem steps_of_reached {a b : Workbench} (ha : a.Reached) (hb : b.Reached) :
    a.session.AtGlobal ∧ b.session.AtGlobal ∧
      (a.session.globals = b.session.globals → a.session.sink.Alike b.session.sink →
        ∀ sources, a.steps sources = b.steps sources) := by
  refine ⟨ha.atGlobal, hb.atGlobal, fun hglobals hsink sources => ?_⟩
  exact Alike.steps ⟨ha.atGlobal, hb.atGlobal, hglobals, hsink⟩ sources

end Workbench

namespace Workbench

def blockText : Bytes := Utf8.encode "\x7b print true; \x7d"

theorem compile_blockText : compile blockText = .ok [.block [.print (.literal (.bool true))]] := by
  refine compile_of_lexing _ [⟨.leftBrace, "\x7b", 1⟩, ⟨.kwPrint, "print", 1⟩, ⟨.kwTrue, "true", 1⟩,
    ⟨.semicolon, ";", 1⟩, ⟨.rightBrace, "\x7d", 1⟩] 1 (by cbv) (by decide) ?_ (by decide)
  repeat' first | exact .nil | refine .cons rfl ?_

/-- the sink was full inside of a block -/
def afterFullSink : Workbench := ((ofSink (.ofLimit (some 2))).step (.ofBytes blockText)).2

/-- the reader failed, and the sink takes nothing -/
def afterBrokenReader : Workbench := ((ofSink (.ofLimit (some 0))).step ⟨Utf8.encode "var a", true⟩).2

theorem session_afterFullSink : afterFullSink.session =
    ⟨⟨⟨#[.opened none, .opened (some 0)]⟩, 0⟩, ⟨Utf8.encode "tr", some 2⟩⟩ := by
  rw [afterFullSink, step_session, Session.run_of_compile compile_blockText]
  rfl

theorem session_afterBrokenReader : afterBrokenReader.session = ⟨.initial, .ofLimit (some 0)⟩ := by
  rw [afterBrokenReader, step_session]
  rfl

theorem steps_of_reached_sample : afterFullSink.session.globals = afterBrokenReader.session.globals ∧
    afterFullSink.session.sink.Alike afterBrokenReader.session.sink ∧
    ∀ sources, afterFullSink.steps sources = afterBrokenReader.steps sources := by
  have hglobals : afterFullSink.session.globals = afterBrokenReader.session.globals := by
    rw [session_afterFullSink, session_afterBrokenReader]
    rfl
  have hsink : afterFullSink.session.sink.Alike afterBrokenReader.session.sink := by
    intro n
    rw [session_afterFullSink, session_afterBrokenReader]
    rfl
  have hsteps := steps_of_reached (.step (.fresh _) _ : afterFullSink.Reached)
    (.step (.fresh _) _ : afterBrokenReader.Reached)
  exact ⟨hglobals, hsink, hsteps.2.2 hglobals hsink⟩

end Workbench

/-! ## Calls that fail before anything is executed -/

namespace Session

theorem complain_scope (diagnostics : List Diagnostic) (s : Session) :
    (complain diagnostics s).state.scope = s.scope := by
  induction diagnostics generalizing s with
  | nil => rfl
  | cons d rest ih =>
    simp only [complain, EStateM.bind_apply, writeLine]
    split_ifs
    · exact ih _
    · rfl

/-- no program ends as a source that was complained about -/
theorem perform_ne_compileError (program : Program) (s t : Session) : perform program s ≠ .ok .compileError t := by
  intro h
  rcases perform_cases h with ⟨⟨⟩, -⟩ | ⟨⟨⟩, -⟩

/-- a source that could not be read or was complained about has changed no frame -/
theorem run_scope {source : Source} {s : Session} (hsink : s.sink.limit = none)
    (h : (run source s).answer = .ok .compileError ∨ (run source s).answer = .error .unreadable) :
    (run source s).state.scope = s.scope := by
  cases hbroken : source.broken with
  | true =>
    rw [run_of_broken hbroken]
    rfl
  | false =>
    rw [run_of_whole hbroken] at h ⊢
    cases hcompile : compile source.content with
    | error diagnostics =>
      have hstate : ((complain diagnostics >>= fun _ => pure Ending.compileError : EStateM _ _ _) s).state =
          (complain diagnostics s).state := by
        rw [EStateM.bind_apply]
        cases complain diagnostics s <;> rfl
      simpa only [hstate] using complain_scope diagnostics s
    | ok program =>
      obtain ⟨ending, t, hperform, -⟩ := perform_onward program hsink
      simp only [hcompile, hperform, EStateM.Result.answer, Except.ok.injEq, reduceCtorEq, or_false] at h
      exact absurd (h ▸ hperform) (perform_ne_compileError program s t)

end Session

/-- the call ended before anything was executed: the source could not be read, or was complained about -/
def Step.failed (s : Step) : Bool :=
  match s.answer with
  | .ok .compileError => true
  | .error .unreadable => true
  | _ => false

namespace Workbench

/-- the sources whose calls did not fail, when they are run in turn -/
def surviving (w : Workbench) : List Source → List Source
  | [] => []
  | source :: later =>
    if (w.step source).1.failed then (w.step source).2.surviving later
    else source :: (w.step source).2.surviving later

/-- a call that failed cannot be told from no call at all -/
theorem alike_of_failed {w : Workbench} (hw : w.session.AtGlobal) (hsink : w.session.sink.limit = none)
    {source : Source} (h : (w.step source).1.failed = true) : (w.step source).2.Alike w := by
  have hlater := step_later w source
  have hanswer : (Session.run source w.session).answer = .ok .compileError ∨
      (Session.run source w.session).answer = .error .unreadable := by
    rw [← run_answer]
    simp only [Step.failed, step] at h
    split at h
    · exact .inl ‹_›
    · exact .inr ‹_›
    · cases h
  refine ⟨hw.later hlater, hw, ?_, ?_⟩
  · rw [Session.globals, step_session, Session.run_scope hsink hanswer, Session.globals]
  · intro n
    rw [Sink.room, Sink.room, hlater.sink.limit, hsink]

/-- **Failed calls leave nothing behind.** With a sink that takes everything, leaving out every source that could not be
read or was complained about changes none of the other calls: how it ends, what it writes and what it leaves bound. -/
theorem steps_surviving {w : Workbench} (hw : w.Reached) (hsink : w.session.sink.limit = none) (sources : List Source) :
    w.steps (w.surviving sources) = (w.steps sources).filter fun step => !step.failed := by
  induction sources generalizing w with
  | nil => rfl
  | cons source later ih =>
    have hlater := ih (hw.step source) ((step_later w source).sink.limit.trans hsink)
    by_cases h : (w.step source).1.failed = true
    · have halike := alike_of_failed hw.atGlobal hsink h
      rw [surviving, if_pos h, ← halike.steps, hlater, steps, List.filter_cons_of_neg (by simp [h])]
    · rw [surviving, if_neg h, steps, steps, hlater, List.filter_cons_of_pos (by simp [h])]

/-- a byte that begins nothing, a reader that fails, and a block that prints -/
def sampleSources : List Source := [.ofBytes (Utf8.encode "#"), ⟨Utf8.encode "var a", true⟩, .ofBytes blockText]

theorem steps_surviving_sample : (ofSink (.ofLimit none)).session.sink.limit = none ∧
    (ofSink (.ofLimit none)).steps ((ofSink (.ofLimit none)).surviving sampleSources) =
      ((ofSink (.ofLimit none)).steps sampleSources).filter fun step => !step.failed :=
  ⟨rfl, steps_surviving (.fresh _) rfl sampleSources⟩

end Workbench

end Scriptlet
