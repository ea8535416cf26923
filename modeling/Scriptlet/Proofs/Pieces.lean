/-
Sources in pieces. A session that is handed a program piece by piece and one that is handed the whole of it, the pieces
joined by line feeds, do the same. Two things are needed: the pieces have to be read the same way when they are joined
(`compile_joined`), and a program has to run as its parts do one after the other (`Session.perform_append`); neither
depends on the sink. What a sink that takes everything adds is that every call ends in an answer and nothing written is
lost.

- `Session.run_joined`: two pieces, whatever the sink.
- `Session.run_pieces`: any number of pieces, with the output of each.
-/
import Mathlib
import Scriptlet.Proofs.Joining
import Scriptlet.Session

namespace Scriptlet

/-! ## Accepted sources -/

/-- there is nothing to complain about, neither in the source nor in its tokens -/
def Accepted (content : Bytes) : Prop :=
  (Lexing.ofBytes content).diagnostics = [] ∧ (Parsing.ofTokens (Lexing.ofBytes content).tokens).diagnostics = []

theorem accepted_iff {content : Bytes} : Accepted content ↔ ∃ program, compile content = .ok program := by
  simp only [Accepted, compile]
  split_ifs with hlexical hgrammatical <;> simp_all

/-- accepted pieces, joined, are accepted -/
theorem Accepted.joined {first second : Bytes} (hfirst : Accepted first) (hsecond : Accepted second) :
    Accepted (first ++ byte '\n' :: second) := by
  obtain ⟨p, hp⟩ := accepted_iff.1 hfirst
  obtain ⟨q, hq⟩ := accepted_iff.1 hsecond
  obtain ⟨k, hjoined⟩ := compile_joined hp hq
  exact accepted_iff.2 ⟨_, hjoined⟩

/-! ## Sinks that take everything -/

namespace Session

/-- `t` comes after `s`, and its sink takes everything: nothing written is lost -/
structure Onward (s t : Session) : Prop where
  unlimited : t.sink.limit = none
  kept : s.sink.kept <+: t.sink.kept

theorem Onward.refl {s : Session} (h : s.sink.limit = none) : Onward s s := ⟨h, List.prefix_refl _⟩

theorem Onward.trans {s t u : Session} (h : Onward s t) (h' : Onward t u) : Onward s u :=
  ⟨h'.unlimited, h.kept.trans h'.kept⟩

/-- bindings do not matter -/
theorem Onward.rebound {s t : Session} (h : Onward s t) (scope : Scope) : Onward s { t with scope } :=
  ⟨h.unlimited, h.kept⟩

theorem writeLine_onward {s : Session} (h : s.sink.limit = none) (text : String) :
    ∃ t, writeLine text s = .ok () t ∧ Onward s t := by
  have hfits : s.sink.fits (Utf8.encode (text ++ "\n")) = true := by simp [Sink.fits, Sink.room, h]
  refine ⟨{ s with sink := s.sink.write (Utf8.encode (text ++ "\n")) }, ?_, h, List.prefix_append _ _⟩
  simp [writeLine, hfits]

end Session

namespace Execution

/-- only an error of its own making stops the computation if the sink takes everything -/
def Unhindered {α : Type} (x : Execution α) : Prop := ∀ s : Session, s.sink.limit = none →
  ∃ t, s.Onward t ∧ ((∃ a, x s = .ok a t) ∨ ∃ e, x s = .error (.evaluation e) t)

theorem unhindered_pure {α : Type} (a : α) : Unhindered (pure a : Execution α) :=
  fun s hs => ⟨s, .refl hs, .inl ⟨a, rfl⟩⟩

theorem Unhindered.bind {α β : Type} {x : Execution α} {f : α → Execution β} (hx : x.Unhindered)
    (hf : ∀ a, (f a).Unhindered) : (x >>= f).Unhindered := by
  intro s hs
  obtain ⟨t, ht, ⟨a, hok⟩ | ⟨e, herror⟩⟩ := hx s hs
  · obtain ⟨u, hu, hend⟩ := hf a t ht.unlimited
    have hbind : (x >>= f) s = f a t := by simp [hok]
    exact ⟨u, ht.trans hu, hbind ▸ hend⟩
  · exact ⟨t, ht, .inr ⟨e, by simp [herror]⟩⟩

theorem unhindered_writeLine (text : String) : (writeLine text).Unhindered := by
  intro s hs
  obtain ⟨t, hwrite, ht⟩ := Session.writeLine_onward hs text
  exact ⟨t, ht, .inl ⟨(), by simp [writeLine, hwrite]⟩⟩

theorem unhindered_value (expr : Expr) : (value expr).Unhindered := by
  intro s hs
  rw [value_apply]
  split
  · exact ⟨_, (Session.Onward.refl hs).rebound _, .inl ⟨_, rfl⟩⟩
  · exact ⟨_, (Session.Onward.refl hs).rebound _, .inr ⟨_, rfl⟩⟩

theorem unhindered_define (name : String) (v : Value) : (define name v).Unhindered :=
  fun _ hs => ⟨_, (Session.Onward.refl hs).rebound _, .inl ⟨(), rfl⟩⟩

theorem Unhindered.inNewFrame {body : Execution Unit} (h : body.Unhindered) : (inNewFrame body).Unhindered := by
  intro s hs
  obtain ⟨t, ht, hend⟩ := h { s with scope := s.scope.enter } hs
  refine ⟨{ t with scope := t.scope.moveTo s.scope.current }, ⟨ht.unlimited, ht.kept⟩, ?_⟩
  rcases hend with ⟨_, hok⟩ | ⟨e, herror⟩
  · exact .inl ⟨(), by rw [Execution.inNewFrame, hok]⟩
  · exact .inr ⟨e, by rw [Execution.inNewFrame, herror]⟩

end Execution

namespace Stmt

open Execution

mutual

theorem execute_unhindered : ∀ s : Stmt, s.execute.Unhindered
  | .expression expr => (unhindered_value expr).bind fun _ => unhindered_pure _
  | .print expr => (unhindered_value expr).bind fun _ => unhindered_writeLine _
  | .declare _ none => unhindered_define _ _
  | .declare _ (some expr) => (unhindered_value expr).bind fun _ => unhindered_define _ _
  | .assign name expr => (unhindered_value (.assign name expr)).bind fun _ => unhindered_pure _
  | .block body => (executeAll_unhindered body).inNewFrame
  | .branch condition yes no => by
    refine (unhindered_value condition).bind fun v => ?_
    split_ifs
    · exact execute_unhindered yes
    · exact execute_unhindered no
  | .skip => unhindered_pure ()

theorem executeAll_unhindered : ∀ body : List Stmt, (executeAll body).Unhindered
  | [] => unhindered_pure ()
  | s :: rest => (execute_unhindered s).bind fun _ => executeAll_unhindered rest

end

end Stmt

/-! ## Programs one after the other -/

namespace Session

/-- every program ends in an answer if the sink takes everything -/
theorem perform_onward (program : Program) {s : Session} (h : s.sink.limit = none) :
    ∃ ending t, perform program s = .ok ending t ∧ Onward s t := by
  obtain ⟨t, ht, ⟨_, hok⟩ | ⟨e, herror⟩⟩ := Stmt.executeAll_unhindered program s h
  · exact ⟨.completed, t, perform_of_completed hok, ht⟩
  · obtain ⟨u, hwrite, hu⟩ := writeLine_onward ht.unlimited e.message
    refine ⟨.runtimeError, u, ?_, ht.trans hu⟩
    simp [perform_of_error herror, hwrite]

/-- the second program runs in the session that the first one leaves, if the first one comes to its end -/
theorem perform_append (p q : Program) : perform (p ++ q) = (do
    let ending ← perform p
    if ending = .completed then perform q else pure ending) := by
  funext s
  simp only [perform, Stmt.executeAll_append, EStateM.bind_apply]
  rcases Stmt.executeAll p s with ⟨_, t⟩ | ⟨e | failure, t⟩
  · rfl
  · dsimp only
    cases writeLine e.message t with
    | ok _ u => rfl
    | error failure u => rfl
  · rfl

theorem perform_mapTokens {f : Token → Token} (hf : Moves f) (program : Program) :
    perform (Stmt.mapTokensAll f program) = perform program := by
  funext s
  rw [perform, perform, Stmt.executeAll_mapTokens hf]

/-- every accepted source ends in an answer if the sink takes everything -/
theorem run_onward {content : Bytes} (h : Accepted content) {s : Session} (hs : s.sink.limit = none) :
    ∃ ending t, run (.ofBytes content) s = .ok ending t ∧ Onward s t := by
  obtain ⟨program, hcompile⟩ := accepted_iff.1 h
  rw [run_of_compile hcompile]
  exact perform_onward program hs

/-- **Two pieces.** Running two accepted sources as one is running the first, and then the second if the first one comes
to its end: for every session, whatever its sink. -/
theorem run_joined {first second : Bytes} (hfirst : Accepted first) (hsecond : Accepted second) :
    run (.ofBytes (first ++ byte '\n' :: second)) = (do
      let ending ← run (.ofBytes first)
      if ending = .completed then run (.ofBytes second) else pure ending) := by
  obtain ⟨p, hp⟩ := accepted_iff.1 hfirst
  obtain ⟨q, hq⟩ := accepted_iff.1 hsecond
  obtain ⟨k, hjoined⟩ := compile_joined hp hq
  rw [run_of_compile hp, run_of_compile hq]
  calc run (.ofBytes (first ++ byte '\n' :: second))
    _ = perform (p ++ Stmt.mapTokensAll (Token.down k) q) := run_of_compile hjoined
    _ = (do
        let ending ← perform p
        if ending = .completed then perform (Stmt.mapTokensAll (Token.down k) q) else pure ending) := perform_append p _
    _ = (do
        let ending ← perform p
        if ending = .completed then perform q else pure ending) := by rw [perform_mapTokens (moves_down k)]

end Session

/-! ## Any number of pieces -/

structure Call where
  ending : Ending
  output : Bytes
  deriving DecidableEq

namespace Session

def call (content : Bytes) : EStateM IoFailure Session Call := fun s =>
  match run (.ofBytes content) s with
  | .ok ending t => .ok ⟨ending, t.sink.kept.drop s.sink.kept.length⟩ t
  | .error failure t => .error failure t

/-- runs sources in turn, up to and including the first that does not come to its end -/
def inTurn : List Bytes → EStateM IoFailure Session (List Call)
  | [] => pure []
  | content :: later => do
    let first ← call content
    if first.ending = .completed then
      let others ← inTurn later
      pure (first :: others)
    else pure [first]

/-- sources as one, a line feed between each two -/
def joined (pieces : List Bytes) : Bytes := List.intercalate [byte '\n'] pieces

theorem joined_cons_cons (first second : Bytes) (later : List Bytes) :
    joined (first :: second :: later) = first ++ byte '\n' :: joined (second :: later) := by
  simp [joined, List.intercalate]

theorem accepted_joined (first : Bytes) (later : List Bytes) (h : ∀ content ∈ first :: later, Accepted content) :
    Accepted (joined (first :: later)) := by
  induction later generalizing first with
  | nil => simpa [joined, List.intercalate] using h
  | cons second later ih =>
    obtain ⟨hfirst, hlater⟩ := List.forall_mem_cons.1 h
    rw [joined_cons_cons]
    exact hfirst.joined (ih second hlater)

theorem call_of_run {content : Bytes} {s t : Session} {ending : Ending} (h : run (.ofBytes content) s = .ok ending t)
    (ht : Onward s t) : ∃ output, call content s = .ok ⟨ending, output⟩ t ∧ t.sink.kept = s.sink.kept ++ output := by
  obtain ⟨output, hkept⟩ := ht.kept
  exact ⟨output, by simp [call, h, ← hkept], hkept.symm⟩

theorem inTurn_completed {content : Bytes} {later : List Bytes} {s t u : Session} {output : Bytes} {others : List Call}
    (h : call content s = .ok ⟨.completed, output⟩ t) (hlater : inTurn later t = .ok others u) :
    inTurn (content :: later) s = .ok (⟨.completed, output⟩ :: others) u := by
  simp [inTurn, h, hlater]

theorem inTurn_stopped {content : Bytes} {s t : Session} {stopped : Call} (h : call content s = .ok stopped t)
    (hending : stopped.ending ≠ .completed) (later : List Bytes) : inTurn (content :: later) s = .ok [stopped] t := by
  simp [inTurn, h, hending]

/-- **Pieces in turn.** Accepted sources, run in turn up to the first that does not come to its end, and the same
sources run as one leave the same session. The whole ends as the last call did, and its output is that of all calls in
order. -/
theorem run_pieces (pieces : List Bytes) (hne : pieces ≠ []) (haccepted : ∀ content ∈ pieces, Accepted content)
    (s : Session) (hsink : s.sink.limit = none) : ∃ earlier last t,
      inTurn pieces s = .ok (earlier ++ [last]) t ∧
      run (.ofBytes (joined pieces)) s = .ok last.ending t ∧
      t.sink.kept = s.sink.kept ++ ((earlier ++ [last]).map Call.output).flatten := by
  obtain ⟨first, later, rfl⟩ := List.exists_cons_of_ne_nil hne
  clear hne
  -- the induction is on the pieces behind the first one; the session that the first one leaves is again unlimited
  induction later generalizing first s with
  | nil =>
    obtain ⟨ending, t, hrun, ht⟩ := run_onward (haccepted first List.mem_cons_self) hsink
    obtain ⟨output, hcall, hkept⟩ := call_of_run hrun ht
    have hjoined : joined [first] = first := by simp [joined, List.intercalate]
    rw [hjoined]
    refine ⟨[], ⟨ending, output⟩, t, ?_, hrun, by simpa using hkept⟩
    by_cases hending : ending = .completed
    · subst hending
      exact inTurn_completed hcall rfl
    · exact inTurn_stopped hcall hending []
  | cons second later ih =>
    obtain ⟨hfirst, hlater⟩ := List.forall_mem_cons.1 haccepted
    obtain ⟨ending, t, hrun, ht⟩ := run_onward hfirst hsink
    obtain ⟨output, hcall, hkept⟩ := call_of_run hrun ht
    have hwhole : run (.ofBytes (joined (first :: second :: later))) s =
        (if ending = .completed then run (.ofBytes (joined (second :: later))) else pure ending) t := by
      rw [joined_cons_cons, run_joined hfirst (accepted_joined second later hlater)]
      simp [hrun]
    rw [hwhole]
    by_cases hending : ending = .completed
    · subst hending
      obtain ⟨earlier, last, u, hturn, hrest, hkept'⟩ := ih t ht.unlimited second hlater
      refine ⟨⟨.completed, output⟩ :: earlier, last, u, inTurn_completed hcall hturn, hrest, ?_⟩
      simp [hkept', hkept]
    · refine ⟨[], ⟨ending, output⟩, t, inTurn_stopped hcall hending _, ?_, by simpa using hkept⟩
      rw [if_neg hending]
      rfl

/-- three pieces, the second of which stops at a name that nothing binds -/
def samplePieces : List Bytes := ["print true;", "print a;", "print true;"].map Utf8.encode

theorem accepted_of_lexing {content : Bytes} (program : Program) (tokens : List Token) (line : Nat)
    (hlexing : Lexing.ofBytes content = ⟨tokens ++ [.atEnd line], []⟩) (h : Stmt.canonicalAll program = true)
    (hs : Spells (Stmt.spellingAll program) tokens) (hdeep : Stmt.nestingAll program ≤ maxNesting) :
    Accepted content := by
  rw [Accepted, hlexing]
  exact ⟨rfl, congrArg Parsing.diagnostics (Parsing.ofTokens_spelled h hs rfl [] hdeep)⟩

theorem accepted_samplePieces : ∀ content ∈ samplePieces, Accepted content := by
  have htrue : Accepted (Utf8.encode "print true;") := by
    refine accepted_of_lexing [.print (.literal (.bool true))]
      [⟨.kwPrint, "print", 1⟩, ⟨.kwTrue, "true", 1⟩, ⟨.semicolon, ";", 1⟩] 1 (by cbv) (by decide) ?_ (by decide)
    repeat' first | exact .nil | refine .cons rfl ?_
  have hname : Accepted (Utf8.encode "print a;") := by
    refine accepted_of_lexing [.print (.var ⟨.identifier, "a", 1⟩)]
      [⟨.kwPrint, "print", 1⟩, ⟨.identifier, "a", 1⟩, ⟨.semicolon, ";", 1⟩] 1 (by cbv) (by decide) ?_ (by decide)
    repeat' first | exact .nil | refine .cons rfl ?_
  simp [samplePieces, htrue, hname]

theorem run_pieces_sample : (∀ content ∈ samplePieces, Accepted content) ∧ ∃ earlier last t,
    inTurn samplePieces (ofLimit none) = .ok (earlier ++ [last]) t ∧
    run (.ofBytes (joined samplePieces)) (ofLimit none) = .ok last.ending t ∧
    t.sink.kept = ((earlier ++ [last]).map Call.output).flatten :=
  ⟨accepted_samplePieces, run_pieces samplePieces (List.cons_ne_nil _ _) accepted_samplePieces (ofLimit none) rfl⟩

end Session

end Scriptlet
