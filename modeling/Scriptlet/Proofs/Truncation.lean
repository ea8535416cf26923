/-
Sinks with a limit. A sink that keeps `n` bytes and one that takes everything keep the same bytes up to the first that
does not fit; whatever is writing stops there, and nothing is written any more, however many sources follow.

One computation is enough to look at: `Truncates` compares its two runs, and holds of everything that is put together
from computations of which it holds, as the failure to write passes through all of them.

- `Session.run_truncates`: one source.
- `Workbench.steps_limited`: any number of sources.
-/
import Scriptlet.Proofs.Transcript

namespace Scriptlet

def Session.limited (n : Nat) (s : Session) : Session := { s with sink := { s.sink with limit := some n } }

section Truncation

variable {ε ε' α β : Type} {full : ε} {full' : ε'}

/-- with a sink of `n` bytes the computation does what it does with a sink that takes everything if all it writes fits,
and otherwise fails as full with the first `n` bytes written -/
structure Truncates (full : ε) (x : EStateM ε Session α) : Prop where
  later : ∀ s : Session, s.sink.Later (x s).state.sink
  fitting : ∀ (s : Session) n, s.sink.limit = none → (x s).state.sink.kept.length ≤ n →
    x (s.limited n) = (x s).mapState (Session.limited n)
  cut : ∀ (s : Session) n, s.sink.limit = none → s.sink.kept.length ≤ n → n < (x s).state.sink.kept.length →
    ∃ t, x (s.limited n) = .error full t ∧ t.sink = ⟨(x s).state.sink.kept.take n, some n⟩

/-- a computation that writes nothing and does not look at the sink -/
theorem truncates_of_silent {x : EStateM ε Session α} (hsink : ∀ s, (x s).state.sink = s.sink)
    (hlimited : ∀ s n, x (s.limited n) = (x s).mapState (Session.limited n)) : Truncates full x where
  later s := by
    rw [hsink]
    exact .refl _
  fitting s n _ _ := hlimited s n
  cut s n _ hle hlt := by
    rw [hsink] at hlt
    omega

theorem truncates_pure (a : α) : Truncates full (pure a : EStateM ε Session α) :=
  truncates_of_silent (fun _ => rfl) fun _ _ => rfl

theorem truncates_throw (e : ε) : Truncates full (throw e : EStateM ε Session α) :=
  truncates_of_silent (fun _ => rfl) fun _ _ => rfl

/-- what follows a computation on either way out, as long as it lets a full sink pass -/
theorem Truncates.handle {x : EStateM ε Session α} {answered : α → EStateM ε' Session β}
    {failed : ε → EStateM ε' Session β} (hx : Truncates full x) (hanswered : ∀ a, Truncates full' (answered a))
    (hfailed : ∀ e, Truncates full' (failed e)) (hfull : failed full = throw full') :
    Truncates full' (Scriptlet.handle x answered failed) := by
  -- all that is behind the computation itself, whichever way it ended
  have hrest : ∀ s : Session, ∃ y : EStateM ε' Session β, Truncates full' y ∧
      Scriptlet.handle x answered failed s = y (x s).state ∧
      ∀ n, x (s.limited n) = (x s).mapState (Session.limited n) →
        Scriptlet.handle x answered failed (s.limited n) = y ((x s).state.limited n) := by
    intro s
    cases h : x s with
    | ok a t =>
      refine ⟨answered a, hanswered a, by rw [Scriptlet.handle, h]; rfl, fun n hn => ?_⟩
      rw [Scriptlet.handle, hn]
      rfl
    | error e t =>
      refine ⟨failed e, hfailed e, by rw [Scriptlet.handle, h]; rfl, fun n hn => ?_⟩
      rw [Scriptlet.handle, hn]
      rfl
  constructor
  · intro s
    obtain ⟨y, hy, hs, -⟩ := hrest s
    rw [hs]
    exact (hx.later s).trans (hy.later _)
  · intro s n hsink hle
    obtain ⟨y, hy, hs, hlimited⟩ := hrest s
    rw [hs] at hle ⊢
    have hmid := (hy.later (x s).state).kept.length_le
    rw [hlimited n (hx.fitting s n hsink (hmid.trans hle))]
    exact hy.fitting _ n ((hx.later s).limit.trans hsink) hle
  · intro s n hsink hle hlt
    obtain ⟨y, hy, hs, hlimited⟩ := hrest s
    rw [hs] at hlt ⊢
    by_cases hmid : (x s).state.sink.kept.length ≤ n
    · rw [hlimited n (hx.fitting s n hsink hmid)]
      exact hy.cut _ n ((hx.later s).limit.trans hsink) hmid hlt
    · obtain ⟨t, hfailure, ht⟩ := hx.cut s n hsink hle (not_le.1 hmid)
      refine ⟨t, ?_, ?_⟩
      · rw [Scriptlet.handle, hfailure]
        simp only [hfull]
        rfl
      · obtain ⟨more, hmore⟩ := (hy.later (x s).state).kept
        rw [ht, ← hmore, List.take_append_of_le_length (not_le.1 hmid).le]

theorem Truncates.bind {x : EStateM ε Session α} {f : α → EStateM ε Session β} (hx : Truncates full x)
    (hf : ∀ a, Truncates full (f a)) : Truncates full (x >>= f) := by
  rw [bind_eq_handle]
  exact hx.handle hf truncates_throw rfl

theorem Truncates.adaptExcept {x : EStateM ε Session α} (hx : Truncates full x) (f : ε → ε') :
    Truncates (f full) (x.adaptExcept f) := by
  rw [adaptExcept_eq_handle]
  exact hx.handle truncates_pure (fun e => truncates_throw (f e)) rfl

end Truncation

/-! ## Execution -/

namespace Sink

variable {kept : Bytes} {n : Nat}

/-- of all bytes as many are kept as the limit allows -/
theorem write_of_limit (h : kept.length ≤ n) (bytes : Bytes) :
    (⟨kept, some n⟩ : Sink).write bytes = ⟨(kept ++ bytes).take n, some n⟩ := by
  simp only [write, room, Sink.mk.injEq, and_true]
  rw [List.take_append, List.take_of_length_le h]
  congr 1
  rw [List.take_eq_take_iff]
  omega

theorem fits_of_limit (h : kept.length ≤ n) (bytes : Bytes) :
    (⟨kept, some n⟩ : Sink).fits bytes = true ↔ (kept ++ bytes).length ≤ n := by
  rw [fits, decide_eq_true_eq, room, List.length_append]
  simp only
  omega

end Sink

namespace Session

theorem limited_eq (n : Nat) (s : Session) : s.limited n = ⟨s.scope, ⟨s.sink.kept, some n⟩⟩ := rfl

/-- a line that does not fit is cut -/
theorem writeLine_limited {s : Session} {n : Nat} (hs : s.sink.kept.length ≤ n) (text : String) :
    let line := Utf8.encode (text ++ "\n")
    writeLine text (s.limited n) =
      if (s.sink.kept ++ line).length ≤ n then .ok () ⟨s.scope, ⟨s.sink.kept ++ line, some n⟩⟩
      else .error .sinkFull ⟨s.scope, ⟨(s.sink.kept ++ line).take n, some n⟩⟩ := by
  intro line
  simp only [writeLine, limited_eq, Sink.fits_of_limit hs, Sink.write_of_limit hs]
  split_ifs with h
  · rw [List.take_of_length_le h]
  · rfl

theorem writeLine_truncates (text : String) : Truncates IoFailure.sinkFull (writeLine text) := by
  have hlater (s : Session) : s.sink.Later (writeLine text s).state.sink :=
    ((writeLine_refines text : (Session.view 0).Refines _ _).later s).sink
  refine ⟨hlater, fun s n hsink hle => ?_, fun s n hsink hs hlt => ?_⟩
  · have hs := (hlater s).kept.length_le.trans hle
    rw [writeLine_of_unlimited hsink] at hle ⊢
    rw [writeLine_limited hs]
    exact if_pos hle
  · rw [writeLine_of_unlimited hsink] at hlt ⊢
    rw [writeLine_limited hs]
    exact ⟨_, if_neg (not_le.2 hlt), rfl⟩

end Session

namespace Execution

theorem value_truncates (expr : Expr) (full : Stop) : Truncates full (value expr) := by
  refine truncates_of_silent (fun s => ?_) fun s n => ?_
  · rw [value_apply]
    cases expr.evaluate s.scope <;> rfl
  · simp only [value_apply, Session.limited_eq]
    cases expr.evaluate s.scope <;> rfl

theorem define_truncates (name : String) (v : Value) (full : Stop) : Truncates full (define name v) :=
  truncates_of_silent (fun _ => rfl) fun _ _ => rfl

theorem inNewFrame_truncates {body : Execution Unit} {full : Stop} (h : Truncates full body) :
    Truncates full (inNewFrame body) := by
  constructor
  · intro s
    rw [inNewFrame_eq, EStateM.Result.state_mapState]
    exact h.later { s with scope := s.scope.enter }
  · intro s n hsink hle
    rw [inNewFrame_eq, EStateM.Result.state_mapState] at hle
    have hbody := h.fitting { s with scope := s.scope.enter } n hsink hle
    rw [inNewFrame_eq, inNewFrame_eq]
    simp only [Session.limited_eq] at hbody ⊢
    rw [hbody]
    cases body { s with scope := s.scope.enter } <;> rfl
  · intro s n hsink hs hlt
    rw [inNewFrame_eq, EStateM.Result.state_mapState] at hlt
    obtain ⟨t, hbody, ht⟩ := h.cut { s with scope := s.scope.enter } n hsink hs hlt
    refine ⟨{ t with scope := t.scope.moveTo s.scope.current }, ?_, ?_⟩
    · rw [inNewFrame_eq]
      simp only [Session.limited_eq] at hbody ⊢
      rw [hbody]
      rfl
    · rw [inNewFrame_eq, EStateM.Result.state_mapState]
      exact ht

end Execution

namespace Stmt

open Execution

mutual

theorem execute_truncates : ∀ s : Stmt, Truncates (.io .sinkFull) s.execute
  | .expression expr => (value_truncates expr _).bind fun _ => truncates_pure _
  | .print expr => (value_truncates expr _).bind fun v => (Session.writeLine_truncates v.render).adaptExcept Stop.io
  | .declare _ none => define_truncates _ _ _
  | .declare _ (some expr) => (value_truncates expr _).bind fun v => define_truncates _ v _
  | .assign name expr => (value_truncates (.assign name expr) _).bind fun _ => truncates_pure _
  | .block body => inNewFrame_truncates (executeAll_truncates body)
  | .branch condition yes no => by
    refine (value_truncates condition _).bind fun v => ?_
    split_ifs
    · exact execute_truncates yes
    · exact execute_truncates no
  | .skip => truncates_pure ()

/-- statements run until the sink is full, and a full sink is how they stop then -/
theorem executeAll_truncates : ∀ body : List Stmt, Truncates (.io .sinkFull) (executeAll body)
  | [] => truncates_pure ()
  | s :: rest => (execute_truncates s).bind fun _ => executeAll_truncates rest

end

end Stmt

namespace Session

theorem complain_truncates (diagnostics : List Diagnostic) : Truncates .sinkFull (complain diagnostics) := by
  induction diagnostics with
  | nil => exact truncates_pure ()
  | cons d rest ih => exact (writeLine_truncates d.render).bind fun _ => ih

theorem stopped_truncates (stop : Stop) : Truncates .sinkFull (stopped stop) := by
  cases stop with
  | evaluation e => exact (writeLine_truncates e.message).bind fun _ => truncates_pure _
  | io failure => exact truncates_throw failure

/-- a source is run until the sink is full, and a full sink is how the run ends then -/
theorem run_truncates (source : Source) : Truncates .sinkFull (run source) := by
  unfold run
  split_ifs
  · exact truncates_throw _
  · cases compile source.content with
    | error diagnostics => exact (complain_truncates diagnostics).bind fun _ => truncates_pure _
    | ok program =>
      simp only [perform_eq_handle]
      exact (Stmt.executeAll_truncates program).handle (fun _ => truncates_pure _) stopped_truncates rfl

end Session

/-! ## Calls in turn -/

namespace Workbench

def after (w : Workbench) : List Source → Workbench
  | [] => w
  | source :: later => (w.step source).2.after later

/-- all that the sink has kept when sources have been run in turn -/
def written (w : Workbench) (sources : List Source) : Bytes := (w.after sources).session.sink.kept

theorem after_append (w : Workbench) (sources later : List Source) :
    w.after (sources ++ later) = (w.after sources).after later := by
  induction sources generalizing w with
  | nil => rfl
  | cons source rest ih => exact ih (w.step source).2

theorem written_append (w : Workbench) (sources later : List Source) :
    w.written (sources ++ later) = (w.after sources).written later := by
  rw [written, after_append, written]

theorem after_later (w : Workbench) (sources : List Source) : w.session.sink.Later (w.after sources).session.sink := by
  induction sources generalizing w with
  | nil => exact .refl _
  | cons source later ih => exact (step_later w source).sink.trans (ih (w.step source).2)

/-- nothing is written once the sink is full -/
theorem written_of_full {w : Workbench} {n : Nat} (hlimit : w.session.sink.limit = some n)
    (hfull : w.session.sink.kept.length = n) (sources : List Source) :
    w.written sources = w.session.sink.kept := by
  have hlater := after_later w sources
  have hlength : (w.written sources).length ≤ w.session.sink.kept.length := by
    rw [hfull]
    exact hlater.within n hlimit hfull.le
  exact (hlater.kept.eq_of_length_le hlength).symm

section Limited

variable {w u : Workbench} {n : Nat}

/-- a call whose output fits -/
theorem step_of_fitting (hlimit : w.session.sink.limit = none) (hu : u.session = w.session.limited n) {source : Source}
    (hfits : (w.step source).2.session.sink.kept.length ≤ n) :
    (u.step source).1 = (w.step source).1 ∧ (u.step source).2.session = (w.step source).2.session.limited n := by
  rw [step_session] at hfits
  have hrun := (Session.run_truncates source).fitting w.session n hlimit hfits
  have hsession : (u.step source).2.session = (w.step source).2.session.limited n := by
    rw [step_session, step_session, hu, hrun, EStateM.Result.state_mapState]
  have hanswer : (run source u).answer = (run source w).answer := by
    rw [run_answer, run_answer, hu, hrun, EStateM.Result.answer_mapState]
  refine ⟨?_, hsession⟩
  change Step.mk _ ((u.step source).2.session.sink.kept.drop u.session.sink.kept.length)
    (u.step source).2.session.globals = _
  rw [hsession, hu, hanswer]
  rfl

/-- a call whose output does not fit -/
theorem step_of_cut (hlimit : w.session.sink.limit = none) (hu : u.session = w.session.limited n) {source : Source}
    (hbefore : w.session.sink.kept.length ≤ n) (hcut : n < (w.step source).2.session.sink.kept.length) :
    (u.step source).1.answer = .error .sinkFull ∧
      (u.step source).2.session.sink = ⟨(w.step source).2.session.sink.kept.take n, some n⟩ := by
  rw [step_session] at hcut
  obtain ⟨t, hrun, ht⟩ := (Session.run_truncates source).cut w.session n hlimit hbefore hcut
  constructor
  · change (run source u).answer = _
    rw [run_answer, hu, hrun]
    rfl
  · rw [step_session, step_session, hu, hrun]
    exact ht

/-- what is kept from a call on whose output does not fit -/
theorem written_of_cut (hlimit : w.session.sink.limit = none) (hu : u.session = w.session.limited n) {source : Source}
    (hbefore : w.session.sink.kept.length ≤ n) (hcut : n < (w.step source).2.session.sink.kept.length)
    (later : List Source) : u.written (source :: later) = (w.written (source :: later)).take n := by
  obtain ⟨-, hsink⟩ := step_of_cut hlimit hu hbefore hcut
  have hfull : (u.step source).2.session.sink.kept.length = n := by
    rw [hsink, List.length_take, min_eq_left hcut.le]
  have hrest : u.written (source :: later) = (u.step source).2.session.sink.kept :=
    written_of_full (congrArg Sink.limit hsink) hfull later
  obtain ⟨more, hmore⟩ := (after_later (w.step source).2 later).kept
  have hwritten : w.written (source :: later) = (w.step source).2.session.sink.kept ++ more := hmore.symm
  rw [hrest, hsink, hwritten, List.take_append_of_le_length hcut.le]

/-- calls whose output fits -/
theorem steps_of_fitting (hlimit : w.session.sink.limit = none) (hu : u.session = w.session.limited n)
    {sources : List Source} (hfits : (w.written sources).length ≤ n) :
    u.steps sources = w.steps sources ∧ (u.after sources).session = (w.after sources).session.limited n := by
  induction sources generalizing w u with
  | nil => exact ⟨rfl, hu⟩
  | cons source later ih =>
    have hstep := (after_later (w.step source).2 later).kept.length_le
    obtain ⟨hfirst, hsession⟩ := step_of_fitting hlimit hu (hstep.trans hfits)
    obtain ⟨hrest, hend⟩ := ih ((step_later w source).sink.limit.trans hlimit) hsession hfits
    exact ⟨by rw [steps, steps, hfirst, hrest], hend⟩

end Limited

/-- the call that writes byte number `n` -/
theorem exists_crossing {w : Workbench} {n : Nat} {sources : List Source} (hbefore : w.session.sink.kept.length ≤ n)
    (hcut : n < (w.written sources).length) :
    ∃ before source later, sources = before ++ source :: later ∧ (w.written before).length ≤ n ∧
      n < (w.written (before ++ [source])).length := by
  induction sources generalizing w with
  | nil => exact absurd hcut (not_lt.2 hbefore)
  | cons source later ih =>
    by_cases h : (w.step source).2.session.sink.kept.length ≤ n
    · obtain ⟨before, crossing, rest, rfl, hle, hlt⟩ := ih h hcut
      exact ⟨source :: before, crossing, rest, rfl, hle, hlt⟩
    · exact ⟨[], source, later, rfl, hbefore, not_le.1 h⟩

/-- **A full sink cuts the output and nothing else.** Of all that sources write in turn, a sink with a limit keeps the
beginning. If all of it fits, every call answers as with a sink that takes everything; otherwise the calls before the
one whose output passes the limit do, and that one fails with the sink. -/
theorem steps_limited (w : Workbench) (n : Nat) (sources : List Source) :
    let free := w.withSink (.ofLimit none)
    let bounded := w.withSink (.ofLimit (some n))
    bounded.written sources = (free.written sources).take n ∧
    ((free.written sources).length ≤ n → bounded.steps sources = free.steps sources) ∧
    (n < (free.written sources).length → ∃ before source later, sources = before ++ source :: later ∧
      (free.written before).length ≤ n ∧ n < (free.written (before ++ [source])).length ∧
      bounded.steps before = free.steps before ∧ ((bounded.after before).step source).1.answer = .error .sinkFull) := by
  intro free bounded
  have hlimit : free.session.sink.limit = none := rfl
  have hbounded : bounded.session = free.session.limited n := rfl
  by_cases hfits : (free.written sources).length ≤ n
  · obtain ⟨hsteps, hend⟩ := steps_of_fitting hlimit hbounded hfits
    refine ⟨?_, fun _ => hsteps, fun h => absurd hfits (not_le.2 h)⟩
    rw [List.take_of_length_le hfits, written, hend]
    rfl
  · obtain ⟨before, source, later, rfl, hbefore, hcrossing⟩ := exists_crossing (Nat.zero_le n) (not_le.1 hfits)
    obtain ⟨hsteps, hend⟩ := steps_of_fitting hlimit hbounded hbefore
    have hfree := (after_later free before).limit.trans hlimit
    have hcut : n < ((free.after before).step source).2.session.sink.kept.length := by
      rw [written_append] at hcrossing
      exact hcrossing
    obtain ⟨hanswer, -⟩ := step_of_cut hfree hend hbefore hcut
    refine ⟨?_, fun h => absurd h hfits, fun _ => ⟨before, source, later, rfl, hbefore, hcrossing, hsteps, hanswer⟩⟩
    rw [written_append, written_append]
    exact written_of_cut hfree hend hbefore hcut later

/-- two blocks that print, and the sink is full inside of the second one -/
theorem steps_limited_sample :
    let free := (ofSink (.ofLimit none)).withSink (.ofLimit none)
    let bounded := (ofSink (.ofLimit none)).withSink (.ofLimit (some 7))
    let sources := [Source.ofBytes blockText, .ofBytes blockText]
    7 < (free.written sources).length ∧ bounded.written sources = (free.written sources).take 7 ∧
      ∃ before source later, sources = before ++ source :: later ∧ (free.written before).length ≤ 7 ∧
        7 < (free.written (before ++ [source])).length ∧ bounded.steps before = free.steps before ∧
        ((bounded.after before).step source).1.answer = .error .sinkFull := by
  intro free bounded sources
  have hwritten : free.written sources = Utf8.encode "true\ntrue\n" := by
    rw [written, after, after, after, step_session, step_session, Session.run_of_compile compile_blockText]
    rfl
  have hlonger : 7 < (free.written sources).length := by
    rw [hwritten]
    decide
  obtain ⟨hkept, -, hcut⟩ := steps_limited (ofSink (.ofLimit none)) 7 sources
  exact ⟨hlonger, hkept, hcut hlonger⟩

end Workbench

end Scriptlet
