/-
Chains of frames. A frame and the frames around it, seen as a stack of scopes, are all that a computation in that frame
can tell of the frames: names are found, bound and assigned in them as in the stack. Frames that no chain leads to any
more stay where they are and do not matter.

- `Expr.evaluate_refines`, `Stmt.executeAll_refines`: evaluation and execution over shared frames do what the evaluator
  over scope stacks does, on every way out.
- `Session.Later`: no computation leaves its frame, cuts a frame off from what encloses it or takes back what is
  written.
-/
import Scriptlet.Proofs.ScopeStack

namespace Scriptlet

/-! ## Bindings as finite maps -/

namespace Bindings

/-- bindings without their order -/
def names (b : Bindings) : Names := b.entries.foldr (fun entry names => names.insert entry.1 entry.2) ∅

theorem lookup_names (b : Bindings) (name : String) : b.names.lookup name = b.find? name := by
  obtain ⟨entries⟩ := b
  simp only [names, find?]
  induction entries with
  | nil => rfl
  | cons entry rest ih =>
    obtain ⟨n, v⟩ := entry
    by_cases h : name = n
    · subst h
      simp
    · rw [List.foldr_cons, Finmap.lookup_insert_of_ne _ h, ih, List.lookup_cons, beq_false_of_ne h]

theorem mem_names {b : Bindings} {name : String} : name ∈ b.names ↔ b.binds name = true := by
  rw [← Finmap.lookup_isSome, lookup_names, binds]

theorem names_insert (b : Bindings) (name : String) (value : Value) :
    (b.insert name value).names = b.names.insert name value := by
  refine Finmap.ext_lookup fun other => ?_
  rw [lookup_names, find?_insert]
  split
  · rename_i h
    rw [h, Finmap.lookup_insert]
  · rename_i h
    rw [Finmap.lookup_insert_of_ne _ h, lookup_names]

end Bindings

/-! ## Chains -/

namespace Frames

/-- frame `i` and the frames around it -/
def chain (s : Frames) (i : Nat) : ScopeStack :=
  match s.all[i]? with
  | none => []
  | some frame =>
    frame.bindings.names ::
      match frame.enclosing with
      | none => []
      | some j => if j < i then chain s j else []
termination_by i

theorem chain_eq (s : Frames) (i : Nat) : s.chain i =
    match s.all[i]? with
    | none => []
    | some frame => frame.bindings.names ::
        match frame.enclosing with
        | none => []
        | some j => if j < i then s.chain j else [] := by
  rw [chain]

/-- a name is read through the chain -/
theorem find?_chain (s : Frames) (name : String) (i : Nat) : (s.chain i).find? name =
    (s.owner? name i).bind fun j => s.all[j]?.bind fun frame => frame.bindings.find? name := by
  induction i using Nat.strong_induction_on with
  | _ i ih =>
    rw [chain_eq, owner?]
    cases hframe : s.all[i]? with
    | none => rfl
    | some frame =>
      simp only [ScopeStack.find?, Bindings.lookup_names]
      by_cases hbinds : frame.bindings.binds name = true
      · obtain ⟨v, hv⟩ := Option.isSome_iff_exists.1 hbinds
        simp [hbinds, hframe, hv]
      · have hnone : frame.bindings.find? name = none := by simpa [Bindings.binds] using hbinds
        rw [if_neg hbinds, hnone, Option.none_or]
        cases henclosing : frame.enclosing with
        | none => rfl
        | some j =>
          simp only
          split_ifs with hj
          · exact ih j hj
          · rfl

/-- a chain goes outward: only frames up to its first one matter -/
theorem chain_congr {s t : Frames} {i : Nat} (h : ∀ j ≤ i, s.all[j]? = t.all[j]?) : s.chain i = t.chain i := by
  induction i using Nat.strong_induction_on with
  | _ i ih =>
    rw [chain_eq, chain_eq, h i le_rfl]
    cases t.all[i]? with
    | none => rfl
    | some frame =>
      cases henclosing : frame.enclosing with
      | none => simp only [henclosing]
      | some j =>
        simp only [henclosing]
        split_ifs with hj
        · rw [ih j hj fun k hk => h k (hk.trans hj.le)]
        · rfl

theorem define_getElem? (s : Frames) (i j : Nat) (name : String) (value : Value) :
    (s.define i name value).all[j]? = if i = j then (s.all[j]?).map (Frame.define name value) else s.all[j]? := by
  simp [define, Array.getElem?_modify]

theorem chain_define_of_lt (s : Frames) {i j : Nat} (h : j < i) (name : String) (value : Value) :
    (s.define i name value).chain j = s.chain j := by
  refine chain_congr fun k hk => ?_
  rw [define_getElem?, if_neg (by omega)]

/-- a name is bound in the first scope of the chain -/
theorem chain_define (s : Frames) (i : Nat) (name : String) (value : Value) :
    (s.define i name value).chain i = (s.chain i).define name value := by
  rw [chain_eq, chain_eq, define_getElem?, if_pos rfl]
  cases s.all[i]? with
  | none => rfl
  | some frame =>
    simp only [Option.map_some, Frame.define, ScopeStack.define, Bindings.names_insert]
    cases frame.enclosing with
    | none => rfl
    | some j =>
      simp only
      split_ifs with hj
      · rw [chain_define_of_lt s hj]
      · rfl

theorem owner?_le {s : Frames} {name : String} {i k : Nat} (h : s.owner? name i = some k) : k ≤ i := by
  induction i using Nat.strong_induction_on with
  | _ i ih =>
    rw [owner?] at h
    split at h
    · cases h
    · split_ifs at h with hbinds
      · cases h
        exact le_rfl
      · split at h
        · cases h
        · rename_i j _
          split_ifs at h with hj
          exact (ih j hj h).trans hj.le

/-- a name is assigned in the scope of its owner -/
theorem assign?_chain (s : Frames) (name : String) (value : Value) (i : Nat) : (s.chain i).assign? name value =
    (s.owner? name i).map fun k => (s.define k name value).chain i := by
  induction i using Nat.strong_induction_on with
  | _ i ih =>
    cases hframe : s.all[i]? with
    | none => rw [chain_eq, owner?, hframe]; rfl
    | some frame =>
      by_cases hbinds : frame.bindings.binds name = true
      · have howner : s.owner? name i = some i := by rw [owner?, hframe]; simp [hbinds]
        rw [howner, Option.map_some, chain_define, chain_eq, hframe]
        simp [ScopeStack.assign?, ScopeStack.define, Bindings.mem_names, hbinds]
      · rw [chain_eq, owner?, hframe]
        simp only [ScopeStack.assign?, Bindings.mem_names, if_neg hbinds]
        cases henclosing : frame.enclosing with
        | none => rfl
        | some j =>
          simp only
          split_ifs with hj
          · rw [ih j hj, Option.map_map]
            refine Option.map_congr fun k hk => ?_
            -- the owner lies further out, so frame `i` itself stays as it is
            have hk : k ≠ i := by have := owner?_le hk; omega
            simp [chain_eq _ i, define_getElem?, hk, hframe, henclosing, hj]
          · rfl

/-! ## What stays -/

/-- frames are added, and none is cut off from the one around it -/
structure Grows (s t : Frames) : Prop where
  size : s.all.size ≤ t.all.size
  enclosing : ∀ i < s.all.size, t.all[i]?.map Frame.enclosing = s.all[i]?.map Frame.enclosing

theorem Grows.refl (s : Frames) : s.Grows s := ⟨le_rfl, fun _ _ => rfl⟩

theorem Grows.trans {s t u : Frames} (h : s.Grows t) (h' : t.Grows u) : s.Grows u where
  size := h.size.trans h'.size
  enclosing i hi := (h'.enclosing i (hi.trans_le h.size)).trans (h.enclosing i hi)

theorem grows_add (s : Frames) (frame : Frame) : s.Grows (s.add frame) where
  size := by simp [add]
  enclosing i hi := by rw [add, Array.getElem?_push_lt hi, Array.getElem?_eq_getElem hi]

theorem grows_define (s : Frames) (i : Nat) (name : String) (value : Value) : s.Grows (s.define i name value) where
  size := by simp [define]
  enclosing j hj := by
    rw [define_getElem?]
    split_ifs
    · cases s.all[j]? <;> rfl
    · rfl

theorem child_getElem? (s : Frames) (i : Nat) : (s.child i).all[s.all.size]? = some (.opened (some i)) := by
  simp [child, add]

/-- an empty scope is pushed -/
theorem chain_child (s : Frames) {i : Nat} (hi : i < s.all.size) : (s.child i).chain s.all.size = ∅ :: s.chain i := by
  rw [chain_eq, child_getElem?]
  simp only [Frame.opened, if_pos hi]
  have houter : (s.child i).chain i = s.chain i := by
    refine chain_congr fun j hj => ?_
    have hj' : j < s.all.size := by omega
    rw [child, add, Array.getElem?_push_lt hj', Array.getElem?_eq_getElem hj']
  rw [houter]
  rfl

/-- the scope is popped, whatever became of the frames meanwhile -/
theorem chain_tail {s t : Frames} {i : Nat} (hi : i < s.all.size) (h : (s.child i).Grows t) :
    (t.chain s.all.size).tail = t.chain i := by
  have hsize : s.all.size < (s.child i).all.size := by simp [child, add]
  have henclosing := h.enclosing s.all.size hsize
  rw [child_getElem?] at henclosing
  obtain ⟨frame, hframe, hi'⟩ := Option.map_eq_some_iff.1 henclosing
  rw [chain_eq, hframe]
  simp [hi', Frame.opened, hi]

end Frames

namespace Scope

/-- the scopes around the current frame -/
def stack (s : Scope) : ScopeStack := s.frames.chain s.current

/-- the same frame is current, and what encloses frames stays -/
structure Later (s t : Scope) : Prop where
  current : t.current = s.current
  frames : s.frames.Grows t.frames

def view : View Scope ScopeStack where
  see := stack
  fit s := s.current < s.frames.all.size
  later := Later
  refl s := ⟨rfl, .refl _⟩
  trans h h' := ⟨h'.current.trans h.current, h.frames.trans h'.frames⟩
  fit_of_later h hs := by
    rw [h.current]
    exact hs.trans_le h.frames.size

end Scope

/-! ## Evaluation -/

namespace Evaluation

theorem answer_refines {α : Type} (r : Except EvalError α) : Scope.view.Refines (answer r) (ofExcept r) := by
  cases r with
  | ok value => exact View.refines_pure value
  | error e => exact View.refines_throw e

theorem lookup_of_some {name : String} {s : Scope} {value : Value} (h : s.stack.find? name = some value) :
    lookup name s = .ok value s := by
  rw [Scope.stack, Frames.find?_chain] at h
  have hget : s.frames.get s.current name = .ok value := by rw [Frames.get, h]
  change answer (s.frames.get s.current name) s = _
  rw [hget]
  rfl

theorem lookup_of_none {name : String} {s : Scope} (h : s.stack.find? name = none) :
    lookup name s = .error (.undefinedVariable name) s := by
  rw [Scope.stack, Frames.find?_chain] at h
  have hget : s.frames.get s.current name = .error (.undefinedVariable name) := by rw [Frames.get, h]
  change answer (s.frames.get s.current name) s = _
  rw [hget]
  rfl

theorem lookup_refines (name : String) : Scope.view.Refines (lookup name) (ScopeStack.lookup name) := by
  constructor
  · intro s
    cases h : s.stack.find? name with
    | some value => rw [lookup_of_some h]; exact Scope.view.refl s
    | none => rw [lookup_of_none h]; exact Scope.view.refl s
  · intro s _
    simp only [ScopeStack.lookup, Scope.view]
    cases h : s.stack.find? name with
    | some value => rw [lookup_of_some h]; rfl
    | none => rw [lookup_of_none h]; rfl

theorem assign_of_owner {name : String} {s : Scope} {k : Nat} (h : s.frames.owner? name s.current = some k)
    (value : Value) :
    assign name value s = .ok () { s with frames := s.frames.define k name value } := by
  change (answer (s.frames.assign s.current name value) >>= fun frames => set { s with frames }) s = _
  rw [Frames.assign, h]
  rfl

theorem assign_of_unowned {name : String} {s : Scope} (h : s.frames.owner? name s.current = none) (value : Value) :
    assign name value s = .error (.undefinedVariable name) s := by
  change (answer (s.frames.assign s.current name value) >>= fun frames => set { s with frames }) s = _
  rw [Frames.assign, h]
  rfl

theorem assign_refines (name : String) (value : Value) :
    Scope.view.Refines (assign name value) (ScopeStack.assign name value) := by
  constructor
  · intro s
    cases h : s.frames.owner? name s.current with
    | some k => rw [assign_of_owner h]; exact ⟨rfl, s.frames.grows_define _ _ _⟩
    | none => rw [assign_of_unowned h]; exact Scope.view.refl s
  · intro s _
    have hassign : s.stack.assign? name value =
        (s.frames.owner? name s.current).map fun k => (s.frames.define k name value).chain s.current :=
      s.frames.assign?_chain name value s.current
    simp only [ScopeStack.assign, Scope.view, hassign]
    cases h : s.frames.owner? name s.current with
    | some k => rw [assign_of_owner h]; rfl
    | none => rw [assign_of_unowned h]; rfl

end Evaluation

/-- an expression is evaluated in its chain of frames as in a stack of scopes -/
theorem Expr.evaluate_refines (e : Expr) : Scope.view.Refines e.evaluate e.evaluateIn := by
  induction e with
  | literal value => exact View.refines_pure value
  | grouping inner ih => exact ih
  | unary operator operand ih => exact ih.bind fun v => Evaluation.answer_refines _
  | binary left operator right ihl ihr => exact ihl.bind fun a => ihr.bind fun b => Evaluation.answer_refines _
  | logical left operator right ihl ihr =>
    rw [evaluate_logical, evaluateIn]
    refine ihl.bind fun a => ?_
    split_ifs
    · exact View.refines_pure a
    · exact ihr
  | var name => exact Evaluation.lookup_refines name.lexeme
  | assign name value ih =>
    exact ih.bind fun v => (Evaluation.assign_refines name.lexeme v).bind fun _ => View.refines_pure v

/-! ## Sinks -/

namespace Sink

/-- the sink without the first `n` bytes it has kept -/
def since (s : Sink) (n : Nat) : Sink := ⟨s.kept.drop n, s.limit.map (· - n)⟩

/-- more may have been written, within the limit -/
structure Later (s t : Sink) : Prop where
  limit : t.limit = s.limit
  kept : s.kept <+: t.kept
  within : ∀ n, s.limit = some n → s.kept.length ≤ n → t.kept.length ≤ n

theorem Later.refl (s : Sink) : s.Later s := ⟨rfl, List.prefix_refl _, fun _ _ h => h⟩

theorem Later.trans {s t u : Sink} (h : s.Later t) (h' : t.Later u) : s.Later u where
  limit := h'.limit.trans h.limit
  kept := h.kept.trans h'.kept
  within n hn hs := h'.within n (h.limit.trans hn) (h.within n hn hs)

theorem later_write (s : Sink) (bytes : Bytes) : s.Later (s.write bytes) where
  limit := rfl
  kept := List.prefix_append _ _
  within n hn hs := by
    simp only [write, room, hn, List.length_append, List.length_take]
    omega

theorem room_since {s : Sink} {n : Nat} (h : n ≤ s.kept.length) (m : Nat) : (s.since n).room m = s.room m := by
  simp only [room, since]
  cases s.limit with
  | none => rfl
  | some limit =>
    simp only [Option.map_some, List.length_drop]
    omega

theorem fits_since {s : Sink} {n : Nat} (h : n ≤ s.kept.length) (bytes : Bytes) :
    (s.since n).fits bytes = s.fits bytes := by
  rw [fits, fits, room_since h]

theorem write_since {s : Sink} {n : Nat} (h : n ≤ s.kept.length) (bytes : Bytes) :
    (s.since n).write bytes = (s.write bytes).since n := by
  simp only [write, room_since h]
  simp [since, List.drop_append_of_le_length h]

end Sink

/-! ## Execution -/

namespace Session

/-- the same frame is current, what encloses frames stays, and so does what is written -/
structure Later (s t : Session) : Prop where
  scope : s.scope.Later t.scope
  sink : s.sink.Later t.sink

theorem Later.refl (s : Session) : s.Later s := ⟨Scope.view.refl _, .refl _⟩

theorem Later.trans {s t u : Session} (h : s.Later t) (h' : t.Later u) : s.Later u :=
  ⟨Scope.view.trans h.scope h'.scope, h.sink.trans h'.sink⟩

/-- a session seen as scopes and a sink, in which the first `n` bytes do not count -/
def view (n : Nat) : View Session Stacked where
  see s := ⟨s.scope.stack, s.sink.since n⟩
  fit s := Scope.view.fit s.scope ∧ n ≤ s.sink.kept.length
  later := Later
  refl := .refl
  trans := .trans
  fit_of_later h hs := ⟨Scope.view.fit_of_later h.scope hs.1, hs.2.trans h.sink.kept.length_le⟩

variable {n : Nat}

/-- without a limit every line is kept -/
theorem writeLine_of_unlimited {s : Session} (h : s.sink.limit = none) (text : String) :
    writeLine text s = .ok () ⟨s.scope, ⟨s.sink.kept ++ Utf8.encode (text ++ "\n"), none⟩⟩ := by
  simp [writeLine, Sink.fits, Sink.write, Sink.room, h]

theorem writeLine_refines (text : String) : (view n).Refines (writeLine text) (Stacked.writeLine text) := by
  constructor
  · intro s
    simp only [writeLine]
    split_ifs <;> exact ⟨Scope.view.refl _, s.sink.later_write _⟩
  · intro s hs
    simp only [writeLine, Stacked.writeLine, view, Sink.fits_since hs.2, Sink.write_since hs.2]
    split_ifs <;> rfl

end Session

namespace Execution

open Session

variable {n : Nat}

theorem value_refines (expr : Expr) : (Session.view n).Refines (value expr) (Stacked.value expr) := by
  have hexpr := expr.evaluate_refines
  constructor
  · intro s
    have hstate : (value expr s).state = { s with scope := (expr.evaluate s.scope).state } := by
      rw [value_apply]
      cases expr.evaluate s.scope <;> rfl
    rw [hstate]
    exact ⟨hexpr.later s.scope, .refl _⟩
  · intro s hs
    have hseen := hexpr.seen s.scope hs.1
    simp only [Scope.view] at hseen
    simp only [value_apply, Stacked.value, Session.view, ← hseen]
    cases expr.evaluate s.scope <;> rfl

theorem define_refines (name : String) (v : Value) :
    (Session.view n).Refines (define name v) (Stacked.define name v) := by
  constructor
  · intro s
    exact ⟨⟨rfl, s.scope.frames.grows_define _ _ _⟩, .refl _⟩
  · intro s _
    have hstack : (s.scope.define name v).stack = s.scope.stack.define name v :=
      s.scope.frames.chain_define s.scope.current name v
    change EStateM.Result.ok () (Stacked.mk (s.scope.define name v).stack _) = _
    rw [hstack]
    rfl

/-- whichever way a computation in a frame of its own ends, it is left for the frame before -/
theorem inNewFrame_eq (body : Execution Unit) (s : Session) : inNewFrame body s =
    (body { s with scope := s.scope.enter }).mapState fun t => { t with scope := t.scope.moveTo s.scope.current } := by
  rw [inNewFrame]
  cases body { s with scope := s.scope.enter } <;> rfl

/-- a block runs in a scope of its own, and whichever way it ends the scope is gone -/
theorem inNewFrame_refines {body : Execution Unit} {body' : EStateM Stop Stacked Unit}
    (h : (Session.view n).Refines body body') :
    (Session.view n).Refines (inNewFrame body) (Stacked.inNewScope body') := by
  constructor
  · intro s
    have hlater := h.later { s with scope := s.scope.enter }
    rw [inNewFrame_eq, EStateM.Result.state_mapState]
    exact ⟨⟨rfl, (s.scope.frames.grows_add _).trans hlater.scope.frames⟩, hlater.sink⟩
  · intro s hs
    have hsize : s.scope.frames.all.size < s.scope.enter.frames.all.size := by
      simp [Scope.enter, Frames.child, Frames.add]
    have hbody := h.seen { s with scope := s.scope.enter } ⟨hsize, hs.2⟩
    have hpushed : s.scope.enter.stack = ∅ :: s.scope.stack := s.scope.frames.chain_child hs.1
    have hlater := h.later { s with scope := s.scope.enter }
    -- the body ends in its own frame, so the frame around it is the rest of the chain
    have hpopped : (body { s with scope := s.scope.enter }).state.scope.stack.tail =
        (body { s with scope := s.scope.enter }).state.scope.frames.chain s.scope.current := by
      rw [Scope.stack, hlater.scope.current]
      exact Frames.chain_tail hs.1 hlater.scope.frames
    simp only [Session.view, hpushed] at hbody
    rw [inNewFrame_eq]
    simp only [Stacked.inNewScope, Session.view, ← hbody]
    cases hend : body { s with scope := s.scope.enter }
    all_goals
      rw [hend] at hpopped
      simp only [EStateM.Result.mapState, EStateM.Result.state] at hpopped ⊢
      rw [hpopped]
      rfl

end Execution

namespace Stmt

open Execution

variable {n : Nat}

mutual

theorem execute_refines : ∀ s : Stmt, (Session.view n).Refines s.execute s.executeIn
  | .expression expr => (value_refines expr).bind fun _ => View.refines_pure _
  | .print expr => (value_refines expr).bind fun v => (Session.writeLine_refines v.render).adaptExcept Stop.io
  | .declare _ none => define_refines _ _
  | .declare _ (some expr) => (value_refines expr).bind fun v => define_refines _ v
  | .assign name expr => (value_refines (.assign name expr)).bind fun _ => View.refines_pure _
  | .block body => inNewFrame_refines (executeAll_refines body)
  | .branch condition yes no => by
    refine (value_refines condition).bind fun v => ?_
    split_ifs
    · exact execute_refines yes
    · exact execute_refines no
  | .skip => View.refines_pure ()

/-- **Frames are scopes.** Statements run in a chain of frames as in a stack of scopes, with the same output, and leave
the same values in every frame of the chain, whether they come to their end or not. -/
theorem executeAll_refines : ∀ body : List Stmt, (Session.view n).Refines (executeAll body) (executeAllIn body)
  | [] => View.refines_pure ()
  | s :: rest => (execute_refines s).bind fun _ => executeAll_refines rest

end

end Stmt

/-! ## Sessions -/

namespace Session

variable {n : Nat}

def stopped : Stop → EStateM IoFailure Session Ending
  | .evaluation e => do
    writeLine e.message
    pure .runtimeError
  | .io failure => throw failure

theorem perform_eq_handle (program : Program) :
    perform program = handle (Stmt.executeAll program) (fun _ => pure .completed) stopped := by
  funext s
  simp only [perform, handle]
  rcases Stmt.executeAll program s with ⟨_, t⟩ | ⟨e | failure, t⟩ <;> rfl

theorem complain_refines (diagnostics : List Diagnostic) :
    (view n).Refines (complain diagnostics) (Stacked.complain diagnostics) := by
  induction diagnostics with
  | nil => exact View.refines_pure ()
  | cons d rest ih => exact (writeLine_refines d.render).bind fun _ => ih

theorem stopped_refines (stop : Stop) : (view n).Refines (stopped stop) (Stacked.stopped stop) := by
  cases stop with
  | evaluation e => exact (writeLine_refines e.message).bind fun _ => View.refines_pure _
  | io failure => exact View.refines_throw failure

/-- a session does with a source what scopes and a sink are enough for -/
theorem run_refines (source : Source) : (view n).Refines (run source) (Stacked.run source) := by
  unfold run Stacked.run
  split_ifs
  · exact View.refines_throw _
  · cases compile source.content with
    | error diagnostics => exact (complain_refines diagnostics).bind fun _ => View.refines_pure _
    | ok program =>
      simp only [perform_eq_handle]
      exact (Stmt.executeAll_refines program).handle (fun _ => View.refines_pure _) stopped_refines

end Session

end Scriptlet
