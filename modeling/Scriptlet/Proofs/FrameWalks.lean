/-
Walks through frames. A name is looked up by taking hold of a frame, and, if the name is not there, of the one around it
while the first is still held, and so on outward. That such a walk ends, and that it never comes to a frame it holds
already, rests on an order that no single operation speaks of: what encloses a frame was made before it. New frames,
frames inside of others, copies, definitions, assignments and statements run in a frame all keep that order.

Here the walk is a machine of which nothing is assumed (`Frames.seek`): holding a frame twice, or one that is not there,
is a crash, and a walk without end has no result. It is not told that frames are ordered.

- `Stmt.execute_makes`: the frames a statement leaves behind could have been made by hand, one operation after the
  other.
- `Frames.Outward`: a way outward that has come to its end.
- `Frames.walks_end`: after any actions, from every frame.
-/
import Scriptlet.Proofs.LocalUpdates

namespace Scriptlet

/-! ## Frames made by statements -/

/-- frames made one after the other, and one of them is current -/
structure Scope.Built (s : Scope) : Prop where
  frames : s.frames.Built
  current : s.current < s.frames.all.size

namespace Scope

/-- `t` comes later than `s`, and its frames were made by operations on those of `s` -/
structure Makes (s t : Scope) : Prop where
  later : s.Later t
  built : s.Built → t.frames.Built

theorem Makes.refl (s : Scope) : s.Makes s := ⟨view.refl s, fun h => h.frames⟩

theorem Makes.of_built {s t : Scope} (h : s.Makes t) (hs : s.Built) : t.Built :=
  ⟨h.built hs, view.fit_of_later h.later hs.current⟩

theorem Makes.trans {s t u : Scope} (h : s.Makes t) (h' : t.Makes u) : s.Makes u :=
  ⟨view.trans h.later h'.later, fun hs => h'.built (h.of_built hs)⟩

theorem makes_define (s : Scope) (name : String) (value : Value) : s.Makes (s.define name value) where
  later := ⟨rfl, s.frames.grows_define _ _ _⟩
  built hs := hs.frames.define hs.current name value

theorem built_enter {s : Scope} (hs : s.Built) : s.enter.Built where
  frames := hs.frames.child hs.current
  current := by simp [enter, Frames.child, Frames.add]

end Scope

section Computations

variable {ε σ α β : Type} {see : σ → Scope}

/-- whichever way the computation ends -/
def MakesFrames (see : σ → Scope) (x : EStateM ε σ α) : Prop := ∀ s, (see s).Makes (see (x s).state)

theorem makesFrames_of_unchanged {x : EStateM ε σ α} (h : ∀ s, see (x s).state = see s) : MakesFrames see x := by
  intro s
  rw [h s]
  exact .refl _

theorem makesFrames_pure (a : α) : MakesFrames see (pure a : EStateM ε σ α) := makesFrames_of_unchanged fun _ => rfl

theorem MakesFrames.bind {x : EStateM ε σ α} {f : α → EStateM ε σ β} (hx : MakesFrames see x)
    (hf : ∀ a, MakesFrames see (f a)) : MakesFrames see (x >>= f) := by
  intro s
  have hfirst := hx s
  rw [EStateM.bind_apply]
  cases h : x s with
  | ok a t =>
    rw [h] at hfirst
    exact hfirst.trans (hf a t)
  | error e t =>
    rw [h] at hfirst
    exact hfirst

end Computations

namespace Evaluation

theorem answer_makes {α : Type} (r : Except EvalError α) : MakesFrames id (answer r) := by
  cases r with
  | ok value => exact makesFrames_pure value
  | error e => exact makesFrames_of_unchanged fun _ => rfl

theorem lookup_makes (name : String) : MakesFrames id (lookup name) := by
  refine makesFrames_of_unchanged fun s => ?_
  cases h : s.stack.find? name with
  | some value => rw [lookup_of_some h]; rfl
  | none => rw [lookup_of_none h]; rfl

theorem assign_makes (name : String) (value : Value) : MakesFrames id (assign name value) := by
  intro s
  cases h : s.frames.owner? name s.current with
  | none =>
    rw [assign_of_unowned h]
    exact .refl s
  | some k =>
    have hassign : s.frames.assign s.current name value = .ok (s.frames.define k name value) := by
      rw [Frames.assign, h]
    rw [assign_of_owner h]
    exact ⟨⟨rfl, s.frames.grows_define _ _ _⟩, fun hs => hs.frames.assign hs.current hassign⟩

end Evaluation

theorem Expr.evaluate_makes (e : Expr) : MakesFrames id e.evaluate := by
  induction e with
  | literal value => exact makesFrames_pure value
  | grouping inner ih => exact ih
  | unary operator operand ih => exact ih.bind fun _ => Evaluation.answer_makes _
  | binary left operator right ihl ihr => exact ihl.bind fun _ => ihr.bind fun _ => Evaluation.answer_makes _
  | logical left operator right ihl ihr =>
    refine ihl.bind fun a => ?_
    split_ifs
    · exact makesFrames_pure a
    · exact ihr
  | var name => exact Evaluation.lookup_makes name.lexeme
  | assign name value ih =>
    exact ih.bind fun v => (Evaluation.assign_makes name.lexeme v).bind fun _ => makesFrames_pure v

namespace Execution

theorem value_makes (expr : Expr) : MakesFrames Session.scope (value expr) := by
  intro s
  have hstate : (value expr s).state.scope = (expr.evaluate s.scope).state := by
    rw [value_apply]
    cases expr.evaluate s.scope <;> rfl
  rw [hstate]
  exact expr.evaluate_makes s.scope

theorem writeLine_makes (text : String) : MakesFrames Session.scope (writeLine text) := by
  refine makesFrames_of_unchanged fun s => ?_
  simp only [writeLine, EStateM.adaptExcept_apply, Session.writeLine]
  split_ifs <;> rfl

theorem define_makes (name : String) (v : Value) : MakesFrames Session.scope (define name v) :=
  fun s => s.scope.makes_define name v

theorem inNewFrame_makes {body : Execution Unit} (h : MakesFrames Session.scope body) :
    MakesFrames Session.scope (inNewFrame body) := by
  intro s
  have hbody := h { s with scope := s.scope.enter }
  rw [inNewFrame_eq, EStateM.Result.state_mapState]
  exact ⟨⟨rfl, (s.scope.frames.grows_add _).trans hbody.later.frames⟩, fun hs => hbody.built (Scope.built_enter hs)⟩

end Execution

namespace Stmt

open Execution

mutual

theorem execute_makes : ∀ s : Stmt, MakesFrames Session.scope s.execute
  | .expression expr => (value_makes expr).bind fun _ => makesFrames_pure _
  | .print expr => (value_makes expr).bind fun v => writeLine_makes v.render
  | .declare _ none => define_makes _ _
  | .declare _ (some expr) => (value_makes expr).bind fun v => define_makes _ v
  | .assign name expr => (value_makes (.assign name expr)).bind fun _ => makesFrames_pure _
  | .block body => inNewFrame_makes (executeAll_makes body)
  | .branch condition yes no => by
    refine (value_makes condition).bind fun v => ?_
    split_ifs
    · exact execute_makes yes
    · exact execute_makes no
  | .skip => makesFrames_pure ()

theorem executeAll_makes : ∀ body : List Stmt, MakesFrames Session.scope (executeAll body)
  | [] => makesFrames_pure ()
  | s :: rest => (execute_makes s).bind fun _ => executeAll_makes rest

end

end Stmt

/-! ## Actions -/

/-- what can be done to frames from outside; statements run in a frame and may write to a sink -/
inductive FrameAction where
  | unrelated
  | child (i : Nat)
  | copy (i : Nat)
  | define (i : Nat) (name : String) (value : Value)
  | assign (i : Nat) (name : String) (value : Value)
  | execute (i : Nat) (s : Stmt) (sink : Sink)

namespace FrameAction

/-- the frame that is acted on, if it is there already -/
def frame? : FrameAction → Option Nat
  | unrelated => none
  | child i | copy i | define i _ _ | assign i _ _ | execute i _ _ => some i

/-- the frames after an action on frames that are there -/
def act (s : Frames) : FrameAction → Frames
  | unrelated => s.unrelated
  | child i => s.child i
  | copy i => s.copy i
  | define i name value => s.define i name value
  | assign i name value => (s.assign i name value).toOption.getD s
  | execute i stmt sink => (stmt.execute ⟨⟨s, i⟩, sink⟩).state.scope.frames

/-- an action on a frame that is not there cannot be made -/
def step (s : Frames) (action : FrameAction) : Frames :=
  if action.frame?.all (· < s.all.size) then action.act s else s

end FrameAction

namespace Frames

def after (actions : List FrameAction) : Frames := actions.foldl FrameAction.step ⟨#[]⟩

theorem Built.step {s : Frames} (h : s.Built) (action : FrameAction) : (action.step s).Built := by
  unfold FrameAction.step
  split_ifs with hthere
  · cases action with
    | unrelated => exact h.unrelated
    | child i => exact h.child (by simpa [FrameAction.frame?] using hthere)
    | copy i => exact h.copy (by simpa [FrameAction.frame?] using hthere)
    | define i name value => exact h.define (by simpa [FrameAction.frame?] using hthere) name value
    | assign i name value =>
      simp only [FrameAction.act]
      cases hassign : s.assign i name value with
      | ok t => exact h.assign (by simpa [FrameAction.frame?] using hthere) hassign
      | error e => exact h
    | execute i stmt sink =>
      have hi : i < s.all.size := by simpa [FrameAction.frame?] using hthere
      exact (stmt.execute_makes ⟨⟨s, i⟩, sink⟩).built ⟨h, hi⟩
  · exact h

theorem built_after (actions : List FrameAction) : (after actions).Built := by
  have hrun : ∀ {s : Frames}, s.Built → (actions.foldl FrameAction.step s).Built := by
    intro s hs
    induction actions generalizing s with
    | nil => exact hs
    | cons action actions ih => exact ih (hs.step action)
  exact hrun .nothing

/-! ## The way outward -/

/-- the frames met on the way outward from a frame, up to one that lies in no other -/
inductive Outward (s : Frames) : Nat → List Nat → Prop where
  | global {i : Nat} {frame : Frame} (hframe : s.all[i]? = some frame) (henclosing : frame.enclosing = none) :
    Outward s i [i]
  | inside {i j : Nat} {frame : Frame} {path : List Nat} (hframe : s.all[i]? = some frame)
    (henclosing : frame.enclosing = some j) (h : Outward s j path) : Outward s i (i :: path)

variable {s : Frames} {i : Nat} {path : List Nat}

theorem Ordered.exists_outward (h : s.Ordered) (hi : i < s.all.size) : ∃ path, s.Outward i path := by
  induction i using Nat.strong_induction_on with
  | _ i ih =>
    have hframe := Array.getElem?_eq_getElem hi
    cases henclosing : s.all[i].enclosing with
    | none => exact ⟨[i], .global hframe henclosing⟩
    | some j =>
      have hj := h i _ hframe j henclosing
      obtain ⟨path, hpath⟩ := ih j hj (hj.trans hi)
      exact ⟨i :: path, .inside hframe henclosing hpath⟩

theorem Outward.le (h : s.Ordered) (hpath : s.Outward i path) : ∀ k ∈ path, k ≤ i := by
  induction hpath with
  | global _ _ => exact List.forall_mem_singleton.2 le_rfl
  | inside hframe henclosing _ ih =>
    have hj := h _ _ hframe _ henclosing
    exact List.forall_mem_cons.2 ⟨le_rfl, fun k hk => (ih k hk).trans hj.le⟩

/-- on the way outward every frame is older than those before it -/
theorem Outward.descending (h : s.Ordered) (hpath : s.Outward i path) :
    path.Pairwise fun inner outer => outer < inner := by
  induction hpath with
  | global _ _ => exact List.pairwise_singleton _ _
  | inside hframe henclosing hrest ih =>
    have hj := h _ _ hframe _ henclosing
    exact List.pairwise_cons.2 ⟨fun k hk => (hrest.le h k hk).trans_lt hj, ih⟩

theorem Outward.nodup (h : s.Ordered) (hpath : s.Outward i path) : path.Nodup :=
  (hpath.descending h).imp fun hlt => hlt.ne'

/-! ## Walking -/

end Frames

/-- the frame with another value for a name it binds -/
def Frame.assigned? (name : String) (value : Value) (frame : Frame) : Option Frame :=
  if frame.bindings.binds name then some (frame.define name value) else none

/-- what must not happen on a walk -/
inductive Stumble where
  | missing
  | alreadyHeld
  deriving DecidableEq

/-- steps of a walk, which keeps hold of frames to its end -/
abbrev FrameWalk := StateT (List Nat) (ExceptT Stumble Option)

namespace Frames

def hold (s : Frames) (i : Nat) : FrameWalk Frame := do
  if i ∈ (← MonadState.get) then throw .alreadyHeld
  match s.all[i]? with
  | none => throw .missing
  | some frame =>
    modify (· ++ [i])
    return frame

/-- takes hold of frame after frame, outward, up to the first in which there is what is looked for -/
def seek {α : Type} (s : Frames) (here : Frame → Option α) (i : Nat) : FrameWalk (Option (Nat × α)) := do
  let frame ← s.hold i
  match here frame with
  | some a => return some (i, a)
  | none =>
    match frame.enclosing with
    | none => return none
    | some j => s |>.seek here j
partial_fixpoint

def getHolding (s : Frames) (i : Nat) (name : String) : FrameWalk (Except EvalError Value) := do
  match ← s.seek (·.bindings.find? name) i with
  | some (_, value) => return .ok value
  | none => return .error (.undefinedVariable name)

def assignHolding (s : Frames) (i : Nat) (name : String) (value : Value) : FrameWalk (Except EvalError Frames) := do
  match ← s.seek (Frame.assigned? name value) i with
  | some (k, frame) => return .ok ⟨s.all.setIfInBounds k frame⟩
  | none => return .error (.undefinedVariable name)

/-- what is found first along a path, and where -/
def find {α : Type} (s : Frames) (here : Frame → Option α) (path : List Nat) : Option (Nat × α) :=
  path.findSome? fun k => (s.all[k]?.bind here).map (k, ·)

variable {α : Type} {here : Frame → Option α} {s : Frames} {frame : Frame} {i : Nat} {path held : List Nat}
  {name : String}

theorem find_cons (hframe : s.all[i]? = some frame) (path : List Nat) :
    s.find here (i :: path) = ((here frame).map (i, ·)).or (s.find here path) := by
  rw [find, List.findSome?_cons, hframe, Option.bind_some, find]
  cases here frame <;> rfl

theorem hold_run (hfree : i ∉ held) (hframe : s.all[i]? = some frame) :
    ((s.hold i).run held).run = some (.ok (frame, held ++ [i])) := by
  simp [hold, hfree, hframe]

/-- one step of a walk that may be made -/
theorem seek_run_eq (hfree : i ∉ held) (hframe : s.all[i]? = some frame) : ((s.seek here i).run held).run =
    match here frame, frame.enclosing with
    | some a, _ => some (.ok (some (i, a), held ++ [i]))
    | none, none => some (.ok (none, held ++ [i]))
    | none, some j => ((s.seek here j).run (held ++ [i])).run := by
  rw [seek, StateT.run_bind, ExceptT.run_bind, hold_run hfree hframe]
  cases hhere : here frame with
  | some a => simp [hhere]
  | none =>
    cases henclosing : frame.enclosing with
    | none => simp [hhere, henclosing]
    | some j => simp [hhere, henclosing]

/-- a walk comes to an end, holds nothing twice, and finds what is first on its way -/
theorem Outward.seek_run (hpath : s.Outward i path) (here : Frame → Option α) (held : List Nat)
    (hfree : (held ++ path).Nodup) : ∃ taken, taken <+: path ∧
    ((s.seek here i).run held).run = some (.ok (s.find here path, held ++ taken)) := by
  induction hpath generalizing held with
  | @global i frame hframe henclosing =>
    have hi : i ∉ held := fun hmem => (List.nodup_append.1 hfree).2.2 i hmem i List.mem_cons_self rfl
    refine ⟨[i], List.prefix_refl _, ?_⟩
    rw [seek_run_eq hi hframe, find_cons hframe, henclosing]
    cases here frame <;> rfl
  | @inside i j frame path hframe henclosing hrest ih =>
    have hi : i ∉ held := fun hmem => (List.nodup_append.1 hfree).2.2 i hmem i List.mem_cons_self rfl
    rw [seek_run_eq hi hframe, find_cons hframe, henclosing]
    cases here frame with
    | some a => exact ⟨[i], List.prefix_append [i] path, rfl⟩
    | none =>
      obtain ⟨taken, hprefix, hrun⟩ := ih (held ++ [i]) (by simpa using hfree)
      refine ⟨i :: taken, List.cons_prefix_cons.2 ⟨rfl, hprefix⟩, ?_⟩
      simpa using hrun

/-- what a name is bound to is what is found on the way outward -/
theorem Outward.get_eq (h : s.Ordered) (hpath : s.Outward i path) (name : String) : s.get i name =
    match s.find (·.bindings.find? name) path with
    | some (_, value) => .ok value
    | none => .error (.undefinedVariable name) := by
  induction hpath with
  | @global i frame hframe henclosing =>
    rw [find_cons hframe]
    cases hfind : frame.bindings.find? name with
    | some value => exact get_here hframe hfind
    | none => exact get_global hframe hfind henclosing
  | @inside i j frame path hframe henclosing _ ih =>
    rw [find_cons hframe]
    cases hfind : frame.bindings.find? name with
    | some value => exact get_here hframe hfind
    | none => exact (get_outward h hframe hfind henclosing).trans ih

/-- a frame that is put in the place of the one it was made from -/
theorem setIfInBounds_eq_define (hframe : s.all[i]? = some frame) (name : String) (value : Value) :
    (⟨s.all.setIfInBounds i (frame.define name value)⟩ : Frames) = s.define i name value := by
  obtain ⟨hi, rfl⟩ := Array.getElem?_eq_some_iff.1 hframe
  refine congrArg Frames.mk (Array.ext_getElem? fun k => ?_)
  rw [Array.getElem?_setIfInBounds, Array.getElem?_modify]
  by_cases hk : i = k
  · subst hk
    simp [hi]
  · simp [hk]

theorem assign_here {old : Value} (hframe : s.all[i]? = some frame) (hfind : frame.bindings.find? name = some old)
    (value : Value) : s.assign i name value = .ok ⟨s.all.setIfInBounds i (frame.define name value)⟩ := by
  rw [assign, owner?_here hframe hfind, setIfInBounds_eq_define hframe]

theorem assign_outward (h : s.Ordered) {j : Nat} (hframe : s.all[i]? = some frame)
    (hfind : frame.bindings.find? name = none) (henclosing : frame.enclosing = some j) (value : Value) :
    s.assign i name value = s.assign j name value := by
  rw [assign, owner?_outward h hframe hfind henclosing, ← assign]

theorem assign_global (hframe : s.all[i]? = some frame) (hfind : frame.bindings.find? name = none)
    (henclosing : frame.enclosing = none) (value : Value) :
    s.assign i name value = .error (.undefinedVariable name) := by
  rw [assign, owner?_global hframe hfind henclosing]

/-- an assignment changes the frame that is found on the way outward -/
theorem Outward.assign_eq (h : s.Ordered) (hpath : s.Outward i path) (name : String) (value : Value) :
    s.assign i name value =
      match s.find (Frame.assigned? name value) path with
      | some (k, frame) => .ok ⟨s.all.setIfInBounds k frame⟩
      | none => .error (.undefinedVariable name) := by
  induction hpath with
  | @global i frame hframe henclosing =>
    rw [find_cons hframe, Frame.assigned?, Bindings.binds]
    cases hfind : frame.bindings.find? name with
    | some old => exact assign_here hframe hfind value
    | none => exact assign_global hframe hfind henclosing value
  | @inside i j frame path hframe henclosing _ ih =>
    rw [find_cons hframe, Frame.assigned?, Bindings.binds]
    cases hfind : frame.bindings.find? name with
    | some old => exact assign_here hframe hfind value
    | none => exact (assign_outward h hframe hfind henclosing value).trans ih

theorem Outward.getHolding_run (h : s.Ordered) (hpath : s.Outward i path) (name : String) : ∃ held, held <+: path ∧
    ((s.getHolding i name).run []).run = some (.ok (s.get i name, held)) := by
  obtain ⟨held, hprefix, hrun⟩ := hpath.seek_run (·.bindings.find? name) [] (hpath.nodup h)
  refine ⟨held, hprefix, ?_⟩
  rw [getHolding, StateT.run_bind, ExceptT.run_bind, hrun, hpath.get_eq h]
  rcases s.find _ path with _ | ⟨k, value⟩ <;> rfl

theorem Outward.assignHolding_run (h : s.Ordered) (hpath : s.Outward i path) (name : String) (value : Value) :
    ∃ held, held <+: path ∧
      ((s.assignHolding i name value).run []).run = some (.ok (s.assign i name value, held)) := by
  obtain ⟨held, hprefix, hrun⟩ := hpath.seek_run (Frame.assigned? name value) [] (hpath.nodup h)
  refine ⟨held, hprefix, ?_⟩
  rw [assignHolding, StateT.run_bind, ExceptT.run_bind, hrun, hpath.assign_eq h]
  rcases s.find _ path with _ | ⟨k, frame⟩ <;> rfl

/-- **Every way outward ends, and meets no frame twice.** After any actions on frames, from every frame there is a way
outward up to a frame that lies in no other; each frame on it was made before all the frames that come before it on the
way. So a walk that looks a name up, or changes its value, comes to an end from every frame and for every name, with the
answer that it should have; it takes hold of frames on that way only, and of none that it holds already. -/
theorem walks_end (actions : List FrameAction) (i : Nat) (hi : i < (after actions).all.size) : ∃ path,
    (after actions).Outward i path ∧ path.Pairwise (fun inner outer => outer < inner) ∧ path.Nodup ∧
    (∀ name, ∃ held, held <+: path ∧
      (((after actions).getHolding i name).run []).run = some (.ok ((after actions).get i name, held))) ∧
    ∀ name value, ∃ held, held <+: path ∧
      (((after actions).assignHolding i name value).run []).run =
        some (.ok ((after actions).assign i name value, held)) := by
  have h := (built_after actions).ordered
  obtain ⟨path, hpath⟩ := h.exists_outward hi
  exact ⟨path, hpath, hpath.descending h, hpath.nodup h, hpath.getHolding_run h, hpath.assignHolding_run h⟩

/-- a global frame, a frame inside it and a copy of that one, in which a block is run that binds a name and assigns
another in the global frame -/
def copyThenBlock : List FrameAction :=
  [.unrelated, .define 0 "a" .nil, .child 0, .copy 1, .execute 2 (.block [.declare ⟨.identifier, "b", 1⟩ none,
    .assign ⟨.identifier, "a", 1⟩ (.literal (.bool true))]) (.ofLimit none)]

theorem walks_end_copyThenBlock : 3 < (after copyThenBlock).all.size ∧ ∃ path, (after copyThenBlock).Outward 3 path ∧
    path.Nodup ∧ ∃ held, held <+: path ∧
      (((after copyThenBlock).getHolding 3 "a").run []).run = some (.ok ((after copyThenBlock).get 3 "a", held)) := by
  have hsize : 3 < (after copyThenBlock).all.size := by decide +kernel
  obtain ⟨path, hpath, -, hnodup, hget, -⟩ := walks_end copyThenBlock 3 hsize
  exact ⟨hsize, path, hpath, hnodup, hget "a"⟩

end Frames

end Scriptlet
