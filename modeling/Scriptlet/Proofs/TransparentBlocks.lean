/-
Blocks that declare nothing. A block opens a scope of its own. If no statement of it declares a name there, that scope
stays empty, and an empty scope is never seen: the block does what its statements do without the braces.

To prove it, an empty scope is followed through a whole run. At first it is the innermost one; when blocks inside of the
block open, it lies further out, and there it must stay unseen although all kinds of statements run on top of it. So the
view of a stack in which an empty scope is put in at some depth is kept by every statement that does not declare into
that very scope (`Stmt.executeIn_padded`), and at depth zero this is the equation between a block and its statements
(`Stmt.executeIn_block_eq`).

- `Stmt.execute_block_transparent`: blocks over shared frames.
-/
import Scriptlet.Proofs.ScopeDiscipline

namespace Scriptlet

/-! ## Empty scopes are not seen -/

namespace ScopeStack

variable {name : String}

theorem find?_insertIdx (d : Nat) (scopes : ScopeStack) :
    find? name (scopes.insertIdx d ∅) = scopes.find? name := by
  induction scopes generalizing d with
  | nil => cases d <;> rfl
  | cons names outer ih =>
    cases d with
    | zero => simp [find?]
    | succ d => simp [find?, ih]

theorem assign?_insertIdx (d : Nat) (value : Value) (scopes : ScopeStack) :
    assign? name value (scopes.insertIdx d ∅) = (scopes.assign? name value).map fun after => after.insertIdx d ∅ := by
  induction scopes generalizing d with
  | nil => cases d <;> simp [assign?, Finmap.notMem_empty]
  | cons names outer ih =>
    cases d with
    | zero =>
      rw [List.insertIdx_zero, assign?, if_neg Finmap.notMem_empty]
      simp
    | succ d =>
      rw [List.insertIdx_succ_cons, assign?, assign?, ih]
      split_ifs
      · simp
      · simp [Function.comp_def]

theorem define_insertIdx (d : Nat) (value : Value) (scopes : ScopeStack) :
    define name value (scopes.insertIdx (d + 1) ∅) = (scopes.define name value).insertIdx (d + 1) ∅ := by
  cases scopes with
  | nil => rfl
  | cons names outer => simp [define]

theorem tail_insertIdx (d : Nat) {scopes : ScopeStack} (h : 0 < scopes.length) :
    (scopes.insertIdx (d + 1) ∅).tail = scopes.tail.insertIdx d ∅ := by
  obtain ⟨names, outer, rfl⟩ := List.exists_cons_of_length_pos h
  rfl

/-- stacks seen with an empty scope put in, `d` scopes further out than the innermost -/
def padded (d : Nat) : View ScopeStack ScopeStack where
  see scopes := scopes.insertIdx d ∅
  fit scopes := d ≤ scopes.length
  later before after := after.length = before.length
  refl _ := rfl
  trans h h' := h'.trans h
  fit_of_later h hfit := hfit.trans_eq h.symm

variable {d : Nat}

theorem lookup_padded (name : String) : (padded d).Refines (lookup name) (lookup name) := by
  constructor
  · intro scopes
    rw [lookup]
    cases scopes.find? name <;> rfl
  · intro scopes _
    simp only [lookup, padded, find?_insertIdx]
    cases scopes.find? name <;> rfl

theorem assign_padded (name : String) (value : Value) : (padded d).Refines (assign name value) (assign name value) := by
  constructor
  · intro scopes
    rw [assign]
    cases h : scopes.assign? name value with
    | none => rfl
    | some after => exact (confined_of_assign? h).length
  · intro scopes _
    simp only [assign, padded, assign?_insertIdx]
    cases scopes.assign? name value <;> rfl

end ScopeStack

/-- an expression does not see an empty scope -/
theorem Expr.evaluateIn_padded (d : Nat) (e : Expr) : (ScopeStack.padded d).Refines e.evaluateIn e.evaluateIn := by
  have answer_padded (r : Except EvalError Value) : (ScopeStack.padded d).Refines
      (ofExcept r : EStateM EvalError ScopeStack Value) (ofExcept r) := by
    cases r with
    | ok value => exact View.refines_pure value
    | error e => exact View.refines_throw e
  induction e with
  | literal value => exact View.refines_pure value
  | grouping inner ih => exact ih
  | unary operator operand ih => exact ih.bind fun v => answer_padded _
  | binary left operator right ihl ihr => exact ihl.bind fun a => ihr.bind fun b => answer_padded _
  | logical left operator right ihl ihr =>
    refine ihl.bind fun a => ?_
    split_ifs
    · exact View.refines_pure a
    · exact ihr
  | var name => exact ScopeStack.lookup_padded name.lexeme
  | assign name value ih =>
    exact ih.bind fun v => (ScopeStack.assign_padded name.lexeme v).bind fun _ => View.refines_pure v

namespace Stacked

variable {d : Nat}

/-- the same of stacks with a sink -/
def padded (d : Nat) : View Stacked Stacked where
  see s := { s with scopes := (ScopeStack.padded d).see s.scopes }
  fit s := (ScopeStack.padded d).fit s.scopes
  later s t := (ScopeStack.padded d).later s.scopes t.scopes
  refl s := (ScopeStack.padded d).refl s.scopes
  trans h h' := (ScopeStack.padded d).trans h h'
  fit_of_later h hfit := (ScopeStack.padded d).fit_of_later h hfit

theorem value_padded (expr : Expr) : (padded d).Refines (value expr) (value expr) := by
  have hexpr := expr.evaluateIn_padded d
  constructor
  · intro s
    have hlater := hexpr.later s.scopes
    rw [value]
    cases h : expr.evaluateIn s.scopes <;> simpa [h, padded, EStateM.Result.state] using hlater
  · intro s hs
    simp only [value, padded, ← hexpr.seen s.scopes hs]
    cases expr.evaluateIn s.scopes <;> rfl

theorem writeLine_padded (text : String) : (padded d).Refines (writeLine text) (writeLine text) := by
  constructor
  · intro s
    simp only [writeLine]
    split_ifs <;> rfl
  · intro s _
    change _ = writeLine text ⟨(ScopeStack.padded d).see s.scopes, s.sink⟩
    simp only [writeLine]
    split_ifs <;> rfl

/-- a declaration is not made in a scope further out -/
theorem define_padded (name : String) (v : Value) : (padded (d + 1)).Refines (define name v) (define name v) := by
  constructor
  · intro s
    exact (s.scopes.confined_define name v).length
  · intro s _
    change EStateM.Result.ok () (Stacked.mk ((s.scopes.define name v).insertIdx (d + 1) ∅) s.sink) = _
    rw [← ScopeStack.define_insertIdx]
    rfl

/-- in a scope of its own, a computation has the empty scope one further out -/
theorem inNewScope_padded {body : EStateM Stop Stacked Unit} (h : (padded (d + 1)).Refines body body) :
    (padded d).Refines (inNewScope body) (inNewScope body) := by
  have hlength (s : Stacked) : (body { s with scopes := ∅ :: s.scopes }).state.scopes.length = s.scopes.length + 1 :=
    h.later { s with scopes := ∅ :: s.scopes }
  constructor
  · intro s
    rw [inNewScope, EStateM.Result.state_mapState]
    simp [padded, ScopeStack.padded, hlength s]
  · intro s hs
    have hseen := h.seen { s with scopes := ∅ :: s.scopes } (Nat.succ_le_succ hs)
    -- the body has not lost its own scope, so the one that is dropped is not the empty one
    have hpopped := ScopeStack.tail_insertIdx d ((Nat.succ_pos _).trans_eq (hlength s).symm)
    simp only [padded, ScopeStack.padded, List.insertIdx_succ_cons] at hseen
    simp only [inNewScope, padded, ScopeStack.padded, ← hseen]
    cases hend : body { s with scopes := ∅ :: s.scopes }
    all_goals
      rw [hend] at hpopped
      simp only [EStateM.Result.mapState, EStateM.Result.state] at hpopped ⊢
      rw [hpopped]

end Stacked

namespace Stmt

open Stacked

mutual

/-- a statement does not see an empty scope that it does not declare into -/
theorem executeIn_padded :
    ∀ (s : Stmt) (d : Nat), (d = 0 → s.declared = []) → (padded d).Refines s.executeIn s.executeIn
  | .expression expr, _, _ => (value_padded expr).bind fun _ => View.refines_pure _
  | .print expr, _, _ => (value_padded expr).bind fun v => (writeLine_padded v.render).adaptExcept Stop.io
  | .declare name initial, 0, h => absurd (h rfl) (List.cons_ne_nil _ _)
  | .declare name none, d + 1, _ => define_padded name.lexeme .nil
  | .declare name (some expr), d + 1, _ => (value_padded expr).bind fun v => define_padded name.lexeme v
  | .assign name expr, _, _ => (value_padded (.assign name expr)).bind fun _ => View.refines_pure _
  | .block body, d, _ => inNewScope_padded (executeAllIn_padded body (d + 1) nofun)
  | .branch condition yes no, d, h => by
    have hbranches (hd : d = 0) : yes.declared = [] ∧ no.declared = [] := List.append_eq_nil_iff.1 (h hd)
    refine (value_padded condition).bind fun v => ?_
    split_ifs
    · exact executeIn_padded yes d fun hd => (hbranches hd).1
    · exact executeIn_padded no d fun hd => (hbranches hd).2
  | .skip, _, _ => View.refines_pure ()

theorem executeAllIn_padded : ∀ (body : List Stmt) (d : Nat), (d = 0 → ∀ s ∈ body, s.declared = []) →
    (padded d).Refines (executeAllIn body) (executeAllIn body)
  | [], _, _ => View.refines_pure ()
  | s :: rest, d, h =>
    (executeIn_padded s d fun hd => h hd s List.mem_cons_self).bind fun _ =>
      executeAllIn_padded rest d fun hd stmt hstmt => h hd stmt (List.mem_cons_of_mem s hstmt)

end

/-- over a stack of scopes, a block that declares nothing is its statements -/
theorem executeIn_block_eq {body : List Stmt} (h : ∀ s ∈ body, s.declared = []) :
    (Stmt.block body).executeIn = executeAllIn body := by
  funext s
  have hseen := (executeAllIn_padded body 0 fun _ => h).seen s (Nat.zero_le _)
  have hpushed : (padded 0).see s = { s with scopes := ∅ :: s.scopes } := by simp [padded, ScopeStack.padded]
  calc (Stmt.block body).executeIn s
    _ = (executeAllIn body ((padded 0).see s)).mapState fun t => { t with scopes := t.scopes.tail } := by
      rw [hpushed, executeIn, inNewScope]
    _ = ((executeAllIn body s).mapState (padded 0).see).mapState fun t => { t with scopes := t.scopes.tail } := by
      rw [hseen]
    _ = executeAllIn body s := by
      cases executeAllIn body s <;> simp [EStateM.Result.mapState, padded, ScopeStack.padded]

end Stmt

/-! ## Frames -/

theorem Sink.since_zero (s : Sink) : s.since 0 = s := by
  obtain ⟨kept, limit⟩ := s
  cases limit <;> rfl

namespace Session

variable {ε α : Type} {x x' : EStateM ε Session α} {y : EStateM ε Stacked α} {s : Session}

/-- computations over frames that are the same over a stack of scopes end the same way, write the same, and leave the
same in the frames around the current one -/
theorem agree_of_refines (h : (view 0).Refines x y) (h' : (view 0).Refines x' y)
    (hcurrent : s.scope.current < s.scope.frames.all.size) :
    (x s).answer = (x' s).answer ∧ (x s).state.sink = (x' s).state.sink ∧
      ∀ j ∈ s.scope.frames.path s.scope.current,
        (x s).state.scope.frames.namesAt j = (x' s).state.scope.frames.namesAt j := by
  have hsame : (x s).mapState (view 0).see = (x' s).mapState (view 0).see := by
    rw [h.seen s ⟨hcurrent, Nat.zero_le _⟩, h'.seen s ⟨hcurrent, Nat.zero_le _⟩]
  have hanswer := congrArg EStateM.Result.answer hsame
  have hstate := congrArg EStateM.Result.state hsame
  rw [EStateM.Result.answer_mapState, EStateM.Result.answer_mapState] at hanswer
  rw [EStateM.Result.state_mapState, EStateM.Result.state_mapState] at hstate
  simp only [view, Sink.since_zero, Stacked.mk.injEq] at hstate
  obtain ⟨hstack, hsink⟩ := hstate
  refine ⟨hanswer, hsink, ?_⟩
  have hlater := (h.later s).scope
  have hlater' := (h'.later s).scope
  rw [Scope.stack, Scope.stack, hlater.current, hlater'.current, Frames.chain_eq_map, Frames.chain_eq_map,
    Frames.path_of_grows hlater.frames hcurrent, Frames.path_of_grows hlater'.frames hcurrent] at hstack
  exact List.map_inj_left.1 hstack

end Session

namespace Stmt

/-- **Blocks that declare nothing are transparent.** Let no statement of a block declare a name, but in blocks of its
own. From any frame, with any frames around it and any sink, the block ends as its statements do when they run in the
frame itself, with the same error if they fail, and leaves the sink in the same state; the same frame is current again,
and each frame around it binds the same names to the same values. -/
theorem execute_block_transparent {body : List Stmt} (hbody : ∀ stmt ∈ body, stmt.declared = []) (s : Session)
    (hcurrent : s.scope.current < s.scope.frames.all.size) :
    let path := s.scope.frames.path s.scope.current
    let inBlock := (Stmt.block body).execute s
    let inPlace := executeAll body s
    inBlock.answer = inPlace.answer ∧ inBlock.state.sink = inPlace.state.sink ∧
      (inBlock.state.scope.current = s.scope.current ∧ inPlace.state.scope.current = s.scope.current) ∧
      (inBlock.state.scope.frames.path s.scope.current = path ∧
        inPlace.state.scope.frames.path s.scope.current = path) ∧
      ∀ j ∈ path, inBlock.state.scope.frames.namesAt j = inPlace.state.scope.frames.namesAt j := by
  intro path inBlock inPlace
  have hblock : (Session.view 0).Refines (Stmt.block body).execute (executeAllIn body) := by
    rw [← executeIn_block_eq hbody]
    exact execute_refines (.block body)
  have hplace : (Session.view 0).Refines (executeAll body) (executeAllIn body) := executeAll_refines body
  obtain ⟨hanswer, hsink, hnames⟩ := Session.agree_of_refines hblock hplace hcurrent
  have hlater := (hblock.later s).scope
  have hlater' := (hplace.later s).scope
  refine ⟨hanswer, hsink, ⟨hlater.current, hlater'.current⟩, ⟨?_, ?_⟩, hnames⟩
  · exact Frames.path_of_grows hlater.frames hcurrent
  · exact Frames.path_of_grows hlater'.frames hcurrent

theorem execute_block_transparent_failingBlock : (∀ stmt ∈ failingBlock, stmt.declared = []) ∧
    nestedSession.scope.current < nestedSession.scope.frames.all.size ∧
    let inBlock := (Stmt.block failingBlock).execute nestedSession
    let inPlace := executeAll failingBlock nestedSession
    inBlock.answer = .error (.io .sinkFull) ∧ inPlace.answer = .error (.io .sinkFull) ∧
      inBlock.state.sink = inPlace.state.sink ∧
      inBlock.state.scope.frames.namesAt 0 = inPlace.state.scope.frames.namesAt 0 := by
  have hbody : ∀ stmt ∈ failingBlock, stmt.declared = [] := by simp [failingBlock, declared]
  have hcurrent : nestedSession.scope.current < nestedSession.scope.frames.all.size := by decide
  obtain ⟨hanswer, hsink, -, -, hnames⟩ := execute_block_transparent hbody nestedSession hcurrent
  have hfull : (executeAll failingBlock nestedSession).answer = .error (.io .sinkFull) := by decide +kernel
  refine ⟨hbody, hcurrent, hanswer.trans hfull, hfull, hsink, hnames 0 ?_⟩
  rw [path_nestedSession]
  simp

end Stmt

end Scriptlet
