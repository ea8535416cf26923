/-
Effects on scopes. What a statement may do to the scopes around it can be told from its text: the names it declares
outside of its blocks may be bound in the innermost scope, and the names it assigns may change where they are seen
first. All else stays as it is, also when the statement fails half way, and whatever it has bound in blocks of its own
is gone.

`ScopeStack.Confined` is that bound on a change of scopes. It holds of every change that evaluation and execution over a
stack of scopes can make (`Expr.evaluateIn_touches`, `Stmt.executeIn_touches`), and so of the frames around the current
one (`Stmt.execute_confined`).

- `Stmt.execute_keeps_frames`: the frames around a statement, and the names that are bound in them.
- `Stmt.execute_changes_visible`: the values in those frames.
-/
import Scriptlet.Proofs.SharedFrames

namespace Scriptlet

/-! ## Names that are declared and assigned -/

def Expr.assigned : Expr → List String
  | .literal _ => []
  | .unary _ operand => operand.assigned
  | .binary left _ right => left.assigned ++ right.assigned
  | .logical left _ right => left.assigned ++ right.assigned
  | .grouping inner => inner.assigned
  | .var _ => []
  | .assign name value => name.lexeme :: value.assigned

namespace Stmt

/-- the names that a statement declares outside of its blocks -/
def declared : Stmt → List String
  | .declare name _ => [name.lexeme]
  | .branch _ yes no => yes.declared ++ no.declared
  | _ => []

mutual

/-- the names that are assigned in a statement, also in its blocks -/
def assigned : Stmt → List String
  | .expression expr => expr.assigned
  | .print expr => expr.assigned
  | .declare _ none => []
  | .declare _ (some expr) => expr.assigned
  | .assign name expr => name.lexeme :: expr.assigned
  | .block body => assignedAll body
  | .branch condition yes no => condition.assigned ++ (yes.assigned ++ no.assigned)
  | .skip => []

def assignedAll : List Stmt → List String
  | [] => []
  | s :: rest => s.assigned ++ assignedAll rest

end

end Stmt

/-! ## Changes of a stack -/

namespace ScopeStack

/-- the value that scope `i` itself has for a name -/
def valueAt (scopes : ScopeStack) (i : Nat) (name : String) : Option Value :=
  scopes[i]?.bind fun names => names.lookup name

theorem valueAt_tail (scopes : ScopeStack) (i : Nat) (name : String) :
    valueAt scopes.tail i name = scopes.valueAt (i + 1) name := by
  rw [valueAt, valueAt, List.getElem?_tail]

/-- no more has changed than declaring and assigning the names can change -/
structure Confined (declared assigned : List String) (before after : ScopeStack) : Prop where
  length : after.length = before.length
  kept : ∀ {i name}, before.valueAt i name ≠ none → after.valueAt i name ≠ none
  added : ∀ {i name}, after.valueAt i name ≠ none → before.valueAt i name = none → i = 0 ∧ name ∈ declared
  changed : ∀ {i name}, after.valueAt i name ≠ before.valueAt i name →
    (name ∈ assigned ∧ ∀ j < i, before.valueAt j name = none) ∨ (i = 0 ∧ name ∈ declared)

namespace Confined

variable {declared assigned declared' assigned' : List String} {before middle after : ScopeStack}

theorem refl (scopes : ScopeStack) : Confined declared assigned scopes scopes where
  length := rfl
  kept h := h
  added h h' := absurd h' h
  changed h := absurd rfl h

theorem trans (h : Confined declared assigned before middle) (h' : Confined declared assigned middle after) :
    Confined declared assigned before after where
  length := h'.length.trans h.length
  kept hbefore := h'.kept (h.kept hbefore)
  added := by
    intro i name hafter hbefore
    by_cases hmiddle : middle.valueAt i name = none
    · exact h'.added hafter hmiddle
    · exact h.added hmiddle hbefore
  changed := by
    intro i name hchanged
    by_cases hfirst : middle.valueAt i name = before.valueAt i name
    · rw [← hfirst] at hchanged
      rcases h'.changed hchanged with ⟨hassigned, hfree⟩ | hdeclared
      -- a name that no scope further in has now was in none of them before
      · exact .inl ⟨hassigned, fun j hj => not_not.1 fun hbound => h.kept hbound (hfree j hj)⟩
      · exact .inr hdeclared
    · exact h.changed hfirst

theorem mono (h : Confined declared assigned before after) (hdeclared : declared ⊆ declared')
    (hassigned : assigned ⊆ assigned') : Confined declared' assigned' before after where
  length := h.length
  kept := h.kept
  added hafter hbefore := (h.added hafter hbefore).imp_right (hdeclared ·)
  changed hchanged := (h.changed hchanged).imp (.imp_left (hassigned ·)) (.imp_right (hdeclared ·))

/-- a change further out, of names that the innermost scope does not have -/
theorem cons {names : Names} (h : Confined [] assigned before after)
    (hfree : ∀ name ∈ assigned, names.lookup name = none) :
    Confined [] assigned (names :: before) (names :: after) where
  length := by simp [h.length]
  kept := by
    intro i name hbefore
    cases i with
    | zero => exact hbefore
    | succ i => exact h.kept (i := i) hbefore
  added := by
    intro i name hafter hbefore
    cases i with
    | zero => exact absurd hbefore hafter
    | succ i => exact absurd (h.added (i := i) hafter hbefore).2 List.not_mem_nil
  changed := by
    intro i name hchanged
    cases i with
    | zero => exact absurd rfl hchanged
    | succ i =>
      rcases h.changed (i := i) hchanged with ⟨hassigned, hinner⟩ | ⟨-, hdeclared⟩
      · refine .inl ⟨hassigned, fun j hj => ?_⟩
        cases j with
        | zero => exact hfree name hassigned
        | succ j => exact hinner j (Nat.lt_of_succ_lt_succ hj)
      · exact absurd hdeclared List.not_mem_nil

/-- a change of one name in the innermost scope -/
theorem insert (names : Names) (outer : ScopeStack) (name : String) (value : Value)
    (hdeclared : names.lookup name = none → name ∈ declared) (hallowed : name ∈ assigned ∨ name ∈ declared) :
    Confined declared assigned (names :: outer) (names.insert name value :: outer) := by
  have hhere : valueAt (names.insert name value :: outer) 0 name = some value := Finmap.lookup_insert names
  have helsewhere {i : Nat} {other : String} (h : ¬ (i = 0 ∧ other = name)) :
      valueAt (names.insert name value :: outer) i other = valueAt (names :: outer) i other := by
    cases i with
    | zero => exact Finmap.lookup_insert_of_ne names fun hname => h ⟨rfl, hname⟩
    | succ i => rfl
  refine ⟨rfl, ?_, ?_, ?_⟩
  · intro i other hbefore
    by_cases h : i = 0 ∧ other = name
    · rcases h with ⟨rfl, rfl⟩
      simp [hhere]
    · rwa [helsewhere h]
  · intro i other hafter hbefore
    by_cases h : i = 0 ∧ other = name
    · rcases h with ⟨rfl, rfl⟩
      exact ⟨rfl, hdeclared hbefore⟩
    · rw [helsewhere h] at hafter
      exact absurd hbefore hafter
  · intro i other hchanged
    by_cases h : i = 0 ∧ other = name
    · rcases h with ⟨rfl, rfl⟩
      exact hallowed.imp (fun hassigned => ⟨hassigned, nofun⟩) (fun hdeclared => ⟨rfl, hdeclared⟩)
    · exact absurd (helsewhere h) hchanged

/-- what a block has bound in its own scope is gone with it, whatever was declared there -/
theorem tail (h : Confined declared assigned (∅ :: before) after) : Confined [] assigned before after.tail where
  length := by simp [h.length]
  kept := by
    intro i name hbefore
    rw [valueAt_tail]
    exact h.kept (i := i + 1) hbefore
  added := by
    intro i name hafter hbefore
    rw [valueAt_tail] at hafter
    exact absurd (h.added hafter hbefore).1 (Nat.succ_ne_zero i)
  changed := by
    intro i name hchanged
    rw [valueAt_tail] at hchanged
    rcases h.changed (i := i + 1) hchanged with ⟨hassigned, hfree⟩ | ⟨hinnermost, -⟩
    · exact .inl ⟨hassigned, fun j hj => hfree (j + 1) (Nat.succ_lt_succ hj)⟩
    · exact absurd hinnermost (Nat.succ_ne_zero i)

end Confined

/-- an assignment changes its name where it is seen first -/
theorem confined_of_assign? {name : String} {value : Value} {before after : ScopeStack}
    (h : before.assign? name value = some after) : Confined [] [name] before after := by
  induction before generalizing after with
  | nil => cases h
  | cons names outer ih =>
    rw [assign?] at h
    split_ifs at h with hbound
    · cases h
      refine .insert names outer name value ?_ (.inl List.mem_cons_self)
      intro hnone
      exact absurd hbound (Finmap.lookup_eq_none.1 hnone)
    · obtain ⟨outer', houter, rfl⟩ := Option.map_eq_some_iff.1 h
      refine (ih houter).cons ?_
      intro other hother
      rw [List.mem_singleton.1 hother]
      exact Finmap.lookup_eq_none.2 hbound

/-- a declaration changes its name in the innermost scope -/
theorem confined_define (name : String) (value : Value) (scopes : ScopeStack) :
    Confined [name] [] scopes (scopes.define name value) := by
  cases scopes with
  | nil => exact .refl []
  | cons names outer => exact .insert names outer name value (fun _ => List.mem_cons_self) (.inr List.mem_cons_self)

end ScopeStack

/-! ## Computations -/

section Touches

variable {ε σ α β : Type} {see : σ → ScopeStack} {declared assigned declared' assigned' : List String}

/-- whichever way the computation ends, no more has changed than declaring and assigning the names can change -/
def Touches (see : σ → ScopeStack) (declared assigned : List String) (x : EStateM ε σ α) : Prop :=
  ∀ s, (see s).Confined declared assigned (see (x s).state)

theorem touches_of_unchanged {x : EStateM ε σ α} (h : ∀ s, see (x s).state = see s) :
    Touches see declared assigned x := by
  intro s
  rw [h s]
  exact .refl _

theorem touches_pure (a : α) : Touches see declared assigned (pure a : EStateM ε σ α) :=
  touches_of_unchanged fun _ => rfl

theorem Touches.mono {x : EStateM ε σ α} (h : Touches see declared assigned x) (hdeclared : declared ⊆ declared')
    (hassigned : assigned ⊆ assigned') : Touches see declared' assigned' x :=
  fun s => (h s).mono hdeclared hassigned

theorem Touches.bind {x : EStateM ε σ α} {f : α → EStateM ε σ β} (hx : Touches see declared assigned x)
    (hf : ∀ a, Touches see declared assigned (f a)) : Touches see declared assigned (x >>= f) := by
  intro s
  have hfirst := hx s
  rw [EStateM.bind_apply]
  cases h : x s with
  | ok a t =>
    rw [h] at hfirst
    exact hfirst.trans (hf a t)
  | error e t =>
    rw [h] at hfirst
    exact hfirst

end Touches

/-- evaluation changes the names that are assigned, and binds none -/
theorem Expr.evaluateIn_touches (e : Expr) : Touches id [] e.assigned e.evaluateIn := by
  have answer_touches {α : Type} {names : List String} (r : Except EvalError α) :
      Touches (σ := ScopeStack) id [] names (ofExcept r : EStateM EvalError ScopeStack α) :=
    touches_of_unchanged fun s => by cases r <;> rfl
  induction e with
  | literal value => exact touches_pure value
  | grouping inner ih => exact ih
  | unary operator operand ih => exact ih.bind fun v => answer_touches _
  | binary left operator right ihl ihr =>
    refine (ihl.mono (List.Subset.refl _) (List.subset_append_left _ _)).bind fun a => ?_
    exact (ihr.mono (List.Subset.refl _) (List.subset_append_right _ _)).bind fun b => answer_touches _
  | logical left operator right ihl ihr =>
    refine (ihl.mono (List.Subset.refl _) (List.subset_append_left _ _)).bind fun a => ?_
    split_ifs
    · exact touches_pure a
    · exact ihr.mono (List.Subset.refl _) (List.subset_append_right _ _)
  | var name =>
    refine touches_of_unchanged fun scopes => ?_
    rw [evaluateIn, ScopeStack.lookup]
    cases scopes.find? name.lexeme <;> rfl
  | assign name value ih =>
    have hassign (v : Value) : Touches id [] [name.lexeme] (ScopeStack.assign name.lexeme v) := by
      intro scopes
      simp only [ScopeStack.assign, id]
      cases h : scopes.assign? name.lexeme v with
      | none => exact .refl scopes
      | some after => exact ScopeStack.confined_of_assign? h
    refine (ih.mono (List.Subset.refl _) (List.subset_cons_self _ _)).bind fun v => ?_
    refine ((hassign v).mono (List.Subset.refl _) ?_).bind fun _ => touches_pure v
    exact List.cons_subset_cons _ (List.nil_subset _)

namespace Stacked

theorem value_touches (expr : Expr) : Touches scopes [] expr.assigned (value expr) := by
  intro s
  have hexpr := expr.evaluateIn_touches s.scopes
  rw [value]
  cases h : expr.evaluateIn s.scopes <;> simpa [h, EStateM.Result.state] using hexpr

theorem writeLine_touches (text : String) {declared assigned : List String} :
    Touches scopes declared assigned ((writeLine text).adaptExcept Stop.io) := by
  refine touches_of_unchanged fun s => ?_
  simp only [EStateM.adaptExcept_apply, writeLine]
  split_ifs <;> rfl

theorem define_touches (name : String) (v : Value) : Touches scopes [name] [] (define name v) :=
  fun s => s.scopes.confined_define name v

/-- a block changes nothing but what assignments in it can change -/
theorem inNewScope_touches {body : EStateM Stop Stacked Unit} {declared assigned : List String}
    (h : Touches scopes declared assigned body) : Touches scopes [] assigned (inNewScope body) := by
  intro s
  rw [inNewScope, EStateM.Result.state_mapState]
  exact (h { s with scopes := ∅ :: s.scopes }).tail

end Stacked

namespace Stmt

open Stacked

mutual

/-- execution changes the names that are assigned, and binds those that are declared outside of blocks -/
theorem executeIn_touches : ∀ s : Stmt, Touches scopes s.declared s.assigned s.executeIn
  | .expression expr => (value_touches expr).bind fun _ => touches_pure _
  | .print expr => (value_touches expr).bind fun v => writeLine_touches v.render
  | .declare name none => define_touches name.lexeme .nil
  | .declare name (some expr) =>
    ((value_touches expr).mono (List.nil_subset _) (List.Subset.refl _)).bind fun v =>
      (define_touches name.lexeme v).mono (List.Subset.refl _) (List.nil_subset _)
  | .assign name expr => (value_touches (.assign name expr)).bind fun _ => touches_pure _
  | .block body => inNewScope_touches (executeAllIn_touches body)
  | .branch condition yes no => by
    refine ((value_touches condition).mono (List.nil_subset _) (List.subset_append_left _ _)).bind fun v => ?_
    split_ifs
    · refine (executeIn_touches yes).mono (List.subset_append_left _ _) ?_
      exact List.subset_append_of_subset_right _ (List.subset_append_left _ _)
    · refine (executeIn_touches no).mono (List.subset_append_right _ _) ?_
      exact List.subset_append_of_subset_right _ (List.subset_append_right _ _)
  | .skip => touches_pure ()

theorem executeAllIn_touches : ∀ body : List Stmt,
    Touches scopes (body.flatMap declared) (assignedAll body) (executeAllIn body)
  | [] => touches_pure ()
  | s :: rest => by
    refine ((executeIn_touches s).mono ?_ (List.subset_append_left _ _)).bind fun _ => ?_
    · exact List.subset_append_left _ _
    · exact (executeAllIn_touches rest).mono (List.subset_append_right _ _) (List.subset_append_right _ _)

end

end Stmt

/-! ## Frames -/

namespace Frames

/-- a scope of a chain has the values of the frame in its place -/
theorem valueAt_chain {s : Frames} {c i j : Nat} (h : (s.path c)[i]? = some j) (name : String) :
    (s.chain c).valueAt i name = (s.namesAt j).lookup name := by
  rw [chain_eq_map, ScopeStack.valueAt, List.getElem?_map, h]
  rfl

theorem path_zero {s : Frames} {c : Nat} (h : c < s.all.size) : (s.path c)[0]? = some c := by
  rw [path_eq, Array.getElem?_eq_getElem h]
  rfl

end Frames

namespace Stmt

/-- over shared frames as over a stack of scopes -/
theorem execute_confined (stmt : Stmt) {s : Session} (hcurrent : s.scope.current < s.scope.frames.all.size) :
    s.scope.stack.Confined stmt.declared stmt.assigned (stmt.execute s).state.scope.stack := by
  have hrefines : (Session.view 0).Refines stmt.execute stmt.executeIn := execute_refines stmt
  have hseen := congrArg EStateM.Result.state (hrefines.seen s ⟨hcurrent, Nat.zero_le _⟩)
  rw [EStateM.Result.state_mapState] at hseen
  have htouches := stmt.executeIn_touches ((Session.view 0).see s)
  rwa [← hseen] at htouches

theorem execute_later (stmt : Stmt) (s : Session) : s.Later (stmt.execute s).state :=
  (execute_refines stmt : (Session.view 0).Refines _ _).later s

/-- the frames around a statement stay in their places -/
theorem path_execute (stmt : Stmt) {s : Session} (hcurrent : s.scope.current < s.scope.frames.all.size) :
    (stmt.execute s).state.scope.frames.path s.scope.current = s.scope.frames.path s.scope.current :=
  Frames.path_of_grows (stmt.execute_later s).scope.frames hcurrent

/-- what may become of a name in the frame at place `i` of the chain -/
theorem execute_confined_at (stmt : Stmt) {s : Session} (hcurrent : s.scope.current < s.scope.frames.all.size)
    {i j : Nat} (hj : (s.scope.frames.path s.scope.current)[i]? = some j) (name : String) :
    let before := s.scope.frames.namesAt
    let after := (stmt.execute s).state.scope.frames.namesAt
    (name ∈ before j → name ∈ after j) ∧
    (name ∈ after j → name ∉ before j → i = 0 ∧ name ∈ stmt.declared) ∧
    ((after j).lookup name ≠ (before j).lookup name →
      (name ∈ stmt.assigned ∧ ∀ k ∈ (s.scope.frames.path s.scope.current).take i, name ∉ before k) ∨
      (i = 0 ∧ name ∈ stmt.declared)) := by
  intro before after
  have hconfined := stmt.execute_confined hcurrent
  have hpath := stmt.path_execute hcurrent
  have hbefore (k m : Nat) (hm : (s.scope.frames.path s.scope.current)[k]? = some m) :
      s.scope.stack.valueAt k name = (before m).lookup name := Frames.valueAt_chain hm name
  have hafter : (stmt.execute s).state.scope.stack.valueAt i name = (after j).lookup name := by
    rw [Scope.stack, (stmt.execute_later s).scope.current]
    exact Frames.valueAt_chain (hpath ▸ hj) name
  refine ⟨fun h => ?_, fun h h' => ?_, fun h => ?_⟩
  · rw [← Finmap.lookup_eq_none.not_left, ← hbefore i j hj] at h
    rw [← Finmap.lookup_eq_none.not_left, ← hafter]
    exact hconfined.kept h
  · rw [← Finmap.lookup_eq_none.not_left, ← hafter] at h
    rw [← Finmap.lookup_eq_none, ← hbefore i j hj] at h'
    exact hconfined.added h h'
  · rw [← hafter, ← hbefore i j hj] at h
    refine (hconfined.changed h).imp_left (.imp_right fun hfree k hk => ?_)
    obtain ⟨m, hm, hplace⟩ := List.mem_take_iff_getElem.1 hk
    rw [← Finmap.lookup_eq_none, ← hbefore m k (List.getElem?_eq_some_iff.2 ⟨_, hplace⟩)]
    exact hfree m (by omega)

/-- **Statements keep to their scope.** Let any statement run from any frame, with any frames around it, and end in any
way. The frame is current again, and the same frames lie around it in the same order. Those further out bind the names
they bound before. The frame itself has lost none, and every name it has got is declared in the statement outside of its
blocks. -/
theorem execute_keeps_frames (stmt : Stmt) (s : Session) (hcurrent : s.scope.current < s.scope.frames.all.size) :
    let path := s.scope.frames.path s.scope.current
    let before := s.scope.frames.namesAt
    let scope := (stmt.execute s).state.scope
    let after := scope.frames.namesAt
    scope.current = s.scope.current ∧ scope.frames.path s.scope.current = path ∧
      (∀ j ∈ path.tail, ∀ name, name ∈ after j ↔ name ∈ before j) ∧
      (∀ name ∈ before s.scope.current, name ∈ after s.scope.current) ∧
      ∀ name ∈ after s.scope.current, name ∉ before s.scope.current → name ∈ stmt.declared := by
  intro path before scope after
  have hhere : path[0]? = some s.scope.current := Frames.path_zero hcurrent
  refine ⟨(stmt.execute_later s).scope.current, stmt.path_execute hcurrent, ?_, ?_, ?_⟩
  · intro j hj name
    obtain ⟨i, hi⟩ := List.mem_iff_getElem?.1 hj
    rw [List.getElem?_tail] at hi
    obtain ⟨hkept, hadded, -⟩ := stmt.execute_confined_at hcurrent hi name
    refine ⟨fun hafter => ?_, hkept⟩
    by_contra hbefore
    exact Nat.succ_ne_zero i (hadded hafter hbefore).1
  · intro name hbefore
    exact (stmt.execute_confined_at hcurrent hhere name).1 hbefore
  · intro name hafter hbefore
    exact ((stmt.execute_confined_at hcurrent hhere name).2.1 hafter hbefore).2

/-- a conditional that assigns in its condition, declares in one branch, and declares in a block in the other -/
def mixedBranch : Stmt :=
  .branch (.assign ⟨.identifier, "a", 1⟩ (.literal (.bool true))) (.declare ⟨.identifier, "b", 1⟩ none)
    (.block [.declare ⟨.identifier, "c", 1⟩ none])

theorem path_nestedSession : nestedSession.scope.frames.path nestedSession.scope.current = [1, 0] := by cbv

theorem execute_keeps_frames_mixedBranch : nestedSession.scope.current < nestedSession.scope.frames.all.size ∧
    let scope := (mixedBranch.execute nestedSession).state.scope
    scope.current = 1 ∧ scope.frames.path 1 = [1, 0] ∧
      (∀ name, name ∈ scope.frames.namesAt 0 ↔ name ∈ nestedSession.scope.frames.namesAt 0) ∧
      "b" ∈ scope.frames.namesAt 1 ∧ "b" ∈ mixedBranch.declared := by
  have hcurrent : nestedSession.scope.current < nestedSession.scope.frames.all.size := by decide
  obtain ⟨hsame, hpath, houter, -, hadded⟩ := execute_keeps_frames mixedBranch nestedSession hcurrent
  rw [path_nestedSession] at hpath houter
  have hbound : "b" ∈ (mixedBranch.execute nestedSession).state.scope.frames.namesAt 1 := by decide +kernel
  refine ⟨hcurrent, hsame, hpath, houter 0 List.mem_cons_self, hbound, hadded "b" hbound ?_⟩
  decide

/-- **Only what is visible changes.** Let any statement run from any frame, with any frames around it, and end in any
way. If a name has another value in one of these frames than before, or has one now, then the statement assigns the name
and no frame further in bound it before, or the frame is the innermost and the statement declares the name outside of
its blocks. So what a frame further in hides keeps its value. -/
theorem execute_changes_visible (stmt : Stmt) (s : Session) (hcurrent : s.scope.current < s.scope.frames.all.size) :
    let path := s.scope.frames.path s.scope.current
    let before := s.scope.frames.namesAt
    let after := (stmt.execute s).state.scope.frames.namesAt
    ∀ i j name, path[i]? = some j →
      ((after j).lookup name ≠ (before j).lookup name →
        (name ∈ stmt.assigned ∧ ∀ k ∈ path.take i, name ∉ before k) ∨ (i = 0 ∧ name ∈ stmt.declared)) ∧
      ((∃ k ∈ path.take i, name ∈ before k) → (after j).lookup name = (before j).lookup name) := by
  intro path before after i j name hj
  obtain ⟨-, -, hchanged⟩ := stmt.execute_confined_at hcurrent hj name
  refine ⟨hchanged, ?_⟩
  rintro ⟨k, hk, hbound⟩
  by_contra hdiffers
  rcases hchanged hdiffers with ⟨-, hfree⟩ | ⟨rfl, -⟩
  · exact hfree k hk hbound
  · cases hk

theorem execute_changes_visible_mixedBranch : nestedSession.scope.current < nestedSession.scope.frames.all.size ∧
    let before := nestedSession.scope.frames.namesAt
    let after := (mixedBranch.execute nestedSession).state.scope.frames.namesAt
    (after 0).lookup "a" ≠ (before 0).lookup "a" ∧ "a" ∈ mixedBranch.assigned ∧ "a" ∉ before 1 := by
  have hcurrent : nestedSession.scope.current < nestedSession.scope.frames.all.size := by decide
  have hplace : (nestedSession.scope.frames.path nestedSession.scope.current)[1]? = some 0 := by
    rw [path_nestedSession]
    rfl
  have hdiffers : ((mixedBranch.execute nestedSession).state.scope.frames.namesAt 0).lookup "a" ≠
      (nestedSession.scope.frames.namesAt 0).lookup "a" := by decide +kernel
  obtain ⟨hchanged, -⟩ := execute_changes_visible mixedBranch nestedSession hcurrent 1 0 "a" hplace
  rcases hchanged hdiffers with ⟨hassigned, hfree⟩ | ⟨hinnermost, -⟩
  · rw [path_nestedSession] at hfree
    exact ⟨hcurrent, hdiffers, hassigned, hfree 1 List.mem_cons_self⟩
  · cases hinnermost

end Stmt

end Scriptlet
