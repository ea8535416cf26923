/-
Names that are declared before they are used. A walk through the text of a program, in order, can tell whether every
name in it, read or assigned, is declared in a scope that is open there: an initial value is looked at before its name
is added to the innermost scope, the scope of a block is dropped at its end, and both branches of a conditional and both
operands of `and` and `or` are looked at, whichever will be evaluated. A program that passes never stops at a name that
is not bound.

The walk adds what is declared in a branch to the scope around it, although at most one branch runs. That is sound
because of what can be read from a text: nothing but a block can declare a name behind `if (..)` or `else`
(`Stmt.declared_of_canonical`).

`OpenScopes.Covers` ties the open scopes to the scopes of a run: what is open is bound. `Resolves` says of a computation
that it keeps this tie and does not stop at a name.

- `Stmt.executeAllIn_resolves`: programs that pass.
- `Session.run_of_declared`: sources in a session.
-/
import Scriptlet.Proofs.Recovery
import Scriptlet.Proofs.ScopeDiscipline
import Scriptlet.Proofs.Transcript

namespace Scriptlet

/-! ## The check -/

/-- the names declared in each open scope, innermost first -/
abbrev OpenScopes := List (Finset String)

namespace OpenScopes

def visible (scopes : OpenScopes) (name : String) : Bool := scopes.any fun names => name ∈ names

def declare (name : String) : OpenScopes → OpenScopes
  | [] => []
  | names :: outer => insert name names :: outer

def declareAll (scopes : OpenScopes) (names : List String) : OpenScopes :=
  names.foldl (fun scopes name => scopes.declare name) scopes

theorem tail_declareAll (names : List String) (scopes : OpenScopes) :
    (scopes.declareAll names).tail = scopes.tail := by
  induction names generalizing scopes with
  | nil => rfl
  | cons name names ih =>
    rw [declareAll, List.foldl_cons, ← declareAll, ih]
    cases scopes <;> rfl

end OpenScopes

/-- is every name in the expression, read or assigned, visible -/
def Expr.declaredIn (scopes : OpenScopes) : Expr → Bool
  | .literal _ => true
  | .unary _ operand => operand.declaredIn scopes
  | .binary left _ right => left.declaredIn scopes && right.declaredIn scopes
  | .logical left _ right => left.declaredIn scopes && right.declaredIn scopes
  | .grouping inner => inner.declaredIn scopes
  | .var name => scopes.visible name.lexeme
  | .assign name value => value.declaredIn scopes && scopes.visible name.lexeme

namespace Stmt

mutual

/-- the open scopes behind a statement, if every name in it is visible where it is used -/
def check : Stmt → OpenScopes → Option OpenScopes
  | .expression expr, scopes => if expr.declaredIn scopes then some scopes else none
  | .print expr, scopes => if expr.declaredIn scopes then some scopes else none
  | .declare name none, scopes => some (scopes.declare name.lexeme)
  | .declare name (some expr), scopes => if expr.declaredIn scopes then some (scopes.declare name.lexeme) else none
  | .assign name expr, scopes => if (Expr.assign name expr).declaredIn scopes then some scopes else none
  | .block body, scopes => (checkAll body (∅ :: scopes)).map List.tail
  | .branch condition yes no, scopes => if condition.declaredIn scopes then (yes.check scopes).bind no.check else none
  | .skip, scopes => some scopes

def checkAll : List Stmt → OpenScopes → Option OpenScopes
  | [], scopes => some scopes
  | s :: rest, scopes => (s.check scopes).bind (checkAll rest)

end

mutual

/-- the check adds what the statement declares, and nothing else -/
theorem eq_declareAll_of_check : ∀ {s : Stmt} {scopes after : OpenScopes}, s.check scopes = some after →
    after = scopes.declareAll s.declared
  | .expression _, _, _, h | .print _, _, _, h | .declare _ none, _, _, h | .declare _ (some _), _, _, h
  | .assign _ _, _, _, h | .skip, _, _, h => by
    simp only [check, Option.ite_none_right_eq_some, Option.some.injEq] at h
    simp [← h, OpenScopes.declareAll, declared]
  | .block body, scopes, after, h => by
    obtain ⟨inner, hinner, rfl⟩ := Option.map_eq_some_iff.1 h
    rw [eq_declareAll_of_checkAll hinner, OpenScopes.tail_declareAll]
    rfl
  | .branch condition yes no, scopes, after, h => by
    simp only [check, Option.ite_none_right_eq_some] at h
    obtain ⟨middle, hyes, hno⟩ := Option.bind_eq_some_iff.1 h.2
    rw [eq_declareAll_of_check hno, eq_declareAll_of_check hyes]
    exact List.foldl_append.symm

theorem eq_declareAll_of_checkAll :
    ∀ {body : List Stmt} {scopes after : OpenScopes}, checkAll body scopes = some after →
    after = scopes.declareAll (body.flatMap declared)
  | [], _, _, h => (Option.some.inj h).symm
  | s :: rest, scopes, after, h => by
    obtain ⟨middle, hs, hrest⟩ := Option.bind_eq_some_iff.1 h
    rw [eq_declareAll_of_checkAll hrest, eq_declareAll_of_check hs]
    exact List.foldl_append.symm

end

theorem check_of_undeclared {s : Stmt} {scopes after : OpenScopes} (hs : s.declared = [])
    (h : s.check scopes = some after) :
    after = scopes := by
  rw [eq_declareAll_of_check h, hs]
  rfl

theorem branches_of_canonical {condition : Expr} {yes no : Stmt} (h : (branch condition yes no).canonical = true) :
    (yes.canonical = true ∧ yes.isDeclaration = false) ∧
    (no = .skip ∨ no.canonical = true ∧ no.isDeclaration = false) := by
  simp only [canonical, Bool.and_eq_true, Bool.or_eq_true, Bool.not_eq_true'] at h
  obtain ⟨⟨-, hyes⟩, hno⟩ := h
  refine ⟨hyes, hno.imp (fun hskip => ?_) And.left⟩
  cases no with
  | skip => rfl
  | _ => cases hskip

/-- what is read and is not a declaration declares nothing outside of its blocks -/
theorem declared_of_canonical : ∀ {s : Stmt}, s.canonical = true → s.isDeclaration = false → s.declared = []
  | .expression _, _, _ | .print _, _, _ | .assign _ _, _, _ | .block _, _, _ | .skip, _, _ => rfl
  | .branch condition yes no, h, _ => by
    obtain ⟨⟨hyes, hyes'⟩, hno⟩ := branches_of_canonical h
    rw [declared, declared_of_canonical hyes hyes', List.nil_append]
    rcases hno with rfl | ⟨hno, hno'⟩
    · rfl
    · exact declared_of_canonical hno hno'

end Stmt

/-! ## Errors -/

def EvalError.IsUndefined (e : EvalError) : Prop := ∃ name, e = .undefinedVariable name

def Stop.IsUndefined (stop : Stop) : Prop := ∃ e : EvalError, e.IsUndefined ∧ stop = .evaluation e

namespace Value

theorem operandsError_defined (operator : String) (left right : Value) :
    ¬ (operandsError operator left right).IsUndefined := by
  rintro ⟨name, h⟩
  unfold operandsError at h
  split_ifs at h

theorem onNumbers_defined {operator : String} {f : Float → Float → Value} {left right : Value} {e : EvalError}
    (h : onNumbers operator f left right = .error e) : ¬ e.IsUndefined := by
  unfold onNumbers at h
  split at h
  · cases h
  · cases h
    exact operandsError_defined operator left right

theorem plus_defined {left right : Value} {e : EvalError} (h : left.plus right = .error e) : ¬ e.IsUndefined := by
  unfold plus at h
  split at h
  · cases h
  · cases h
  · cases h
    exact operandsError_defined "+" left right

end Value

/-- operators complain about operands, not about names -/
theorem applyUnary_defined {operator : Token} {operand : Value} {e : EvalError}
    (h : applyUnary operator operand = .error e) :
    ¬ e.IsUndefined := by
  rintro ⟨name, rfl⟩
  unfold applyUnary at h
  split at h
  · cases h
  · cases operand <;> cases h

theorem applyBinary_defined {operator : Token} {left right : Value} {e : EvalError}
    (h : applyBinary left operator right = .error e) : ¬ e.IsUndefined := by
  unfold applyBinary at h
  split at h
  · exact Value.plus_defined h
  all_goals first
    | exact Value.onNumbers_defined h
    | cases h

/-! ## Open scopes and the scopes of a run -/

/-- what can be read can be assigned -/
theorem ScopeStack.assign?_of_find? {scopes : ScopeStack} {name : String} {old : Value}
    (h : scopes.find? name = some old) (value : Value) : ∃ after, scopes.assign? name value = some after := by
  induction scopes with
  | nil => cases h
  | cons names outer ih =>
    rw [assign?]
    split_ifs with hbound
    · exact ⟨_, rfl⟩
    · rw [find?, Finmap.lookup_eq_none.2 hbound, Option.none_or] at h
      obtain ⟨after, hafter⟩ := ih h
      exact ⟨_, by rw [hafter, Option.map_some]⟩

namespace OpenScopes

/-- every name in an open scope is bound in the scope in its place -/
def Covers (scopes : OpenScopes) (bound : ScopeStack) : Prop :=
  List.Forall₂ (fun names values => ∀ name ∈ names, name ∈ values) scopes bound

variable {scopes : OpenScopes} {bound : ScopeStack}

/-- a visible name has a value -/
theorem Covers.find? (h : scopes.Covers bound) {name : String} (hname : scopes.visible name = true) :
    ∃ value, bound.find? name = some value := by
  induction h with
  | nil => cases hname
  | @cons names values outer bound hinner _ ih =>
    rw [ScopeStack.find?]
    by_cases hbound : name ∈ values
    · obtain ⟨value, hvalue⟩ := Finmap.mem_iff.1 hbound
      exact ⟨value, by rw [hvalue, Option.some_or]⟩
    · simp only [visible, List.any_cons, Bool.or_eq_true, decide_eq_true_eq] at hname
      rw [Finmap.lookup_eq_none.2 hbound, Option.none_or]
      exact ih (hname.resolve_left fun hnames => hbound (hinner name hnames))

/-- no name is lost, whatever a computation changes -/
theorem Covers.confined (h : scopes.Covers bound) {declared assigned : List String} {after : ScopeStack}
    (hchange : bound.Confined declared assigned after) : scopes.Covers after := by
  rw [Covers, List.forall₂_iff_get] at h ⊢
  obtain ⟨hlength, hbound⟩ := h
  refine ⟨hlength.trans hchange.length.symm, fun i hi hi' name hname => ?_⟩
  have hbefore : bound.valueAt i name ≠ none := by
    rw [ScopeStack.valueAt, List.getElem?_eq_getElem (hlength ▸ hi)]
    exact Finmap.lookup_eq_none.not_left.2 (hbound i hi _ name hname)
  have hafter := hchange.kept hbefore
  rw [ScopeStack.valueAt, List.getElem?_eq_getElem hi'] at hafter
  exact Finmap.lookup_eq_none.not_left.1 hafter

theorem Covers.tail (h : scopes.Covers bound) : Covers scopes.tail bound.tail := by
  cases h with
  | nil => exact .nil
  | cons _ houter => exact houter

theorem Covers.declare (h : scopes.Covers bound) (name : String) (value : Value) :
    (scopes.declare name).Covers (bound.define name value) := by
  cases h with
  | nil => exact .nil
  | cons hinner houter =>
    refine .cons (fun other hother => ?_) houter
    rw [Finmap.mem_insert]
    exact (Finset.mem_insert.1 hother).imp_right (hinner other)

end OpenScopes

/-! ## Computations -/

section Resolves

variable {ε σ α β : Type} {see : σ → ScopeStack} {undefined : ε → Prop} {before middle after scopes : OpenScopes}

/-- from a state in which the open names are bound the computation leads to such a state again, or fails, but not at a
name -/
def Resolves (see : σ → ScopeStack) (undefined : ε → Prop) (before after : OpenScopes) (x : EStateM ε σ α) : Prop :=
  ∀ s, before.Covers (see s) →
    match x s with
    | .ok _ t => after.Covers (see t)
    | .error e _ => ¬ undefined e

theorem resolves_pure (a : α) : Resolves see undefined scopes scopes (pure a : EStateM ε σ α) := fun _ h => h

theorem Resolves.bind {x : EStateM ε σ α} {f : α → EStateM ε σ β} (hx : Resolves see undefined before middle x)
    (hf : ∀ a, Resolves see undefined middle after (f a)) : Resolves see undefined before after (x >>= f) := by
  intro s hs
  have hfirst := hx s hs
  rw [EStateM.bind_apply]
  cases h : x s with
  | ok a t =>
    rw [h] at hfirst
    exact hf a t hfirst
  | error e t =>
    rw [h] at hfirst
    exact hfirst

end Resolves

/-- an expression whose names are visible does not fail at a name -/
theorem Expr.evaluateIn_resolves {scopes : OpenScopes} {e : Expr} (h : e.declaredIn scopes = true) :
    Resolves id EvalError.IsUndefined scopes scopes e.evaluateIn := by
  have answer_resolves {r : Except EvalError Value} (hr : ∀ e, r = .error e → ¬ e.IsUndefined) :
      Resolves id EvalError.IsUndefined scopes scopes (ofExcept r : EStateM EvalError ScopeStack Value) := by
    intro bound hbound
    cases r with
    | ok value => exact hbound
    | error e => exact hr e rfl
  induction e with
  | literal value => exact resolves_pure value
  | grouping inner ih => exact ih h
  | unary operator operand ih => exact (ih h).bind fun v => answer_resolves fun e => applyUnary_defined
  | binary left operator right ihl ihr =>
    simp only [declaredIn, Bool.and_eq_true] at h
    exact (ihl h.1).bind fun a => (ihr h.2).bind fun b => answer_resolves fun e => applyBinary_defined
  | logical left operator right ihl ihr =>
    simp only [declaredIn, Bool.and_eq_true] at h
    refine (ihl h.1).bind fun a => ?_
    split_ifs
    · exact resolves_pure a
    · exact ihr h.2
  | var name =>
    intro bound (hbound : scopes.Covers bound)
    obtain ⟨value, hvalue⟩ := hbound.find? h
    simp only [evaluateIn, ScopeStack.lookup, hvalue]
    exact hbound
  | assign name value ih =>
    simp only [declaredIn, Bool.and_eq_true] at h
    refine (ih h.1).bind fun v => Resolves.bind ?_ fun _ => resolves_pure v
    intro bound (hbound : scopes.Covers bound)
    obtain ⟨old, hold⟩ := hbound.find? h.2
    obtain ⟨after, hafter⟩ := ScopeStack.assign?_of_find? hold v
    simp only [ScopeStack.assign, hafter]
    exact hbound.confined (ScopeStack.confined_of_assign? hafter)

namespace Stacked

variable {opened after : OpenScopes}

theorem value_resolves {expr : Expr} (h : expr.declaredIn opened = true) :
    Resolves scopes Stop.IsUndefined opened opened (value expr) := by
  intro s hs
  have hexpr := Expr.evaluateIn_resolves h s.scopes hs
  rw [value]
  cases hend : expr.evaluateIn s.scopes with
  | ok v t =>
    rw [hend] at hexpr
    exact hexpr
  | error e t =>
    rw [hend] at hexpr
    rintro ⟨_, hundefined, ⟨⟩⟩
    exact hexpr hundefined

theorem writeLine_resolves (text : String) :
    Resolves scopes Stop.IsUndefined opened opened ((writeLine text).adaptExcept Stop.io) := by
  intro s hs
  simp only [EStateM.adaptExcept_apply, writeLine]
  split_ifs
  · exact hs
  · rintro ⟨_, -, ⟨⟩⟩

theorem define_resolves (name : String) (v : Value) :
    Resolves scopes Stop.IsUndefined opened (opened.declare name) (define name v) :=
  fun _ hs => hs.declare name v

theorem inNewScope_resolves {body : EStateM Stop Stacked Unit}
    (h : Resolves scopes Stop.IsUndefined (∅ :: opened) after body) :
    Resolves scopes Stop.IsUndefined opened after.tail (inNewScope body) := by
  intro s hs
  have hbody := h { s with scopes := ∅ :: s.scopes } (.cons (by simp) hs)
  rw [inNewScope]
  cases hend : body { s with scopes := ∅ :: s.scopes } with
  | ok a t =>
    rw [hend] at hbody
    exact hbody.tail
  | error e t =>
    rw [hend] at hbody
    exact hbody

end Stacked

namespace Stmt

open Stacked

mutual

/-- a statement that passes the check does not stop at a name -/
theorem executeIn_resolves :
    ∀ {s : Stmt} {before after : OpenScopes}, s.canonical = true → s.check before = some after →
    Resolves scopes Stop.IsUndefined before after s.executeIn
  | .expression expr, before, after, _, h => by
    obtain ⟨hexpr, ⟨⟩⟩ := Option.ite_none_right_eq_some.1 h
    exact (value_resolves hexpr).bind fun _ => resolves_pure _
  | .print expr, before, after, _, h => by
    obtain ⟨hexpr, ⟨⟩⟩ := Option.ite_none_right_eq_some.1 h
    exact (value_resolves hexpr).bind fun v => writeLine_resolves v.render
  | .declare name none, before, after, _, h => by
    cases h
    exact define_resolves name.lexeme .nil
  | .declare name (some expr), before, after, _, h => by
    obtain ⟨hexpr, ⟨⟩⟩ := Option.ite_none_right_eq_some.1 h
    exact (value_resolves hexpr).bind fun v => define_resolves name.lexeme v
  | .block body, before, after, hcanonical, h => by
    obtain ⟨inner, hinner, rfl⟩ := Option.map_eq_some_iff.1 h
    exact inNewScope_resolves (executeAllIn_resolves hcanonical hinner)
  | .branch condition yes no, before, after, hcanonical, h => by
    obtain ⟨hcondition, hbranches⟩ := Option.ite_none_right_eq_some.1 h
    obtain ⟨middle, hyes, hno⟩ := Option.bind_eq_some_iff.1 hbranches
    obtain ⟨⟨hyes', hyes''⟩, hno'⟩ := branches_of_canonical hcanonical
    -- no branch declares anything, so that what is open behind both is what is open behind either
    cases check_of_undeclared (declared_of_canonical hyes' hyes'') hyes
    refine (value_resolves hcondition).bind fun v => ?_
    rcases hno' with rfl | ⟨hno', hno''⟩
    · cases hno
      split_ifs
      · exact executeIn_resolves hyes' hyes
      · exact resolves_pure ()
    · cases check_of_undeclared (declared_of_canonical hno' hno'') hno
      split_ifs
      · exact executeIn_resolves hyes' hyes
      · exact executeIn_resolves hno' hno

/-- statements that pass the check do not stop at a name -/
theorem executeAllIn_resolves : ∀ {body : List Stmt} {before after : OpenScopes}, canonicalAll body = true →
    checkAll body before = some after → Resolves scopes Stop.IsUndefined before after (executeAllIn body)
  | [], before, after, _, h => by
    cases h
    exact resolves_pure ()
  | s :: rest, before, after, hcanonical, h => by
    obtain ⟨middle, hs, hrest⟩ := Option.bind_eq_some_iff.1 h
    simp only [canonicalAll, Bool.and_eq_true] at hcanonical
    exact (executeIn_resolves hcanonical.1 hs).bind fun _ => executeAllIn_resolves hcanonical.2 hrest

end

end Stmt

/-! ## Sessions -/

theorem canonicalAll_of_compile {content : Bytes} {program : Program} (h : compile content = .ok program) :
    Stmt.canonicalAll program = true := by
  simp only [compile] at h
  split_ifs at h
  cases h
  exact Stmt.canonicalAll_iff.2 fun s hs => (Parsing.formed_of_mem_program hs).canonical

namespace Session

/-- an evaluation error that ends a source was met in running its program, and its message is written last -/
theorem executeAll_of_runtimeError {source : Source} {program : Program}
    (hcompile : compile source.content = .ok program)
    {s t : Session} (h : run source s = .ok .runtimeError t) : ∃ e u,
      Stmt.executeAll program s = .error (.evaluation e) u ∧ writeLine e.message u = .ok () t := by
  cases hbroken : source.broken with
  | true =>
    rw [run_of_broken hbroken] at h
    cases h
  | false =>
    rw [run_of_whole hbroken, hcompile] at h
    obtain ⟨⟨⟩, -⟩ | ⟨-, hstopped⟩ := perform_cases h
    exact hstopped

/-- the global frame covers its names -/
theorem AtGlobal.covers {s : Session} (h : s.AtGlobal) : OpenScopes.Covers [s.globals.keys] s.scope.stack := by
  rw [h.stack]
  exact .cons (fun name hname => Finmap.mem_keys.1 hname) .nil

/-- over the frames of a session as over a stack of scopes -/
theorem AtGlobal.executeAll_defined {s : Session} (h : s.AtGlobal) {program : Program} {after : OpenScopes}
    (hcanonical : Stmt.canonicalAll program = true) (hcheck : Stmt.checkAll program [s.globals.keys] = some after)
    (name : String) : (Stmt.executeAll program s).answer ≠ .error (.evaluation (.undefinedVariable name)) := by
  have hrefines : (view 0).Refines (Stmt.executeAll program) (Stmt.executeAllIn program) :=
    Stmt.executeAll_refines program
  have hresolves := Stmt.executeAllIn_resolves hcanonical hcheck ((view 0).see s) h.covers
  rw [← hrefines.seen s ⟨h.fit, Nat.zero_le _⟩] at hresolves
  intro hanswer
  cases hend : Stmt.executeAll program s with
  | ok _ t =>
    rw [hend] at hanswer
    cases hanswer
  | error stop t =>
    rw [hend] at hanswer hresolves
    cases hanswer
    exact hresolves ⟨_, ⟨name, rfl⟩, rfl⟩

/-- **Names that are declared before they are used are found.** Let a source be accepted, and let its program pass the
check with the names open that are bound in the global frame of a session, in which statements run before every call
(`Workbench.Reached.atGlobal`). Then the program does not stop at a name that is not bound, whatever the sink; and if
the source ends with an error, the message written for it is that of another error. -/
theorem run_of_declared {source : Source} {program : Program} (hcompile : compile source.content = .ok program)
    {s : Session} (hs : s.AtGlobal) (hcheck : (Stmt.checkAll program [s.globals.keys]).isSome = true) :
    (∀ name, (Stmt.executeAll program s).answer ≠ .error (.evaluation (.undefinedVariable name))) ∧
    ∀ t, run source s = .ok .runtimeError t → ∃ e u, Stmt.executeAll program s = .error (.evaluation e) u ∧
      writeLine e.message u = .ok () t ∧ ∀ name, e ≠ .undefinedVariable name := by
  obtain ⟨after, hafter⟩ := Option.isSome_iff_exists.1 hcheck
  have hdefined := hs.executeAll_defined (canonicalAll_of_compile hcompile) hafter
  refine ⟨hdefined, fun t ht => ?_⟩
  obtain ⟨e, u, hstop, hwrite⟩ := executeAll_of_runtimeError hcompile ht
  refine ⟨e, u, hstop, hwrite, ?_⟩
  rintro name rfl
  apply hdefined name
  rw [hstop]
  rfl

/-- one name is bound, to nothing -/
def boundSession : Session := ⟨⟨⟨#[⟨⟨[("b", .nil)]⟩, none⟩]⟩, 0⟩, .ofLimit none⟩

/-- every name in this text is declared where it is used, but nothing can be negated -/
def negatedText : Bytes := Utf8.encode "\x7b var a = b; if (a) a = b; else b = -a; \x7d"

def negatedProgram : Program :=
  let a : Token := ⟨.identifier, "a", 1⟩
  let b : Token := ⟨.identifier, "b", 1⟩
  [.block [.declare a (some (.var b)),
    .branch (.var a) (.expression (.assign a (.var b))) (.expression (.assign b (.unary ⟨.minus, "-", 1⟩ (.var a))))]]

theorem compile_negatedText : compile negatedText = .ok negatedProgram := by
  refine compile_of_lexing _ [⟨.leftBrace, "\x7b", 1⟩, ⟨.kwVar, "var", 1⟩, ⟨.identifier, "a", 1⟩, ⟨.equal, "=", 1⟩,
    ⟨.identifier, "b", 1⟩, ⟨.semicolon, ";", 1⟩, ⟨.kwIf, "if", 1⟩, ⟨.leftParen, "(", 1⟩, ⟨.identifier, "a", 1⟩,
    ⟨.rightParen, ")", 1⟩, ⟨.identifier, "a", 1⟩, ⟨.equal, "=", 1⟩, ⟨.identifier, "b", 1⟩, ⟨.semicolon, ";", 1⟩,
    ⟨.kwElse, "else", 1⟩, ⟨.identifier, "b", 1⟩, ⟨.equal, "=", 1⟩, ⟨.minus, "-", 1⟩, ⟨.identifier, "a", 1⟩,
    ⟨.semicolon, ";", 1⟩, ⟨.rightBrace, "\x7d", 1⟩] 1 (by cbv) (by decide) ?_ (by decide)
  repeat' first | exact .nil | refine .cons rfl ?_

theorem run_of_declared_negatedText : boundSession.AtGlobal ∧ compile negatedText = .ok negatedProgram ∧
    (Stmt.checkAll negatedProgram [boundSession.globals.keys]).isSome = true ∧
    (Stmt.executeAll negatedProgram boundSession).answer = .error (.evaluation (.invalidOperand "-" .nil)) ∧
    ∀ name, (Stmt.executeAll negatedProgram boundSession).answer ≠ .error (.evaluation (.undefinedVariable name)) := by
  have hglobal : boundSession.AtGlobal := ⟨rfl, _, rfl⟩
  have hcheck : (Stmt.checkAll negatedProgram [boundSession.globals.keys]).isSome = true := by decide
  have hcompile : compile (Source.ofBytes negatedText).content = .ok negatedProgram := compile_negatedText
  obtain ⟨hdefined, -⟩ := run_of_declared hcompile hglobal hcheck
  exact ⟨hglobal, hcompile, hcheck, by decide +kernel, hdefined⟩

end Session

end Scriptlet
