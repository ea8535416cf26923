/-
The count of open constructs. The machine of `Cursor` counts a construct in when it goes into it and out when it comes
back, and comes back on two ways: with what it has read, or with a complaint that is caught further out, perhaps by a
declaration that itself stands inside of other constructs. Either way the count is what it was.

`Restored` is what a call may do to the count, and `Balanced` says that steps do no more, from any cursor whatever:
nothing is known of the tokens, and nothing of what has been read before. That all rules are balanced is an induction on
the recursion of the machine itself, so it does not rest on what the rules read (`RuleCall.balanced`). That they end
without a crash does (`RuleCall.leads`).

- `Cursor.rules_balanced`: every call of every rule, and every round of the loops over declarations.
-/
import Scriptlet.Proofs.CursorReading

namespace Scriptlet

/-- a depth within bounds; where a declaration stands is no matter of depth -/
def Footprint.Within (low high : Nat) : Footprint → Prop
  | .place _ depth => low ≤ depth ∧ depth ≤ high
  | .declared _ _ => True

theorem Footprint.Within.mono {low high low' high' : Nat} {f : Footprint} (h : f.Within low high) (hlow : low' ≤ low)
    (hhigh : high ≤ high') : f.Within low' high' := by
  cases f with
  | place position depth => exact ⟨hlow.trans h.1, h.2.trans hhigh⟩
  | declared start stop => trivial

namespace Cursor

open Machine (standard)

/-- `c'` is `c` later on, with as many constructs open; in between there were never fewer, and never more than the
limit, unless there were before -/
structure Restored (limit : Nat) (c c' : Cursor) : Prop where
  depth : c'.depth = c.depth
  way : ∃ way, c'.trail = c.trail ++ way ∧ ∀ f ∈ way, f.Within c.depth (max c.depth limit)

/-- whenever the steps end, and whatever with -/
def Balanced (limit : Nat) {α : Type} (s : Steps α) : Prop :=
  ∀ c a c', (s.run c).run = some (.ok (a, c')) → Restored limit c c'

variable {limit : Nat} {α β : Type} {c c' c'' : Cursor}

/-! ## Steps in turn -/

theorem Restored.refl (c : Cursor) : Restored limit c c := ⟨rfl, [], by simp⟩

theorem Restored.trans (h : Restored limit c c') (h' : Restored limit c' c'') : Restored limit c c'' := by
  obtain ⟨way, htrail, hway⟩ := h.way
  obtain ⟨way', htrail', hway'⟩ := h'.way
  refine ⟨h'.depth.trans h.depth, way ++ way', by rw [htrail', htrail, List.append_assoc], ?_⟩
  rw [h.depth] at hway'
  exact List.forall_mem_append.2 ⟨hway, hway'⟩

/-- a cursor that has written nothing down -/
theorem Restored.of_same (hdepth : c'.depth = c.depth) (htrail : c'.trail = c.trail) : Restored limit c c' :=
  ⟨hdepth, [], by simp [htrail]⟩

theorem balanced_pure (a : α) : Balanced limit (pure a) := by
  rintro c _ _ ⟨⟩
  exact .refl c

theorem run_bind_eq {s : Steps α} {f : α → Steps β} {b : β} (h : ((s >>= f).run c).run = some (.ok (b, c''))) :
    ∃ a c', (s.run c).run = some (.ok (a, c')) ∧ ((f a).run c').run = some (.ok (b, c'')) := by
  rw [StateT.run_bind, ExceptT.run_bind] at h
  obtain ⟨result, hresult, hlater⟩ := Option.bind_eq_some_iff.1 h
  cases result with
  | error crash => cases hlater
  | ok ac => exact ⟨ac.1, ac.2, hresult, hlater⟩

theorem run_bind_of {s : Steps α} {f : α → Steps β} {a : α} {b : β} (h : (s.run c).run = some (.ok (a, c')))
    (hf : ((f a).run c').run = some (.ok (b, c''))) : ((s >>= f).run c).run = some (.ok (b, c'')) := by
  rw [StateT.run_bind, ExceptT.run_bind, h]
  exact hf

theorem Balanced.bind {s : Steps α} {f : α → Steps β} (h : Balanced limit s) (hf : ∀ a, Balanced limit (f a)) :
    Balanced limit (s >>= f) := by
  intro c b c'' hrun
  obtain ⟨a, c', hfirst, hlater⟩ := run_bind_eq hrun
  exact (h c a c' hfirst).trans (hf a c' b c'' hlater)

theorem Balanced.ite {p : Prop} [Decidable p] {s t : Steps α} (hs : Balanced limit s) (ht : Balanced limit t) :
    Balanced limit (if p then s else t) := by
  split
  · exact hs
  · exact ht

/-- a choice made by balanced steps -/
theorem Balanced.choice {s : Steps Bool} {yes no : Steps α} (h : Balanced limit s) (hyes : Balanced limit yes)
    (hno : Balanced limit no) : Balanced limit (do if ← s then yes else no) :=
  h.bind fun _ => .ite hyes hno

/-! ## Walks

A walk is steps that end with a value or with a complaint, and what comes after a walk only runs after a value. -/

theorem balanced_return (a : α) : Balanced limit (pure a : Walk α).run := balanced_pure _

theorem Balanced.liftM {s : Steps α} (h : Balanced limit s) : Balanced limit (liftM s : Walk α).run :=
  h.bind fun _ => balanced_pure _

theorem Balanced.andThen {w : Walk α} {f : α → Walk β} (h : Balanced limit w.run) (hf : ∀ a, Balanced limit (f a).run) :
    Balanced limit (w >>= f).run := by
  rw [ExceptT.run_bind]
  refine h.bind fun result => ?_
  cases result with
  | ok a => exact hf a
  | error d => exact balanced_pure _

theorem Balanced.lifted {s : Steps α} {f : α → Walk β} (h : Balanced limit s) (hf : ∀ a, Balanced limit (f a).run) :
    Balanced limit (MonadLift.monadLift s >>= f : Walk β).run :=
  Balanced.andThen h.liftM hf

/-- a way that is taken or not -/
theorem Balanced.chosen {s : Steps Bool} {yes no : Walk α} (h : Balanced limit s) (hyes : Balanced limit yes.run)
    (hno : Balanced limit no.run) : Balanced limit (do if ← s then yes else no : Walk α).run :=
  .lifted h fun _ => .ite hyes hno

/-! ## Single steps -/

/-- whenever the steps end, the cursor is where it was -/
def Still (s : Steps α) : Prop := ∀ c a c', (s.run c).run = some (.ok (a, c')) → c' = c

theorem Still.balanced {s : Steps α} (h : Still s) : Balanced limit s := by
  intro c a c' hrun
  rw [h c a c' hrun]
  exact .refl c

theorem still_pure (a : α) : Still (pure a) := by
  rintro c _ _ ⟨⟩
  rfl

theorem Still.bind {s : Steps α} {f : α → Steps β} (h : Still s) (hf : ∀ a, Still (f a)) : Still (s >>= f) := by
  intro c b c'' hrun
  obtain ⟨a, c', hfirst, hlater⟩ := run_bind_eq hrun
  exact (hf a c' b c'' hlater).trans (h c a c' hfirst)

theorem still_peek : Still peek := by
  intro c t c' hrun
  obtain ⟨_, _, hget, hlater⟩ := run_bind_eq hrun
  cases hget
  split at hlater
  · cases hlater
    rfl
  · cases hlater

theorem still_previous : Still previous := by
  intro c t c' hrun
  obtain ⟨_, _, hget, hlater⟩ := run_bind_eq hrun
  cases hget
  by_cases hzero : c.position = 0
  · rw [if_pos hzero] at hlater
    cases hlater
  · rw [if_neg hzero] at hlater
    split at hlater
    · cases hlater
      rfl
    · cases hlater

theorem still_isAtEnd : Still isAtEnd := still_peek.bind fun _ => still_pure _

theorem still_check (p : TokenKind → Bool) : Still (check p) := by
  refine still_isAtEnd.bind fun ended => ?_
  cases ended with
  | true => exact still_pure _
  | false => exact still_peek.bind fun _ => still_pure _

theorem balanced_peek : Balanced limit peek := still_peek.balanced

theorem balanced_previous : Balanced limit previous := still_previous.balanced

theorem balanced_isAtEnd : Balanced limit isAtEnd := still_isAtEnd.balanced

theorem balanced_check (p : TokenKind → Bool) : Balanced limit (check p) := (still_check p).balanced

/-- going on to another place with as many constructs open -/
theorem Restored.put (c : Cursor) (position : Nat) : Restored limit c (c.put position c.depth) where
  depth := rfl
  way := ⟨[.place position c.depth], rfl, List.forall_mem_singleton.2 ⟨le_rfl, le_max_left _ _⟩⟩

theorem balanced_advance : Balanced limit advance := by
  refine balanced_isAtEnd.choice balanced_previous (Balanced.bind ?_ fun _ => balanced_previous)
  rintro c _ _ ⟨⟩
  exact .put c _

theorem balanced_accept (p : TokenKind → Bool) : Balanced limit (accept p) :=
  (balanced_check p).choice (balanced_advance.bind fun _ => balanced_pure _) (balanced_pure _)

theorem balanced_complain (cause : Cause) : Balanced limit (complain cause : Walk α).run :=
  balanced_peek.lifted fun _ => balanced_pure _

theorem balanced_consume (kind : TokenKind) (cause : Cause) : Balanced limit (consume kind cause).run :=
  (balanced_check _).chosen balanced_advance.liftM (balanced_complain cause)

theorem balanced_report (d : Diagnostic) : Balanced limit (report d) := by
  rintro c _ _ ⟨⟩
  exact .of_same rfl rfl

theorem balanced_here : Balanced limit here := by
  rintro c _ _ ⟨⟩
  exact .refl c

theorem balanced_record (start : Nat) : Balanced limit (record start) := by
  rintro c _ _ ⟨⟩
  exact ⟨rfl, [.declared start c.position], rfl, List.forall_mem_singleton.2 trivial⟩

/-! ## Rules -/

/-- one construct more for the time of a rule, whichever way the rule ends -/
theorem balanced_nested {m : Machine} {w : Walk α} (h : Balanced m.limit w.run) : Balanced m.limit (m.nested w) := by
  intro c result c' hrun
  obtain ⟨_, _, hnesting, hrun⟩ := run_bind_eq hrun
  cases hnesting
  split at hrun
  · exact balanced_complain .tooMuchNesting c result c' hrun
  · rename_i hroom
    obtain ⟨_, _, henter, hrun⟩ := run_bind_eq hrun
    cases henter
    obtain ⟨_, inner, hrule, hrun⟩ := run_bind_eq hrun
    obtain ⟨hdepth, way, htrail, hway⟩ := h _ _ inner hrule
    obtain ⟨_, _, hleave, hrun⟩ := run_bind_eq hrun
    cases hrun
    have hopen : inner.depth = c.depth + 1 := hdepth
    have hput : c' = inner.put inner.position c.depth := by
      have hcall : (leave.run inner).run = some (.ok ((), inner.put inner.position c.depth)) := by
        simp [leave, hopen]
      rw [hcall] at hleave
      cases hleave
      rfl
    subst hput
    have hle : c.depth + 1 ≤ m.limit := Nat.lt_of_not_le hroom
    have hmost : m.limit ≤ max c.depth m.limit := le_max_right _ _
    refine ⟨rfl, .place c.position (c.depth + 1) :: way ++ [.place inner.position c.depth], ?_, ?_⟩
    · simp [Cursor.put, htrail]
    · refine List.forall_mem_append.2 ⟨List.forall_mem_cons.2 ⟨?_, fun f hf => ?_⟩, List.forall_mem_singleton.2 ?_⟩
      · exact ⟨Nat.le_succ _, hle.trans hmost⟩
      · exact (hway f hf).mono (Nat.le_succ _) (max_le (hle.trans hmost) hmost)
      · exact ⟨le_rfl, le_max_left _ _⟩

/-! ## Recursion

A rule that calls itself is the least of all partial functions above its unfoldings, so what it ends with is what one of
them ends with. -/

/-- `s` is the least of all that lie above the given ones -/
def Least {F : Type} (le : F → F → Prop) (given : F → Prop) (s : F) : Prop := ∀ t, le s t ↔ ∀ f, given f → le f t

/-- below a result there is only that result, and to have none -/
structure Flat {β : Type} (le : Option β → Option β → Prop) : Prop where
  bottom : ∀ x, le none x
  refl : ∀ x, le x x
  only : ∀ x y, le x y → x = none ∨ x = y

section Least

variable {F ι κ : Type}

/-- the least function above others is at each argument the least above what they are there -/
theorem Least.apply {le : F → F → Prop} {given : (ι → F) → Prop} {s : ι → F} (hrefl : ∀ x, le x x)
    (h : Least (fun s t => ∀ i, le (s i) (t i)) given s) (i : ι) :
    Least le (fun x => ∃ f, given f ∧ f i = x) (s i) := by
  classical
  have habove : ∀ f, given f → ∀ j, le (f j) (s j) := (h s).1 fun j => hrefl _
  -- what lies below `s` also lies below `s` with another value at `i`, if it does so there
  have hchanged : ∀ (f : ι → F) x, (∀ j, le (f j) (s j)) → le (f i) x → ∀ j, le (f j) (Function.update s i x j) := by
    intro f x hf hx j
    rcases eq_or_ne j i with rfl | hj
    · rwa [Function.update_self]
    · rw [Function.update_of_ne hj]
      exact hf j
  intro x
  constructor
  · rintro hx _ ⟨f, hf, rfl⟩
    simpa using (h _).1 (hchanged s x (fun j => hrefl _) hx) f hf i
  · intro hx
    simpa using (h _).2 (fun f hf => hchanged f x (habove f hf) (hx _ ⟨f, hf, rfl⟩)) i

/-- a least result is one of those that it is the least above -/
theorem Least.attained {le : Option β → Option β → Prop} {given : Option β → Prop} {b : β} (hflat : Flat le)
    (h : Least le given (some b)) : given (some b) := by
  by_contra hnot
  have hnone : ∀ x, given x → le x none := by
    intro x hx
    have hbelow := hflat.only _ _ ((h (some b)).1 (hflat.refl _) x hx)
    rw [hbelow.resolve_right fun heq => hnot (heq ▸ hx)]
    exact hflat.bottom _
  have hsome := hflat.only _ _ ((h none).2 hnone)
  simp at hsome

variable {le : Option (Except Crash (α × Cursor)) → Option (Except Crash (α × Cursor)) → Prop}

theorem Least.balanced {given : Steps α → Prop} {s : Steps α} (hflat : Flat le)
    (hs : Least (fun s t => ∀ c, le (s c) (t c)) given s) (h : ∀ f, given f → Balanced limit f) : Balanced limit s := by
  intro c a c' hrun
  have hc := hs.apply hflat.refl c
  have hresult : s c = some (.ok (a, c')) := hrun
  rw [hresult] at hc
  obtain ⟨f, hf, hfc⟩ := hc.attained hflat
  exact h f hf c a c' hfc

theorem Least.balanced_all {given : (ι → Steps α) → Prop} {s : ι → Steps α} (hflat : Flat le)
    (hs : Least (fun s t => ∀ i c, le (s i c) (t i c)) given s) (h : ∀ f, given f → ∀ i, Balanced limit (f i)) (i : ι) :
    Balanced limit (s i) := by
  refine (hs.apply (fun x c => hflat.refl _) i).balanced hflat ?_
  rintro _ ⟨f, hf, rfl⟩
  exact h f hf i

-- the recursion takes its least functions by choice, so the lemmas it is given speak of what was chosen

theorem balanced_least {given : Steps α → Prop} (h : ∀ f, given f → Balanced limit f)
    {hs : ∃ s, Least (fun s t => ∀ c, le (s c) (t c)) given s}
    (hflat : Flat le := by exact ⟨fun _ => .bot, fun _ => .refl, by rintro _ _ (_ | _) <;> simp⟩) :
    Balanced limit (Classical.choose hs) :=
  (Classical.choose_spec hs).balanced hflat h

theorem balanced_least_all {given : (ι → Steps α) → Prop} (h : ∀ f, given f → ∀ i, Balanced limit (f i))
    {hs : ∃ s, Least (fun s t => ∀ i c, le (s i c) (t i c)) given s}
    (hflat : Flat le := by exact ⟨fun _ => .bot, fun _ => .refl, by rintro _ _ (_ | _) <;> simp⟩) (i : ι) :
    Balanced limit (Classical.choose hs i) :=
  (Classical.choose_spec hs).balanced_all hflat h i

theorem balanced_least_pairs {given : (ι → κ → Steps α) → Prop} (h : ∀ f, given f → ∀ i k, Balanced limit (f i k))
    {hs : ∃ s, Least (fun s t => ∀ i k c, le (s i k c) (t i k c)) given s}
    (hflat : Flat le := by exact ⟨fun _ => .bot, fun _ => .refl, by rintro _ _ (_ | _) <;> simp⟩) (i : ι) (k : κ) :
    Balanced limit (Classical.choose hs i k) := by
  refine ((Classical.choose_spec hs).apply (fun x k c => hflat.refl _) i).balanced_all hflat ?_ k
  rintro _ ⟨f, hf, rfl⟩
  exact h f hf i

end Least

/-! ## Rules of the machine -/

section Rules

variable (m : Machine)

theorem balanced_skip : Balanced m.limit m.skip := by
  refine Machine.skip.fixpoint_induct m (Balanced m.limit) (fun _ _ h => balanced_least h) fun skip hskip => ?_
  refine balanced_isAtEnd.choice (balanced_pure _) (balanced_previous.bind fun _ => .ite (balanced_pure _) ?_)
  exact balanced_peek.bind fun _ => .ite (balanced_pure _) (balanced_advance.bind fun _ => hskip)

theorem balanced_resume : Balanced m.limit m.resume := balanced_advance.bind fun _ => balanced_skip m

theorem balanced_expressions : Balanced m.limit m.expression.run ∧ Balanced m.limit m.assignment.run ∧
    (∀ k, Balanced m.limit (m.operands k).run) ∧ (∀ k left, Balanced m.limit (m.operations k left).run) ∧
    Balanced m.limit m.unary.run ∧ Balanced m.limit m.primary.run := by
  refine Machine.expression.mutual_fixpoint_induct m (fun w => Balanced m.limit w.run) (fun w => Balanced m.limit w.run)
    (fun f => ∀ k, Balanced m.limit (f k).run) (fun f => ∀ k left, Balanced m.limit (f k left).run)
    (fun w => Balanced m.limit w.run) (fun w => Balanced m.limit w.run)
    (fun _ _ h => balanced_least h) (fun _ _ h => balanced_least h) (fun _ _ h => balanced_least_all h)
    (fun _ _ h => balanced_least_pairs h) (fun _ _ h => balanced_least h)
    (fun _ _ h => balanced_least h) ?_ ?_ ?_ ?_ ?_ ?_
  · intro assignment hassignment
    exact balanced_nested hassignment
  · intro assignment operands hassignment hoperands
    refine (hoperands 6).andThen fun target => (balanced_accept _).chosen ?_ (balanced_return target)
    refine balanced_previous.lifted fun equals => (balanced_nested hassignment).andThen fun value => ?_
    split
    · exact balanced_return _
    · exact (balanced_report _).lifted fun _ => balanced_return _
  · intro operands operations unary hoperands hoperations hunary k
    cases k with
    | zero => exact hunary
    | succ k => exact (hoperands k).andThen fun left => hoperations k left
  · intro operands operations hoperands hoperations k left
    refine (balanced_check _).chosen ?_ (balanced_return left)
    exact balanced_advance.lifted fun operator => (hoperands k).andThen fun right => hoperations k _
  · intro unary primary hunary hprimary
    refine (balanced_accept _).chosen ?_ hprimary
    exact balanced_previous.lifted fun operator => (balanced_nested hunary).andThen fun right => balanced_return _
  · intro expression hexpression
    refine balanced_peek.lifted fun t => ?_
    split
    · exact balanced_advance.lifted fun _ => balanced_return _
    · refine (balanced_accept _).chosen ?_ (balanced_complain _)
      exact hexpression.andThen fun e => (balanced_consume _ _).andThen fun _ => balanced_return _

theorem balanced_expression : Balanced m.limit m.expression.run := (balanced_expressions m).1

/-- an expression and the token behind it -/
theorem balanced_closed (f : Expr → α) (kind : TokenKind) (cause : Cause) :
    Balanced m.limit (do let e ← m.expression; let _ ← consume kind cause; return f e : Walk α).run :=
  (balanced_expression m).andThen fun _ => (balanced_consume kind cause).andThen fun _ => balanced_return _

theorem balanced_initialized (name : Token) : Balanced m.limit (m.initialized name).run :=
  (balanced_accept _).chosen ((balanced_expression m).andThen fun _ => balanced_return _) (balanced_return _)

theorem balanced_declaring : Balanced m.limit m.declaring.run :=
  (balanced_consume _ _).andThen fun name =>
    (balanced_initialized m name).andThen fun _ => (balanced_consume _ _).andThen fun _ => balanced_return _

theorem balanced_statements : Balanced m.limit m.statement.run ∧ Balanced m.limit m.block ∧
    (∀ closes read, Balanced m.limit (m.declarations closes read)) ∧ Balanced m.limit m.declaration ∧
    Balanced m.limit m.declared.run ∧ Balanced m.limit m.conditional.run := by
  refine Machine.statement.mutual_fixpoint_induct m (fun w => Balanced m.limit w.run) (Balanced m.limit)
    (fun f => ∀ closes read, Balanced m.limit (f closes read)) (Balanced m.limit) (fun w => Balanced m.limit w.run)
    (fun w => Balanced m.limit w.run) (fun _ _ h => balanced_least h) (fun _ _ h => balanced_least h)
    (fun _ _ h => balanced_least_pairs h) (fun _ _ h => balanced_least h) (fun _ _ h => balanced_least h)
    (fun _ _ h => balanced_least h) ?_ ?_ ?_ ?_ ?_ ?_
  · intro block conditional hblock hconditional
    refine (balanced_accept _).chosen hconditional ((balanced_accept _).chosen (balanced_closed m _ _ _) ?_)
    refine (balanced_accept _).chosen ((balanced_nested hblock).andThen fun _ => balanced_return _) ?_
    exact (balanced_check _).chosen (balanced_peek.lifted fun _ => balanced_complain _) (balanced_closed m _ _ _)
  · intro declarations hdeclarations
    exact (hdeclarations _ _).bind fun _ => (balanced_consume _ _).andThen fun _ => balanced_return _
  · intro declarations declaration hdeclarations hdeclaration closes read
    refine (balanced_check closes).choice (balanced_pure _) (balanced_isAtEnd.choice (balanced_pure _) ?_)
    exact balanced_here.bind fun start => hdeclaration.bind fun s =>
      (balanced_record start).bind fun _ => hdeclarations _ _
  · intro declared hdeclared
    refine hdeclared.bind fun result => ?_
    cases result with
    | ok s => exact balanced_pure _
    | error d => exact (balanced_report d).bind fun _ => (balanced_resume m).bind fun _ => balanced_pure _
  · intro statement hstatement
    exact (balanced_accept _).chosen (balanced_declaring m) hstatement
  · intro statement hstatement
    refine (balanced_consume _ _).andThen fun _ => (balanced_expression m).andThen fun condition => ?_
    refine (balanced_consume _ _).andThen fun _ => (balanced_nested hstatement).andThen fun yes => ?_
    exact (balanced_accept _).chosen ((balanced_nested hstatement).andThen fun _ => balanced_return _)
      (balanced_return _)

end Rules

/-! ## Calls -/

end Cursor

/-- a rule of the machine with what it is called with -/
inductive RuleCall where
  | expression
  | assignment
  | operands (tier : Nat)
  | operations (tier : Nat) (left : Expr)
  | unary
  | primary
  | printing
  | bare
  | initialized (name : Token)
  | declaring
  | statement
  | conditional
  | block
  | declared
  | declaration
  | declarations (closes : TokenKind → Bool) (read : List Stmt)

namespace RuleCall

/-- what a call ends with; a complaint is one of the ways to end, but for the rules that catch it -/
abbrev Result : RuleCall → Type
  | expression | assignment | operands _ | operations _ _ | unary | primary => Except Diagnostic Expr
  | block => Except Diagnostic (List Stmt)
  | declaration => Option Stmt
  | declarations _ _ => List Stmt
  | _ => Except Diagnostic Stmt

def steps (m : Machine) : (call : RuleCall) → Steps call.Result
  | expression => m.expression.run
  | assignment => m.assignment.run
  | operands tier => (m.operands tier).run
  | operations tier left => (m.operations tier left).run
  | unary => m.unary.run
  | primary => m.primary.run
  | printing => m.printing.run
  | bare => m.bare.run
  | initialized name => (m.initialized name).run
  | declaring => m.declaring.run
  | statement => m.statement.run
  | conditional => m.conditional.run
  | block => m.block
  | declared => m.declared.run
  | declaration => m.declaration
  | declarations closes read => m.declarations closes read

open Cursor

/-- **Every call is balanced**, on any machine and from any cursor. -/
theorem balanced (m : Machine) (call : RuleCall) : Balanced m.limit (call.steps m) := by
  obtain ⟨hexpression, hassignment, hoperands, hoperations, hunary, hprimary⟩ := balanced_expressions m
  obtain ⟨hstatement, hblock, hdeclarations, hdeclaration, hdeclared, hconditional⟩ := balanced_statements m
  cases call with
  | expression => exact hexpression
  | assignment => exact hassignment
  | operands tier => exact hoperands tier
  | operations tier left => exact hoperations tier left
  | unary => exact hunary
  | primary => exact hprimary
  | printing => exact balanced_closed m _ _ _
  | bare => exact balanced_closed m _ _ _
  | initialized name => exact balanced_initialized m name
  | declaring => exact balanced_declaring m
  | statement => exact hstatement
  | conditional => exact hconditional
  | block => exact hblock
  | declared => exact hdeclared
  | declaration => exact hdeclaration
  | declarations closes read => exact hdeclarations closes read

end RuleCall

namespace Cursor

open Machine (standard)

/-- a cursor that has come properly to where it is in a token list -/
structure Underway (tokens : List Token) (c : Cursor) : Prop where
  whole : c.tokens = terminated tokens
  position : c.position ≤ (Parsing.body tokens).length
  depth : c.depth ≤ maxNesting
  way : Onward c.trail c.position

variable {tape : Tape} {α : Type} {p q : Spot} {c c' : Cursor} {tokens : List Token}

theorem At.underway (hbody : tape.body = Parsing.body tokens)
    (hterminated : terminated tokens = tape.body ++ tape.mark :: tape.later)
    (h : At tape p c) : Underway tokens c where
  whole := h.tokens.trans hterminated.symm
  position := by
    have := h.position
    rw [← hbody]
    omega
  depth := h.depth.trans_le h.room
  way := h.way

theorem Underway.at (hbody : tape.body = Parsing.body tokens)
    (hterminated : terminated tokens = tape.body ++ tape.mark :: tape.later)
    (h : Underway tokens c) : At tape ⟨c.depth, c.diagnostics, tape.body.drop c.position⟩ c where
  tokens := h.whole.trans hterminated
  unread := List.drop_suffix _ _
  position := by
    have := h.position
    rw [← hbody] at this
    simp only [List.length_drop]
    omega
  depth := rfl
  room := h.depth
  diagnostics := rfl
  way := h.way

theorem Ends.leads {w : Walk α} {depth : Nat} {told : List Diagnostic} {rest : List Token} {o : Outcome α}
    (h : Ends tape w depth told rest o) : ∃ result q, Leads tape w.run ⟨depth, told, rest⟩ result q := by
  cases o with
  | done value unread reported => exact ⟨_, _, h⟩
  | failed fault reported => exact ⟨_, _, h⟩

theorem Inside.initialized {inside : Level} {depth : Nat} {told : List Diagnostic} {rest : List Token}
    (h : Inside tape depth inside) (name : Token) :
    ∃ o, Ends tape (standard.initialized name) depth told rest o := by
  rw [Machine.initialized]
  cases rest with
  | nil => exact ⟨_, Ends.accept_nil (ends_pure _)⟩
  | cons t behind =>
    by_cases hequal : t.kind = .equal
    · have hinitial := h.expression.map (fun initial => Stmt.declare name (some initial)) told behind
      exact ⟨_, Ends.accept_yes (decide_eq_true hequal) fun _ => hinitial⟩
    · exact ⟨_, Ends.accept_no (decide_eq_false hequal) (ends_pure _)⟩

/-- a declaration leads on, and further than it began if there is anything to read -/
theorem Follows.declaration {statement : Rule Stmt} {depth : Nat} (h : Follows tape depth standard.declared statement)
    (hbody : tape.body ≠ []) (told : List Diagnostic) (rest : List Token) :
    ∃ result told' unread, Leads tape standard.declaration ⟨depth, told, rest⟩ result ⟨depth, told', unread⟩ ∧
      ∀ t behind, rest = t :: behind → unread.length ≤ behind.length := by
  have hdeclared := h told rest
  have hshorter := statement.shortens rest
  generalize statement.run rest = o at hdeclared hshorter
  cases o with
  | done s unread reported =>
    refine ⟨_, _, unread, leads_declaration_of_done hdeclared, ?_⟩
    rintro t behind rfl
    exact Nat.le_of_lt_succ hshorter
  | failed fault reported =>
    refine ⟨_, _, _, leads_declaration_of_failed hbody hdeclared, ?_⟩
    rintro t behind rfl
    exact Nat.le_of_lt_succ (synchronize_length_lt hshorter)

end Cursor

open Cursor Machine in
/-- every rule leads on from every spot, in a token list that has any tokens -/
theorem RuleCall.leads {tape : Tape} (hbody : tape.body ≠ []) (call : RuleCall) (p : Spot)
    (hroom : p.depth ≤ maxNesting) :
    ∃ result q, Leads tape (call.steps standard) p result q := by
  have h : Inside tape p.depth (Level.withRoom (maxNesting - p.depth)) := inside _ (by omega)
  have hoperands := follows_operands h.signed
  cases call with
  | expression => exact (h.expression _ _).leads
  | assignment => exact (h.assigning _ _).leads
  | operands tier => exact (hoperands tier _ _).leads
  | operations tier left => exact (ends_operations (hoperands tier) left).leads
  | unary => exact (h.signed _ _).leads
  | primary => exact (h.primary _ _).leads
  | printing => exact (h.printing _ _).leads
  | bare => exact (h.bare _ _).leads
  | initialized name =>
    obtain ⟨o, ho⟩ := h.initialized name
    exact ho.leads
  | declaring => exact (h.declaring _ _).leads
  | statement => exact (h.command _ _).leads
  | conditional => exact (h.conditional _ _).leads
  | block => exact (Follows.block h.declared _ _).leads
  | declared => exact (h.declared _ _).leads
  | declaration =>
    obtain ⟨result, told, unread, hleads, -⟩ := h.declared.declaration hbody p.told p.rest
    exact ⟨result, _, hleads⟩
  | declarations closes read => exact ⟨_, _, leads_declarations h.declared closes _ _ read⟩

/-! ## Rounds -/

namespace Machine

open Cursor

/-- one round of the loop over declarations: nothing where the loop ends, and else what was read, if anything -/
def round (m : Machine) (closes : TokenKind → Bool) : Steps (Option (Option Stmt)) := do
  if ← check closes then return none
  else if ← isAtEnd then return none
  else
    let start ← here
    let s ← m.declaration
    record start
    return some s

/-- the loop is round after round -/
theorem declarations_eq (m : Machine) (closes : TokenKind → Bool) (read : List Stmt) : m.declarations closes read = (do
    match ← m.round closes with
    | none => return read
    | some s => m.declarations closes (read ++ s.toList)) := by
  rw [declarations, round, bind_assoc]
  refine bind_congr fun closed => ?_
  cases closed with
  | true => rfl
  | false =>
    rw [if_neg Bool.false_ne_true, if_neg Bool.false_ne_true, bind_assoc]
    refine bind_congr fun ended => ?_
    cases ended with
    | true => rfl
    | false => simp only [if_neg Bool.false_ne_true, bind_assoc, pure_bind]

/-- where the loop ends, the cursor stays -/
theorem round_stop {m : Machine} {closes : TokenKind → Bool} {c c' : Cursor}
    (h : ((m.round closes).run c).run = some (.ok (none, c'))) : c' = c := by
  obtain ⟨closed, c₁, hcheck, h⟩ := run_bind_eq h
  obtain rfl := still_check closes _ _ _ hcheck
  cases closed with
  | true =>
    cases h
    rfl
  | false =>
    obtain ⟨ended, c₂, hend, h⟩ := run_bind_eq h
    obtain rfl := still_isAtEnd _ _ _ hend
    cases ended with
    | true =>
      cases h
      rfl
    | false =>
      obtain ⟨_, _, _, h⟩ := run_bind_eq h
      obtain ⟨_, _, _, h⟩ := run_bind_eq h
      obtain ⟨_, _, _, h⟩ := run_bind_eq h
      cases h

/-- the loop that is begun at one cursor comes to another one when a round begins -/
inductive Rounds (m : Machine) (closes : TokenKind → Bool) (first : Cursor) : Cursor → Prop where
  | first : Rounds m closes first first
  | next {c c' : Cursor} {s : Option Stmt} (h : Rounds m closes first c)
    (hround : ((m.round closes).run c).run = some (.ok (some s, c'))) : Rounds m closes first c'

end Machine

namespace Cursor

open Machine (standard)

theorem balanced_round (m : Machine) (closes : TokenKind → Bool) : Balanced m.limit (m.round closes) := by
  have hdeclaration : Balanced m.limit m.declaration := RuleCall.balanced m .declaration
  refine (balanced_check closes).choice (balanced_pure _) (balanced_isAtEnd.choice (balanced_pure _) ?_)
  exact balanced_here.bind fun start => hdeclaration.bind fun s => (balanced_record start).bind fun _ => balanced_pure _

/-- **Every round begins as deep as the first one**, whatever the rounds before it have complained about. -/
theorem depth_of_rounds {m : Machine} {closes : TokenKind → Bool} {first c : Cursor} (h : m.Rounds closes first c) :
    c.depth = first.depth := by
  induction h with
  | first => rfl
  | next _ hround ih => exact (balanced_round m closes _ _ _ hround).depth.trans ih

variable {tape : Tape} {depth : Nat} {told : List Diagnostic} {rest : List Token}

/-- a round leads on, and further than it began unless the loop ends -/
theorem Follows.round {statement : Rule Stmt} (h : Follows tape depth standard.declared statement)
    (closes : TokenKind → Bool) (told : List Diagnostic) (hunread : rest <:+ tape.body) : ∃ result told' unread,
    Leads tape (standard.round closes) ⟨depth, told, rest⟩ result ⟨depth, told', unread⟩ ∧
      (result ≠ none → unread.length < rest.length) := by
  cases rest with
  | nil =>
    exact ⟨_, _, _, (leads_check_nil closes).bind (leads_isAtEnd_nil.bind (leads_pure none _)), absurd rfl⟩
  | cons t behind =>
    cases hcloses : closes t.kind with
    | true => exact ⟨_, _, _, (leads_check_of_eq hcloses).bind (leads_pure none _), absurd rfl⟩
    | false =>
      have hbody : tape.body ≠ [] := fun hnil => by simp [hnil] at hunread
      obtain ⟨s, told', unread, hleads, hshorter⟩ := h.declaration hbody told (t :: behind)
      have hless := hshorter t behind rfl
      have hlength := hunread.length_le
      refine ⟨some s, told', unread, (leads_check_of_eq hcloses).bind (leads_isAtEnd_cons.bind ?_), fun _ => ?_⟩
      · refine (leads_here _).bind (hleads.bind ((leads_record ?_).bind (leads_pure _ _)))
        simp only [List.length_cons] at hlength ⊢
        omega
      · simp only [List.length_cons]
        omega

/-- at the beginning of every round the cursor is at a spot outside of all constructs -/
theorem at_of_rounds {first c : Cursor} {closes : TokenKind → Bool} (hfirst : At tape ⟨0, [], tape.body⟩ first)
    (h : standard.Rounds closes first c) : ∃ told rest, At tape ⟨0, told, rest⟩ c := by
  induction h with
  | first => exact ⟨_, _, hfirst⟩
  | @next c c' s h hround ih =>
    obtain ⟨told, rest, hc⟩ := ih
    have hlevel : Inside tape 0 (Level.withRoom maxNesting) := inside maxNesting (Nat.zero_add _)
    obtain ⟨result, told', unread, hleads, -⟩ := hlevel.declared.round closes told hc.unread
    obtain ⟨c'', hrun, hc''⟩ := hleads c hc
    obtain ⟨rfl, rfl⟩ : some s = result ∧ c' = c'' := by simpa [hround] using hrun
    exact ⟨told', unread, hc''⟩

/-- the loop goes from round to round until it ends -/
theorem rounds_of_loop {statement : Rule Stmt} (h : Follows tape depth standard.declared statement)
    (closes : TokenKind → Bool) : ∀ (n : Nat) (first c : Cursor) (told : List Diagnostic) (rest : List Token),
    rest.length = n → At tape ⟨depth, told, rest⟩ c → standard.Rounds closes first c →
    ∀ read, ∃ statements last, ((standard.declarations closes read).run c).run = some (.ok (statements, last)) ∧
      standard.Rounds closes first last := by
  intro n
  induction n using Nat.strong_induction_on with
  | _ n ih =>
    intro first c told rest hn hc hrounds read
    obtain ⟨result, told', unread, hleads, hshorter⟩ := h.round closes told hc.unread
    obtain ⟨c', hrun, hc'⟩ := hleads c hc
    rw [Machine.declarations_eq]
    cases result with
    | none =>
      obtain rfl := Machine.round_stop hrun
      exact ⟨read, c', run_bind_of hrun rfl, hrounds⟩
    | some s =>
      obtain ⟨statements, last, hlater, hlast⟩ :=
        ih unread.length (hn ▸ hshorter (Option.some_ne_none s)) first c' told'
        unread rfl hc' (hrounds.next hrun) (read ++ s.toList)
      exact ⟨statements, last, run_bind_of hrun hlater, hlast⟩

/-- the tokens that a cursor has in front of it, up to the end of its list -/
theorem At.drop_tokens {p : Spot} {c : Cursor} (h : At tape p c) :
    c.tokens.drop c.position = p.rest ++ tape.mark :: tape.later := by
  obtain ⟨read, hread⟩ := h.unread
  have hposition : c.position = read.length := by
    have := h.position
    rw [← hread, List.length_append] at this
    omega
  rw [h.tokens, ← hread, hposition, List.append_assoc, List.drop_left]

/-- the same outcome on two token lists of which one is the end of the other -/
theorem declared_alike {tape' : Tape} {c first : Cursor} {result : Except Diagnostic Stmt} {added : List Diagnostic}
    {unread : List Token} (h : At tape ⟨depth, told, rest⟩ c) (hfirst : At tape' ⟨depth, [], rest⟩ first)
    (hbody : tape'.body = rest)
    (hleads : Leads tape standard.declared.run ⟨depth, told, rest⟩ result ⟨depth, told ++ added, unread⟩)
    (hleads' : Leads tape' standard.declared.run ⟨depth, [], rest⟩ result ⟨depth, added, unread⟩) : ∃ result c' fresh,
      (standard.declared.run.run c).run = some (.ok (result, c')) ∧
      (standard.declared.run.run first).run = some (.ok (result, fresh)) ∧
      c'.diagnostics = c.diagnostics ++ fresh.diagnostics ∧ c'.position = c.position + fresh.position := by
  obtain ⟨c', hrun, hc'⟩ := hleads c h
  obtain ⟨fresh, hrun', hfresh⟩ := hleads' first hfirst
  refine ⟨result, c', fresh, hrun, hrun', ?_, ?_⟩
  · rw [hc'.diagnostics, h.diagnostics, hfresh.diagnostics]
  · have hbefore : c.position + rest.length = tape.body.length := h.position
    have hafter : c'.position + unread.length = tape.body.length := hc'.position
    have hahead : fresh.position + unread.length = tape'.body.length := hfresh.position
    rw [hbody] at hahead
    omega

/-- **No nesting is lost.** A declaration outside of all constructs is read as a fresh cursor reads it that is given the
tokens ahead and nothing else, whatever was complained about before. -/
theorem declared_as_fresh {c : Cursor} (h : At tape ⟨0, told, rest⟩ c) : ∃ result c' fresh,
    (standard.declared.run.run c).run = some (.ok (result, c')) ∧
    (standard.declared.run.run (start (c.tokens.drop c.position))).run = some (.ok (result, fresh)) ∧
    c'.diagnostics = c.diagnostics ++ fresh.diagnostics ∧ c'.position = c.position + fresh.position := by
  have hplain : ∀ t ∈ rest, t.kind ≠ .eof := fun t ht => tape.plain t (h.unread.subset ht)
  obtain ⟨tape', hbody, hline, -, hstart⟩ := at_start (c.tokens.drop c.position)
  rw [h.drop_tokens] at hbody hline
  rw [Parsing.body_append_end hplain tape.ends] at hbody
  rw [Parsing.endLine_append_end hplain tape.ends] at hline
  rw [hbody] at hstart
  have hends := (inside maxNesting (Nat.zero_add _) : Inside tape 0 _).declared told rest
  have hends' := (inside maxNesting (Nat.zero_add _) : Inside tape' 0 _).declared [] rest
  generalize (Level.withRoom maxNesting).declared.run rest = o at hends hends'
  cases o with
  | done s unread reported =>
    simp only [Ends, hline, List.nil_append] at hends'
    exact declared_alike h hstart hbody hends hends'
  | failed fault reported =>
    simp only [Ends, hline, List.nil_append] at hends'
    exact declared_alike h hstart hbody hends hends'

/-- **The count of open constructs is balanced.** Whatever cursor a rule is called at, and whether it ends with what it
has read or with a complaint, as many constructs are open afterwards as before, and in between there were never fewer,
and never more than the limit unless there were before. On the way through a token list every rule does end; the whole
run begins and ends outside of all constructs and stays within the limit. So every round of a loop over declarations
begins as deep as the loop did, in a block or outside; and outside of all constructs a declaration is read as if nothing
had come before it. -/
theorem rules_balanced (tokens : List Token) :
    (∀ (call : RuleCall) (c c' : Cursor) (result : call.Result),
      ((call.steps standard).run c).run = some (.ok (result, c')) → Restored maxNesting c c') ∧
    (∀ (call : RuleCall) (c : Cursor), Underway tokens c → Parsing.body tokens ≠ [] →
      ∃ result c', ((call.steps standard).run c).run = some (.ok (result, c')) ∧ Underway tokens c') ∧
    (∃ program last, parse tokens = some (.ok (program, last)) ∧ last.depth = 0 ∧
      (∀ f ∈ last.trail, f.Within 0 maxNesting) ∧ standard.Rounds (fun _ => false) (start tokens) last) ∧
    (∀ (closes : TokenKind → Bool) (first c : Cursor), standard.Rounds closes first c → c.depth = first.depth) ∧
    ∀ c, standard.Rounds (fun _ => false) (start tokens) c → c.depth = 0 ∧ ∃ result c' fresh,
      (standard.declared.run.run c).run = some (.ok (result, c')) ∧
      (standard.declared.run.run (start (c.tokens.drop c.position))).run = some (.ok (result, fresh)) ∧
      c'.diagnostics = c.diagnostics ++ fresh.diagnostics ∧ c'.position = c.position + fresh.position := by
  obtain ⟨tape, hbody, -, hterminated, hstart⟩ := at_start tokens
  refine ⟨fun call c c' result => call.balanced standard c result c', fun call c hc hsome => ?_, ?_,
    fun closes first c => depth_of_rounds, fun c hrounds => ?_⟩
  · obtain ⟨result, q, hleads⟩ :=
      call.leads (hbody ▸ hsome) ⟨c.depth, c.diagnostics, tape.body.drop c.position⟩ hc.depth
    obtain ⟨c', hrun, hc'⟩ := hleads c (hc.at hbody hterminated)
    exact ⟨result, c', hrun, hc'.underway hbody hterminated⟩
  · obtain ⟨_, last, -, -, -, hparse, hlast⟩ := parse_at tokens
    refine ⟨_, last, hparse, hlast.depth, fun f hf => ?_, ?_⟩
    · have hsound := hlast.way.sound f hf
      cases f with
      | place position depth => exact ⟨Nat.zero_le _, hsound⟩
      | declared start stop => trivial
    · have hlevel : Inside tape 0 (Level.withRoom maxNesting) := inside maxNesting (Nat.zero_add _)
      obtain ⟨_, last', hloop, hrounds⟩ :=
        rounds_of_loop hlevel.declared (fun _ => false) _ _ _ _ _ rfl hstart .first []
      have hsame : parse tokens = some (.ok (_, last')) := hloop
      rw [hparse] at hsame
      cases hsame
      exact hrounds
  · obtain ⟨told, rest, hc⟩ := at_of_rounds hstart hrounds
    exact ⟨hc.depth, declared_as_fresh hc⟩

end Cursor

end Scriptlet
