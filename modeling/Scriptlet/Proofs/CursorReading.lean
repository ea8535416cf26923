/-
What the cursor reads. The machine of `Cursor` is led along the grammar: where a rule of the grammar reads some of the
tokens and leaves the others unread, the machine goes from the spot in front of the ones to the spot in front of the
others, with the same value or the same complaint. `Ends` says so of one outcome and `Follows` of a rule on all token
lists, and there is one lemma for each way in which rules are composed.

- `Cursor.inside`: all rules, by induction on the room that is left for nesting.
- `Cursor.parse_eq_ok`: the whole run, for every token list.
-/
import Scriptlet.Proofs.CursorSteps
import Scriptlet.Proofs.Reading

namespace Scriptlet

namespace Cursor

open Machine (standard)

variable {tape : Tape} {α β : Type} {depth : Nat} {told : List Diagnostic} {rest : List Token}

/-! ## Rules -/

/-- the walk ends as the outcome says -/
def Ends (tape : Tape) (w : Walk α) (depth : Nat) (told : List Diagnostic) (rest : List Token) : Outcome α → Prop
  | .done value unread reported =>
    Leads tape w.run ⟨depth, told, rest⟩ (.ok value)
      ⟨depth, told ++ reported.map (Fault.diagnostic tape.mark.line), unread⟩
  | .failed fault reported =>
    Leads tape w.run ⟨depth, told, rest⟩ (.error (fault.diagnostic tape.mark.line))
      ⟨depth, told ++ reported.map (Fault.diagnostic tape.mark.line), fault.unread⟩

/-- at the given depth, the walk ends as the rule does -/
def Follows (tape : Tape) (depth : Nat) (w : Walk α) (a : Rule α) : Prop :=
  ∀ told rest, Ends tape w depth told rest (a.run rest)

theorem ends_pure (value : α) : Ends tape (pure value) depth told rest (.done value rest []) := by
  have hpure : Leads tape (pure value : Walk α).run ⟨depth, told, rest⟩ (.ok value) _ := leads_pure _ _
  simpa [Ends] using hpure

theorem Ends.lift {s : Steps β} {f : β → Walk α} {b : β} {unread : List Token} {o : Outcome α}
    (h : Leads tape s ⟨depth, told, rest⟩ b ⟨depth, told, unread⟩) (hf : Ends tape (f b) depth told unread o) :
    Ends tape (liftM s >>= f) depth told rest o := by
  cases o with
  | done value left reported => exact Leads.lift h hf
  | failed fault reported => exact Leads.lift h hf

theorem Ends.of_unread {w : Walk α} {o : Outcome α} (h : rest <:+ tape.body → Ends tape w depth told rest o) :
    Ends tape w depth told rest o := by
  cases o with
  | done value left reported => exact Leads.of_unread h
  | failed fault reported => exact Leads.of_unread h

/-- steps that take the cursor and the complaints further, and a walk behind them -/
theorem Ends.continued {γ : Type} {s : Steps γ} {g : γ → Steps (Except Diagnostic α)} {b : γ} {unread : List Token}
    {reported : List Fault} {o : Outcome α}
    (h : Leads tape s ⟨depth, told, rest⟩ b ⟨depth, told ++ reported.map (Fault.diagnostic tape.mark.line), unread⟩)
    (hg : ∀ told, Ends tape (g b) depth told unread o) :
    Ends tape (s >>= g : Steps (Except Diagnostic α)) depth told rest (o.preceded reported) := by
  have hnext := hg (told ++ reported.map (Fault.diagnostic tape.mark.line))
  cases o with
  | done value unread' reported' =>
    simp only [Ends, Outcome.preceded, List.map_append, ← List.append_assoc] at hnext ⊢
    exact Leads.bind h hnext
  | failed fault reported' =>
    simp only [Ends, Outcome.preceded, List.map_append, ← List.append_assoc] at hnext ⊢
    exact Leads.bind h hnext

theorem Ends.preceded {w : Walk α} {f : α → Walk β} {value : α} {unread : List Token} {reported : List Fault}
    {o : Outcome β} (h : Ends tape w depth told rest (.done value unread reported))
    (hf : ∀ told, Ends tape (f value) depth told unread o) :
    Ends tape (w >>= f) depth told rest (o.preceded reported) :=
  Ends.continued (g := ExceptT.bindCont f) h hf

theorem Ends.failed {w : Walk α} {f : α → Walk β} {fault : Fault} {reported : List Fault}
    (h : Ends tape w depth told rest (.failed fault reported)) :
    Ends tape (w >>= f) depth told rest (.failed fault reported) :=
  Leads.stop h

theorem Ends.andThen {w : Walk α} {f : α → Walk β} {o : Outcome α} {next : α → List Token → Outcome β}
    (h : Ends tape w depth told rest o)
    (hf : ∀ value unread told, Ends tape (f value) depth told unread (next value unread)) :
    Ends tape (w >>= f) depth told rest (o.andThen next) := by
  cases o with
  | done value unread reported => exact h.preceded (hf value unread)
  | failed fault reported => exact h.failed

theorem Ends.peek {f : Token → Walk α} {o : Outcome α}
    (h : Ends tape (f (rest.head?.getD tape.mark)) depth told rest o) :
    Ends tape (liftM Cursor.peek >>= f) depth told rest o :=
  Ends.lift (leads_peek _) h

section Choices

variable {k : TokenKind → Bool} {yes no : Walk α} {t : Token} {o : Outcome α}

theorem Ends.check_nil (h : Ends tape no depth told [] o) :
    Ends tape (do if ← Cursor.check k then yes else no) depth told [] o :=
  Ends.lift (leads_check_nil k) h

theorem Ends.check_yes (hk : k t.kind = true) (h : Ends tape yes depth told (t :: rest) o) :
    Ends tape (do if ← Cursor.check k then yes else no) depth told (t :: rest) o := by
  refine Ends.lift (leads_check_cons k t) ?_
  rw [if_pos hk]
  exact h

theorem Ends.check_no (hk : k t.kind = false) (h : Ends tape no depth told (t :: rest) o) :
    Ends tape (do if ← Cursor.check k then yes else no) depth told (t :: rest) o := by
  refine Ends.lift (leads_check_cons k t) ?_
  rw [if_neg (ne_true_of_eq_false hk)]
  exact h

theorem Ends.accept_nil (h : Ends tape no depth told [] o) :
    Ends tape (do if ← Cursor.accept k then yes else no) depth told [] o :=
  Ends.lift leads_accept_nil h

theorem Ends.accept_yes (hk : k t.kind = true) (h : t :: rest <:+ tape.body → Ends tape yes depth told rest o) :
    Ends tape (do if ← Cursor.accept k then yes else no) depth told (t :: rest) o :=
  .of_unread fun hunread => Ends.lift (leads_accept_yes hk) (h hunread)

theorem Ends.accept_no (hk : k t.kind = false) (h : Ends tape no depth told (t :: rest) o) :
    Ends tape (do if ← Cursor.accept k then yes else no) depth told (t :: rest) o :=
  Ends.lift (leads_accept_no hk) h

end Choices

theorem ends_complain (cause : Cause) :
    Ends tape (complain cause : Walk α) depth told rest (.failed ⟨cause, rest⟩ []) := by
  have hcomplaint : complaint (rest.head?.getD tape.mark) cause = Fault.diagnostic tape.mark.line ⟨cause, rest⟩ := by
    cases rest with
    | nil => simp [complaint, Fault.diagnostic, Token.atEnd, Token.location, tape.ends]
    | cons t rest => rfl
  refine Ends.peek ?_
  rw [hcomplaint]
  simp only [Ends, List.map_nil, List.append_nil]
  exact leads_pure _ _

theorem ends_liftM {s : Steps α} {value : α} {unread : List Token}
    (h : Leads tape s ⟨depth, told, rest⟩ value ⟨depth, told, unread⟩) :
    Ends tape (liftM s) depth told rest (.done value unread []) := by
  rw [← bind_pure (liftM s : Walk α)]
  exact Ends.lift h (ends_pure value)

theorem ends_report (t : Token) (behind : List Token) (cause : Cause) (value : α) :
    Ends tape (do report (complaint t cause); return value) depth told rest
      (.done value rest [⟨cause, t :: behind⟩]) :=
  Leads.lift (leads_report _) (leads_pure _ _)

namespace Follows

variable {w : Walk α} {a : Rule α}

theorem fail (cause : Cause) : Follows tape depth (complain cause : Walk α) (.fail cause) :=
  fun _ _ => ends_complain cause

theorem consume (kind : TokenKind) (cause : Cause) :
    Follows tape depth (Cursor.consume kind cause) (.expect kind cause) := by
  intro told rest
  cases rest with
  | nil => exact Ends.check_nil (ends_complain cause)
  | cons t behind =>
    by_cases hkind : t.kind = kind
    · rw [Rule.run_expect hkind]
      exact Ends.check_yes (decide_eq_true hkind) (ends_liftM (leads_advance t))
    · have hrun : (Rule.expect kind cause).run (t :: behind) = .failed ⟨cause, t :: behind⟩ [] := by
        simp [Rule.expect, Rule.atom, Rule.fail, hkind]
      rw [hrun]
      exact Ends.check_no (decide_eq_false hkind) (ends_complain cause)

theorem bind {f : α → Walk β} {g : α → Rule β} (h : Follows tape depth w a)
    (hf : ∀ value, Follows tape depth (f value) (g value)) : Follows tape depth (w >>= f) (a.bind g) :=
  fun told rest => (h told rest).andThen fun value unread told => hf value told unread

theorem map (f : α → β) (h : Follows tape depth w a) : Follows tape depth (do return f (← w)) (a.map f) :=
  fun told rest => (h told rest).andThen fun value _ _ => ends_pure (f value)

theorem left {v : Walk β} {b : Rule β} (h : Follows tape depth w a) (hv : Follows tape depth v b) :
    Follows tape depth (do let value ← w; let _ ← v; return value) (a.left b) :=
  h.bind fun value => hv.map fun _ => value

theorem left_bind {v : Walk β} {b : Rule β} {γ : Type} {f : α → Walk γ} {g : α → Rule γ} (h : Follows tape depth w a)
    (hv : Follows tape depth v b) (hf : ∀ value, Follows tape depth (f value) (g value)) :
    Follows tape depth (do let value ← w; let _ ← v; f value) ((a.left b).bind g) := by
  have hleft := (h.left hv).bind hf
  simpa only [bind_assoc, pure_bind] using hleft

theorem left_map {v : Walk β} {b : Rule β} {γ : Type} (f : α → γ) (h : Follows tape depth w a)
    (hv : Follows tape depth v b) :
    Follows tape depth (do let value ← w; let _ ← v; return f value) ((a.left b).map f) := by
  have hleft := (h.left hv).map f
  simpa only [bind_assoc, pure_bind] using hleft

theorem after {k : TokenKind → Bool} {yes no : Walk α} {yes' : Token → Rule α} {no' : Rule α}
    (hyes : ∀ told t behind, t :: behind <:+ tape.body → Ends tape yes depth told behind ((yes' t).run behind))
    (hno : Follows tape depth no no') :
    Follows tape depth (do if ← Cursor.accept k then yes else no) (.after k yes' no') := by
  intro told rest
  cases rest with
  | nil => exact Ends.accept_nil (hno told [])
  | cons t behind =>
    cases hk : k t.kind with
    | true =>
      rw [Rule.run_after_yes hk]
      exact Ends.accept_yes hk (hyes told t behind)
    | false =>
      rw [Rule.run_after_no hk]
      exact Ends.accept_no hk (hno told (t :: behind))

theorem refuse {k : TokenKind → Bool} {cause : Token → Cause} (h : Follows tape depth w a) :
    Follows tape depth (do if ← Cursor.check k then complain (cause (← Cursor.peek)) else w) (.refuse k cause a) := by
  intro told rest
  cases rest with
  | nil => exact Ends.check_nil (h told [])
  | cons t behind =>
    cases hk : k t.kind with
    | true =>
      simp only [Rule.refuse, hk, if_true]
      exact Ends.check_yes hk (Ends.peek (ends_complain (cause t)))
    | false =>
      rw [Rule.run_refuse_no hk]
      exact Ends.check_no hk (h told (t :: behind))

theorem followed {k : TokenKind → Bool} {m : α → Walk β} {more : α → List Token → Rule β} {plain : α → β}
    (h : Follows tape depth w a)
    (hm : ∀ value told t behind, t :: behind <:+ tape.body →
      Ends tape (m value) depth told behind ((more value (t :: behind)).run behind)) :
    Follows tape depth (do let value ← w; if ← Cursor.accept k then m value else return plain value)
      (a.followed k more plain) := by
  intro told rest
  refine (h told rest).andThen fun value unread told => ?_
  cases unread with
  | nil => exact Ends.accept_nil (ends_pure (plain value))
  | cons t behind =>
    cases hk : k t.kind with
    | true =>
      simp only [hk, if_true]
      exact Ends.accept_yes hk (hm value told t behind)
    | false =>
      simp only [hk]
      exact Ends.accept_no hk (ends_pure (plain value))

end Follows

/-! ## Expressions -/

/-- a level of the grammar is followed by the walks with one more construct open -/
structure Inside (tape : Tape) (depth : Nat) (inside : Level) : Prop where
  assignment : Follows tape depth (standard.nested standard.assignment) inside.assignment
  unary : Follows tape depth (standard.nested standard.unary) inside.unary
  statement : Follows tape depth (standard.nested standard.statement) inside.statement
  block : Follows tape depth (standard.nested standard.block) inside.block

/-- the loop over the operators of a tier -/
theorem ends_operations {k : Nat} {operand : Rule Expr} (h : Follows tape depth (standard.operands k) operand)
    (left : Expr) :
    Ends tape (standard.operations k left) depth told rest
      (Rule.chainFrom operand (Level.accepts k) (Level.join k) left rest) := by
  -- the loop goes round once for each operator that the rule finds, and the complaints so far are arbitrary
  fun_induction Rule.chainFrom operand (Level.accepts k) (Level.join k) left rest generalizing told with
  | case1 left =>
    rw [Machine.operations]
    exact Ends.check_nil (ends_pure left)
  | case2 left operator behind haccepts right unread reported hrun ih =>
    have hright : Ends tape (standard.operands k) depth told behind _ := h told behind
    rw [hrun] at hright
    rw [Machine.operations]
    exact Ends.check_yes haccepts (Ends.lift (leads_advance operator) (hright.preceded fun _ => ih))
  | case3 left operator behind haccepts fault reported hrun =>
    have hright : Ends tape (standard.operands k) depth told behind _ := h told behind
    rw [hrun] at hright
    rw [Machine.operations]
    exact Ends.check_yes haccepts (Ends.lift (leads_advance operator) hright.failed)
  | case4 left operator behind haccepts =>
    rw [Machine.operations]
    exact Ends.check_no (eq_false_of_ne_true haccepts) (ends_pure left)

theorem follows_operands {inside : Level} (h : Follows tape depth standard.unary inside.signed) (k : Nat) :
    Follows tape depth (standard.operands k) (inside.tier k) := by
  induction k with
  | zero =>
    rw [Machine.operands]
    exact h
  | succ k ih =>
    rw [Machine.operands]
    exact fun told rest => (ih told rest).andThen fun left unread told => ends_operations ih left

namespace Inside

variable {inside : Level}

theorem expression (h : Inside tape depth inside) : Follows tape depth standard.expression inside.expression := by
  rw [Machine.expression]
  exact h.assignment

theorem primary (h : Inside tape depth inside) : Follows tape depth standard.primary inside.primary := by
  intro told rest
  have hgrouping := h.expression.left_map Expr.grouping (.consume .rightParen .expectParenAfterExpression)
  have hother : Ends tape _ depth told rest _ :=
    Follows.after (k := (· = .leftParen)) (fun told _ behind _ => hgrouping told behind)
      (.fail .expectExpression) told rest
  rw [Machine.primary]
  refine Ends.peek ?_
  cases rest with
  | nil =>
    have hnone : Level.atom? tape.mark = none := by simp [Level.atom?, tape.ends]
    simp only [List.head?_nil, Option.getD_none, hnone]
    exact hother
  | cons t behind =>
    simp only [Level.primary, Rule.atom, List.head?_cons, Option.getD_some]
    cases Level.atom? t with
    | some e => exact Ends.lift (leads_advance t) (ends_pure e)
    | none => exact hother

theorem signed (h : Inside tape depth inside) : Follows tape depth standard.unary inside.signed := by
  rw [Machine.unary]
  refine .after (fun told t behind hunread => ?_) h.primary
  exact Ends.lift (leads_previous hunread) (h.unary.map (Expr.unary t) told behind)

theorem assigning (h : Inside tape depth inside) : Follows tape depth standard.assignment inside.assigning := by
  have hoperands : Follows tape depth (standard.operands 6) inside.disjunction := follows_operands h.signed 6
  rw [Machine.assignment]
  refine hoperands.followed fun target told t behind hunread => ?_
  refine Ends.lift (leads_previous hunread) ((h.assignment told behind).andThen fun value unread told => ?_)
  cases target with
  | var name => exact ends_pure _
  | _ => exact ends_report t behind .invalidTarget _

/-! ## Statements -/

theorem conditional (h : Inside tape depth inside) : Follows tape depth standard.conditional inside.conditional := by
  rw [Machine.conditional]
  refine (Follows.consume .leftParen .expectParenAfterIf).bind fun _ => ?_
  refine h.expression.left_bind (.consume .rightParen .expectParenAfterCondition) fun condition => ?_
  exact h.statement.followed fun yes told _ behind _ => h.statement.map (Stmt.branch condition yes) told behind

theorem printing (h : Inside tape depth inside) : Follows tape depth standard.printing inside.printing :=
  h.expression.left_map Stmt.print (.consume .semicolon .expectSemicolonAfterValue)

theorem bare (h : Inside tape depth inside) : Follows tape depth standard.bare inside.bare :=
  h.expression.left_map Stmt.expression (.consume .semicolon .expectSemicolonAfterExpression)

theorem command (h : Inside tape depth inside) : Follows tape depth standard.statement inside.command := by
  rw [Machine.statement]
  refine .after (fun told _ behind _ => h.conditional told behind) ?_
  refine .after (fun told _ behind _ => h.printing told behind) ?_
  refine .after (fun told _ behind _ => h.block.map Stmt.block told behind) ?_
  exact .refuse h.bare

theorem declaring (h : Inside tape depth inside) : Follows tape depth standard.declaring inside.declaring := by
  have hassoc : standard.declaring = (do
      let s ← Cursor.consume .identifier .expectName >>= standard.initialized
      let _ ← Cursor.consume .semicolon .expectSemicolonAfterDeclaration
      return s) := by
    simp only [Machine.declaring, bind_assoc]
  rw [hassoc]
  refine .left (.followed (.consume .identifier .expectName) fun name told _ behind _ => ?_) (.consume _ _)
  exact h.expression.map (fun initial => Stmt.declare name (some initial)) told behind

theorem declared (h : Inside tape depth inside) : Follows tape depth standard.declared inside.declared := by
  rw [Machine.declared]
  exact .after (fun told _ behind _ => h.declaring told behind) h.command

end Inside

/-! ## Sequences -/

theorem leads_declaration_of_done {s : Stmt} {unread : List Token} {reported : List Fault}
    (h : Ends tape standard.declared depth told rest (.done s unread reported)) :
    Leads tape standard.declaration ⟨depth, told, rest⟩ (some s)
      ⟨depth, told ++ reported.map (Fault.diagnostic tape.mark.line), unread⟩ := by
  rw [Machine.declaration]
  exact Leads.bind h (leads_pure _ _)

theorem leads_declaration_of_failed {fault : Fault} {reported : List Fault} (hbody : tape.body ≠ [])
    (h : Ends tape standard.declared depth told rest (.failed fault reported)) :
    Leads tape standard.declaration ⟨depth, told, rest⟩ none
      ⟨depth, told ++ (reported ++ [fault]).map (Fault.diagnostic tape.mark.line), synchronize fault.unread⟩ := by
  rw [Machine.declaration, List.map_append, ← List.append_assoc]
  exact Leads.bind h ((leads_report _).bind ((leads_resume hbody).bind (leads_pure _ _)))

/-- one round of the loop: a declaration that takes the cursor further, and the loop from there -/
theorem leads_declarations_cons {closes : TokenKind → Bool} {read statements : List Stmt} {t : Token} {s : Option Stmt}
    {unread : List Token} {told' : List Diagnostic} {q : Spot} (hcloses : closes t.kind = false)
    (hunread : unread.length ≤ rest.length)
    (h : Leads tape standard.declaration ⟨depth, told, t :: rest⟩ s ⟨depth, told', unread⟩)
    (hlater : Leads tape (standard.declarations closes (read ++ s.toList)) ⟨depth, told', unread⟩ statements q) :
    Leads tape (standard.declarations closes read) ⟨depth, told, t :: rest⟩ statements q := by
  refine .of_unread fun hsuffix => ?_
  have hlength := hsuffix.length_le
  rw [Machine.declarations]
  refine (leads_check_of_eq hcloses).bind (leads_isAtEnd_cons.bind ?_)
  refine (leads_here _).bind (h.bind ((leads_record ?_).bind hlater))
  simp only [List.length_cons] at hlength ⊢
  omega

theorem leads_declarations {statement : Rule Stmt} (h : Follows tape depth standard.declared statement)
    (closes : TokenKind → Bool) (rest : List Token) : ∀ told read,
    Leads tape (standard.declarations closes read) ⟨depth, told, rest⟩
      (read ++ (sequence statement closes rest).statements)
      ⟨depth, told ++ (sequence statement closes rest).faults.map (Fault.diagnostic tape.mark.line),
        (sequence statement closes rest).rest⟩ := by
  -- the loop and the sequence of the grammar stop at the same places and take up again at the same places
  fun_induction sequence statement closes rest with
  | case1 =>
    intro told read
    rw [Machine.declarations]
    simp only [List.append_nil, List.map_nil]
    exact (leads_check_nil closes).bind (leads_isAtEnd_nil.bind (leads_pure _ _))
  | case2 t behind hcloses =>
    intro told read
    rw [Machine.declarations]
    simp only [List.append_nil, List.map_nil]
    exact (leads_check_of_eq hcloses).bind (leads_pure _ _)
  | case3 t behind hcloses s unread reported hrun later ih =>
    intro told read
    have hdeclared := h told (t :: behind)
    have hshorter := statement.shortens (t :: behind)
    rw [hrun] at hdeclared hshorter
    have hlater := ih (told ++ reported.map (Fault.diagnostic tape.mark.line)) (read ++ [s])
    simp only [List.append_assoc, ← List.map_append, List.singleton_append] at hlater
    exact leads_declarations_cons (eq_false_of_ne_true hcloses) (Nat.le_of_lt_succ hshorter)
      (leads_declaration_of_done hdeclared) hlater
  | case4 t behind hcloses fault reported hrun later ih =>
    intro told read
    refine .of_unread fun hsuffix => ?_
    have hbody : tape.body ≠ [] := fun hnil => by simp [hnil] at hsuffix
    have hdeclared := h told (t :: behind)
    have hshorter := statement.shortens (t :: behind)
    rw [hrun] at hdeclared hshorter
    have hlater := ih (told ++ (reported ++ [fault]).map (Fault.diagnostic tape.mark.line)) (read ++ [])
    simp only [List.append_assoc, ← List.map_append, List.singleton_append, List.nil_append] at hlater
    exact leads_declarations_cons (eq_false_of_ne_true hcloses)
      (Nat.le_of_lt_succ (synchronize_length_lt hshorter)) (leads_declaration_of_failed hbody hdeclared) hlater

theorem Follows.block {statement : Rule Stmt} (h : Follows tape depth standard.declared statement) :
    Follows tape depth standard.block (.block statement) := by
  intro told rest
  rw [Machine.block]
  refine Ends.continued (leads_declarations h _ rest told []) fun told => ?_
  exact (Follows.consume .rightBrace .expectBraceAfterBlock).map (fun _ => _) told _

/-! ## Levels -/

theorem Follows.nested {w : Walk α} {a : Rule α} (hdepth : depth < maxNesting) (h : Follows tape (depth + 1) w a) :
    Follows tape depth (standard.nested w) a := by
  intro told rest
  have hroom : ¬ standard.limit ≤ depth := Nat.not_le_of_lt hdepth
  have hrule := h told rest
  generalize a.run rest = o at hrule ⊢
  cases o with
  | done value unread reported =>
    refine (leads_nesting _).bind ?_
    rw [if_neg hroom]
    exact (leads_enter hdepth).bind (Leads.bind hrule (leads_leave.bind (leads_pure _ _)))
  | failed fault reported =>
    refine (leads_nesting _).bind ?_
    rw [if_neg hroom]
    exact (leads_enter hdepth).bind (Leads.bind hrule (leads_leave.bind (leads_pure _ _)))

theorem Follows.full (w : Walk α) : Follows tape maxNesting (standard.nested w) (.fail .tooMuchNesting) := by
  intro told rest
  refine (leads_nesting _).bind ?_
  rw [if_pos (show standard.limit ≤ maxNesting from Nat.le_refl _)]
  exact ends_complain .tooMuchNesting

/-- **All rules are followed**, with as many constructs open as leave the level its room. -/
theorem inside (n : Nat) (h : depth + n = maxNesting) : Inside tape depth (Level.withRoom n) := by
  induction n generalizing depth with
  | zero =>
    obtain rfl : depth = maxNesting := h
    exact ⟨.full _, .full _, .full _, .full _⟩
  | succ n ih =>
    have hinner : Inside tape (depth + 1) (Level.withRoom n) := ih (by omega)
    have hdepth : depth < maxNesting := by omega
    exact ⟨.nested hdepth hinner.assigning, .nested hdepth hinner.signed, .nested hdepth hinner.command,
      .nested hdepth (.block hinner.declared)⟩

/-! ## Whole token lists -/

theorem terminated_eq (tokens : List Token) : ∃ mark later, terminated tokens = Parsing.body tokens ++ mark :: later ∧
    mark.kind = .eof ∧ mark.line = Parsing.endLine tokens := by
  unfold Parsing.endLine
  cases hfind : tokens.find? (·.kind = .eof) with
  | none =>
    have hplain : ∀ t ∈ tokens, t.kind ≠ .eof := by simpa using hfind
    have hbody : Parsing.body tokens = tokens := List.takeWhile_eq_self_iff.2 (by simpa using hplain)
    have hlast : tokens.getLast?.map Token.kind ≠ some .eof := by
      intro hend
      obtain ⟨t, ht, hkind⟩ := Option.map_eq_some_iff.1 hend
      exact hplain t (List.mem_of_getLast? ht) hkind
    refine ⟨.atEnd ((tokens.getLast?.map Token.line).getD 1), [], ?_, rfl, rfl⟩
    rw [terminated, if_neg hlast, hbody]
  | some mark =>
    obtain ⟨hmark, read, later, rfl, hread⟩ := List.find?_eq_some_iff_append.1 hfind
    have hplain : ∀ t ∈ read, t.kind ≠ .eof := by simpa using hread
    have hkind : mark.kind = .eof := of_decide_eq_true hmark
    obtain ⟨more, hmore⟩ : ∃ more, terminated (read ++ mark :: later) = read ++ mark :: later ++ more := by
      unfold terminated
      split
      · exact ⟨[], (List.append_nil _).symm⟩
      · exact ⟨_, rfl⟩
    refine ⟨mark, later ++ more, ?_, hkind, rfl⟩
    rw [hmore, Parsing.body_append_end hplain hkind, List.append_assoc, List.cons_append]

/-- the cursor at the beginning is in front of all tokens up to the first end mark -/
theorem at_start (tokens : List Token) : ∃ tape : Tape, tape.body = Parsing.body tokens ∧
    tape.mark.line = Parsing.endLine tokens ∧ terminated tokens = tape.body ++ tape.mark :: tape.later ∧
    At tape ⟨0, [], tape.body⟩ (start tokens) := by
  obtain ⟨mark, later, hterminated, hkind, hline⟩ := terminated_eq tokens
  have hplain : ∀ t ∈ Parsing.body tokens, t.kind ≠ .eof := fun t ht => by simpa using List.mem_takeWhile_imp ht
  refine ⟨⟨Parsing.body tokens, mark, later, hplain, hkind⟩, rfl, hline, hterminated, ?_⟩
  exact {
    tokens := hterminated
    unread := List.suffix_refl _
    position := Nat.zero_add _
    depth := rfl
    room := Nat.zero_le _
    diagnostics := rfl
    way := {
      sorted := List.pairwise_singleton _ _
      behind := List.forall_mem_singleton.2 (Nat.le_refl 0)
      visited := fun n hn => ⟨0, by simp [Nat.le_zero.1 hn, start]⟩
      sound := List.forall_mem_singleton.2 (Nat.zero_le maxNesting) } }

/-- the whole run, from spot to spot -/
theorem parse_at (tokens : List Token) : ∃ (tape : Tape) (last : Cursor),
    tape.body = Parsing.body tokens ∧ tape.mark.line = Parsing.endLine tokens ∧
    terminated tokens = tape.body ++ tape.mark :: tape.later ∧
    parse tokens = some (.ok ((Parsing.ofTokens tokens).program, last)) ∧
    At tape ⟨0, (Parsing.ofTokens tokens).diagnostics, []⟩ last := by
  obtain ⟨tape, hbody, hline, hterminated, hstart⟩ := at_start tokens
  have hlevel : Inside tape 0 (Level.withRoom maxNesting) := inside maxNesting (Nat.zero_add _)
  obtain ⟨last, hrun, hlast⟩ := leads_declarations hlevel.declared (fun _ => false) tape.body [] [] _ hstart
  refine ⟨tape, last, hbody, hline, hterminated, ?_, ?_⟩
  · rw [hbody] at hrun
    exact hrun
  · rw [Parsing.rest_eq_nil, hbody, hline] at hlast
    exact hlast

/-- **The cursor reads what the grammar reads, and stops where it should.** For every token list, with or without an end
mark, the run ends without a crash, with the statements and the complaints that the grammar has for it, on the first end
mark. On its way the cursor has been at every place up to that mark, has never gone back and never beyond it, and every
declaration has taken it further. Tokens behind the first end mark have no part in the result. -/
theorem parse_eq_ok (tokens : List Token) : ∃ last,
    parse tokens = some (.ok ((Parsing.ofTokens tokens).program, last)) ∧
    last.diagnostics = (Parsing.ofTokens tokens).diagnostics ∧
    last.position = (Parsing.body tokens).length ∧
    (∃ mark, (terminated tokens)[last.position]? = some mark ∧ mark.kind = .eof ∧ mark.line = Parsing.endLine tokens) ∧
    last.trail.Pairwise (fun f g => f.position ≤ g.position) ∧
    (∀ f ∈ last.trail, f.position ≤ last.position) ∧
    (∀ n ≤ last.position, ∃ depth, .place n depth ∈ last.trail) ∧
    (∀ start stop, .declared start stop ∈ last.trail → start < stop) ∧
    ∀ other, Parsing.body other = Parsing.body tokens → Parsing.endLine other = Parsing.endLine tokens →
      ∃ last', parse other = some (.ok ((Parsing.ofTokens tokens).program, last')) ∧
        last'.diagnostics = last.diagnostics := by
  obtain ⟨tape, last, hbody, hline, hterminated, hparse, hlast⟩ := parse_at tokens
  have hposition : last.position = tape.body.length := hlast.position
  refine ⟨last, hparse, hlast.diagnostics, ?_, ⟨tape.mark, ?_, tape.ends, hline⟩, hlast.way.sorted, hlast.way.behind,
    hlast.way.visited, ?_, ?_⟩
  · rw [hposition, hbody]
  · rw [hterminated, hposition, List.getElem?_append_right (Nat.le_refl _), Nat.sub_self]
    rfl
  · exact fun start stop hmem => hlast.way.sound _ hmem
  · intro other hsame hline'
    obtain ⟨_, last', -, -, -, hparse', hlast'⟩ := parse_at other
    have hreading : Parsing.ofTokens other = Parsing.ofTokens tokens := by
      rw [Parsing.ofTokens, Parsing.ofTokens, hsame, hline']
    rw [hreading] at hparse' hlast'
    exact ⟨last', hparse', hlast'.diagnostics.trans hlast.diagnostics.symm⟩

end Cursor

end Scriptlet
