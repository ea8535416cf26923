/-
Grammar rules and what they are composed of.

A rule reads from the left of a token list. It ends with a value and the tokens after it, or with a fault; either way it
may have reported faults on the way that did not stop it. A fault says what was wrong and which tokens were unread
there: the first of them is the token to blame, and if there is none, the end of the source.

A rule reads at least one token whenever it ends well; that fact is part of a rule, so a repetition such as `chain` ends
because the token list gets shorter each time round.

In a sequence of statements reading recovers from faults: a statement that fails is left out, its fault is reported, and
reading goes on behind it at the next place where a statement can begin. Recovery always drops the token to blame, so a
sequence ends for every token list.
-/
import Scriptlet.Tree

namespace Scriptlet

/-! ## Outcomes -/

inductive Cause where
  | expectName
  | expectSemicolonAfterDeclaration
  | expectSemicolonAfterValue
  | expectSemicolonAfterExpression
  | expectParenAfterIf
  | expectParenAfterCondition
  | expectParenAfterExpression
  | expectBraceAfterBlock
  | expectExpression
  | invalidTarget
  | reserved (word : String)
  | tooMuchNesting
  deriving DecidableEq

def Cause.message : Cause → String
  | .expectName => "Expect variable name."
  | .expectSemicolonAfterDeclaration => "Expect ';' after variable declaration."
  | .expectSemicolonAfterValue => "Expect ';' after value."
  | .expectSemicolonAfterExpression => "Expect ';' after expression."
  | .expectParenAfterIf => "Expect '(' after 'if'."
  | .expectParenAfterCondition => "Expect ')' after if condition."
  | .expectParenAfterExpression => "Expect ')' after expression."
  | .expectBraceAfterBlock => "Expect '\x7d' after block."
  | .expectExpression => "Expect expression."
  | .invalidTarget => "Invalid assignment target."
  | .reserved word => "'" ++ word ++ "' is reserved but not supported."
  | .tooMuchNesting => "Too much nesting."

/-- a cause and the tokens unread where it arose -/
structure Fault where
  cause : Cause
  unread : List Token
  deriving DecidableEq

/-- a fault as it is told, in a source that ends on the given line -/
def Fault.diagnostic (endLine : Nat) (fault : Fault) : Diagnostic :=
  let token := fault.unread.head?.getD (.atEnd endLine)
  .grammatical token.line token.location fault.cause.message

/-- how reading ended, and the faults reported on the way -/
inductive Outcome (α : Type) where
  | done (value : α) (rest : List Token) (reported : List Fault)
  | failed (fault : Fault) (reported : List Fault)

namespace Outcome

variable {α β : Type}

/-- the outcome after faults that were reported earlier -/
def preceded (earlier : List Fault) : Outcome α → Outcome α
  | .done value rest reported => .done value rest (earlier ++ reported)
  | .failed fault reported => .failed fault (earlier ++ reported)

/-- reads on where reading ended well -/
def andThen (o : Outcome α) (next : α → List Token → Outcome β) : Outcome β :=
  match o with
  | .done value rest reported => (next value rest).preceded reported
  | .failed fault reported => .failed fault reported

/-- at most `n` tokens are left -/
def Keeps (n : Nat) : Outcome α → Prop
  | .done _ rest _ => rest.length ≤ n
  | .failed fault _ => fault.unread.length ≤ n

/-- fewer than `n` tokens are left; a fault may be blamed on the first token -/
def Shortens (n : Nat) : Outcome α → Prop
  | .done _ rest _ => rest.length < n
  | .failed fault _ => fault.unread.length ≤ n

theorem Shortens.keeps {o : Outcome α} {n : Nat} (h : o.Shortens n) : o.Keeps n := by
  cases o with
  | done _ _ _ => exact Nat.le_of_lt h
  | failed _ _ => exact h

theorem Keeps.shortens {o : Outcome α} {m n : Nat} (h : o.Keeps m) (lt : m < n) : o.Shortens n := by
  cases o with
  | done _ _ _ => exact Nat.lt_of_le_of_lt h lt
  | failed _ _ => exact Nat.le_of_lt (Nat.lt_of_le_of_lt h lt)

theorem Shortens.mono {o : Outcome α} {m n : Nat} (h : o.Shortens m) (le : m ≤ n) : o.Shortens n := by
  cases o with
  | done _ _ _ => exact Nat.lt_of_lt_of_le h le
  | failed _ _ => exact Nat.le_trans h le

theorem Shortens.preceded {o : Outcome α} {n : Nat} (h : o.Shortens n) (earlier : List Fault) :
    (o.preceded earlier).Shortens n := by
  cases o <;> exact h

theorem Shortens.andThen {o : Outcome α} {n : Nat} {next : α → List Token → Outcome β} (h : o.Shortens n)
    (keeps : ∀ value rest, (next value rest).Keeps rest.length) : (o.andThen next).Shortens n := by
  cases o with
  | done value rest reported => exact ((keeps value rest).shortens h).preceded reported
  | failed _ _ => exact h

end Outcome

/-! ## Rules -/

/-- reads a prefix of a token list -/
structure Rule (α : Type) where
  run : List Token → Outcome α
  shortens : ∀ tokens, (run tokens).Shortens tokens.length

namespace Rule

variable {α β : Type}

def fail (cause : Cause) : Rule α where
  run tokens := .failed ⟨cause, tokens⟩ []
  shortens _ := Nat.le_refl _

/-- reads the next token if `f` makes something of it, and leaves it to another rule if not -/
def atom (f : Token → Option α) (otherwise : Rule α) : Rule α where
  run
    | [] => otherwise.run []
    | t :: rest =>
      match f t with
      | some value => .done value rest []
      | none => otherwise.run (t :: rest)
  shortens tokens := by
    cases tokens with
    | nil => exact otherwise.shortens []
    | cons t rest =>
      dsimp only
      split
      · exact Nat.lt_succ_self _
      · exact otherwise.shortens _

def expect (kind : TokenKind) (cause : Cause) : Rule Token :=
  atom (fun t => if t.kind = kind then some t else none) (fail cause)

/-- one rule and then another, which may depend on what the first has read -/
def bind (a : Rule α) (f : α → Rule β) : Rule β where
  run tokens := (a.run tokens).andThen fun value rest => (f value).run rest
  shortens tokens := (a.shortens tokens).andThen fun value rest => ((f value).shortens rest).keeps

/-- a rule whose value is turned into another one, which may be worth a report -/
def conclude (a : Rule α) (f : α → β × List Fault) : Rule β where
  run tokens := (a.run tokens).andThen fun value rest => .done (f value).1 rest (f value).2
  shortens tokens := (a.shortens tokens).andThen fun _ _ => Nat.le_refl _

def map (f : α → β) (a : Rule α) : Rule β := a.conclude fun value => (f value, [])

/-- two rules in turn, of which the second one's value is kept -/
def right (a : Rule α) (b : Rule β) : Rule β := a.bind fun _ => b

/-- two rules in turn, of which the first one's value is kept -/
def left (a : Rule α) (b : Rule β) : Rule α := a.bind fun value => b.map fun _ => value

/-- reads a token of a kind that `p` accepts and goes on behind it, or takes another way without reading one -/
def after (p : TokenKind → Bool) (yes : Token → Rule α) (no : Rule α) : Rule α where
  run
    | [] => no.run []
    | t :: rest => if p t.kind then (yes t).run rest else no.run (t :: rest)
  shortens tokens := by
    cases tokens with
    | nil => exact no.shortens []
    | cons t rest =>
      dsimp only
      split
      · exact ((yes t).shortens rest).mono (Nat.le_succ _)
      · exact no.shortens _

/-- fails at a token of a kind that `p` accepts -/
def refuse (p : TokenKind → Bool) (cause : Token → Cause) (otherwise : Rule α) : Rule α where
  run
    | [] => otherwise.run []
    | t :: rest => if p t.kind then .failed ⟨cause t, t :: rest⟩ [] else otherwise.run (t :: rest)
  shortens tokens := by
    cases tokens with
    | nil => exact otherwise.shortens []
    | cons t rest =>
      dsimp only
      split
      · exact Nat.le_refl _
      · exact otherwise.shortens _

/-- a rule that may be followed by a token of a kind that `p` accepts and more behind it; the tokens from that one on
are known to what follows -/
def followed (a : Rule α) (p : TokenKind → Bool) (more : α → List Token → Rule β) (plain : α → β) : Rule β where
  run tokens := (a.run tokens).andThen fun value rest =>
    match rest with
    | [] => .done (plain value) [] []
    | t :: behind =>
      if p t.kind then (more value (t :: behind)).run behind else .done (plain value) (t :: behind) []
  shortens tokens := (a.shortens tokens).andThen fun value rest => by
    cases rest with
    | nil => exact Nat.le_refl _
    | cons t behind =>
      dsimp only
      split
      · exact (((more value (t :: behind)).shortens behind).mono (Nat.le_succ _)).keeps
      · exact Nat.le_refl _

/-- operators and right operands, joined to what stands on their left as they are read -/
def chainFrom (operand : Rule Expr) (p : TokenKind → Bool) (join : Expr → Token → Expr → Expr) (left : Expr)
    (tokens : List Token) : Outcome Expr :=
  match tokens with
  | [] => .done left [] []
  | operator :: behind =>
    if p operator.kind then
      match _h : operand.run behind with
      | .done right rest reported =>
        (chainFrom operand p join (join left operator right) rest).preceded reported
      | .failed fault reported => .failed fault reported
    else .done left (operator :: behind) []
termination_by tokens.length
decreasing_by
  have shorter := operand.shortens behind
  rw [_h] at shorter
  exact Nat.lt_succ_of_lt shorter

theorem chainFrom_keeps (operand : Rule Expr) (p : TokenKind → Bool) (join : Expr → Token → Expr → Expr) (left : Expr)
    (tokens : List Token) : (chainFrom operand p join left tokens).Keeps tokens.length := by
  fun_induction chainFrom operand p join left tokens with
  | case1 => exact Nat.le_refl _
  | case2 left operator behind accepted right rest reported h ih =>
    have shorter := operand.shortens behind
    rw [h] at shorter
    exact ((ih.shortens (Nat.lt_succ_of_lt shorter)).preceded reported).keeps
  | case3 left operator behind accepted fault reported h =>
    have shorter := operand.shortens behind
    rw [h] at shorter
    exact Nat.le_succ_of_le shorter
  | case4 => exact Nat.le_refl _

/-- operands with operators between them, grouped from the left -/
def chain (operand : Rule Expr) (p : TokenKind → Bool) (join : Expr → Token → Expr → Expr) : Rule Expr where
  run tokens := (operand.run tokens).andThen fun left rest => chainFrom operand p join left rest
  shortens tokens := (operand.shortens tokens).andThen fun left rest => chainFrom_keeps operand p join left rest

end Rule

/-! ## Sequences -/

/-- the kinds before which a statement can begin again -/
def TokenKind.beginsStatement : TokenKind → Bool
  | .kwFun | .kwVar | .kwFor | .kwIf | .kwWhile | .kwPrint | .kwReturn => true
  | _ => false

/-- drops the token to blame and what follows it, up to and including a semicolon or up to a kind that begins a
statement -/
def synchronize : List Token → List Token
  | [] => []
  | t :: rest =>
    if t.kind = .semicolon then rest
    else
      match rest with
      | [] => []
      | u :: behind => if u.kind.beginsStatement then u :: behind else synchronize (u :: behind)

theorem synchronize_length (t : Token) (rest : List Token) : (synchronize (t :: rest)).length ≤ rest.length := by
  induction rest generalizing t with
  | nil => by_cases h : t.kind = .semicolon <;> simp [synchronize, h]
  | cons u behind ih =>
    unfold synchronize
    split
    · exact Nat.le_refl _
    dsimp only
    split
    · exact Nat.le_refl _
    · exact Nat.le_succ_of_le (ih u)

theorem synchronize_length_lt {unread : List Token} {n : Nat} (h : unread.length ≤ n + 1) :
    (synchronize unread).length < n + 1 := by
  cases unread with
  | nil => exact Nat.succ_pos _
  | cons t rest => exact Nat.lt_succ_of_le (Nat.le_trans (synchronize_length t rest) (Nat.le_of_succ_le_succ h))

structure Sequence where
  statements : List Stmt
  rest : List Token
  faults : List Fault

/-- reads statements up to a token of a kind that `closes` accepts, or up to the end -/
def sequence (statement : Rule Stmt) (closes : TokenKind → Bool) (tokens : List Token) : Sequence :=
  match tokens with
  | [] => ⟨[], [], []⟩
  | t :: behind =>
    if closes t.kind then ⟨[], t :: behind, []⟩
    else
      match _h : statement.run (t :: behind) with
      | .done s rest reported =>
        let later := sequence statement closes rest
        ⟨s :: later.statements, later.rest, reported ++ later.faults⟩
      | .failed fault reported =>
        let later := sequence statement closes (synchronize fault.unread)
        ⟨later.statements, later.rest, reported ++ fault :: later.faults⟩
termination_by tokens.length
decreasing_by
  all_goals
    have shorter := statement.shortens (t :: behind)
    rw [_h] at shorter
  · exact shorter
  · exact synchronize_length_lt shorter

theorem sequence_rest_length (statement : Rule Stmt) (closes : TokenKind → Bool) (tokens : List Token) :
    (sequence statement closes tokens).rest.length ≤ tokens.length := by
  fun_induction sequence statement closes tokens with
  | case1 => exact Nat.le_refl _
  | case2 => exact Nat.le_refl _
  | case3 t behind _ s rest reported h later ih =>
    have shorter := statement.shortens (t :: behind)
    rw [h] at shorter
    exact Nat.le_trans ih (Nat.le_of_lt shorter)
  | case4 t behind _ fault reported h later ih =>
    have shorter := statement.shortens (t :: behind)
    rw [h] at shorter
    exact Nat.le_trans ih (Nat.le_of_lt (synchronize_length_lt shorter))

/-- statements up to a closing brace, which is read too -/
def Rule.block (statement : Rule Stmt) : Rule (List Stmt) where
  run tokens :=
    let body := sequence statement (· = .rightBrace) tokens
    (((Rule.expect .rightBrace .expectBraceAfterBlock).map fun _ => body.statements).run body.rest).preceded body.faults
  shortens tokens :=
    ((Rule.shortens _ _).mono (sequence_rest_length statement (· = .rightBrace) tokens)).preceded _

end Scriptlet
