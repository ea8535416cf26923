/-
Moved texts. A text whose tokens are moved to other lines is read as before: the tree is the tree that was read, moved,
and every fault is the fault that was found, moved with the tokens at which it was found. This holds of every text,
whether it is accepted or not, as no rule ever looks at a line.

`Rule.Follows f g a b` says it of one rule: what `a` reads in a moved text is what `b` reads in the text itself, with
its tokens moved by `f` and its value by `g`. Two rules stand in it because a rule may hold tokens that were read before
it, such as the one behind `or`; all others follow themselves. There is one lemma for each way of composing rules; for
the rules of one level it then follows from the level inside (`Level.Follows.enclosing`).

- `Level.follows_withRoom`: the rules of every level.
- `Parsing.read_mapTokens`: whole texts.
-/
import Scriptlet.Proofs.Depth
import Scriptlet.Proofs.Layout

namespace Scriptlet

variable {α β : Type}

def Fault.mapTokens (f : Token → Token) (fault : Fault) : Fault := { fault with unread := fault.unread.map f }

namespace Outcome

/-- the outcome with moved tokens, and the value that belongs to them -/
def mapTokens (f : Token → Token) (g : α → β) : Outcome α → Outcome β
  | .done value rest reported => .done (g value) (rest.map f) (reported.map (Fault.mapTokens f))
  | .failed fault reported => .failed (fault.mapTokens f) (reported.map (Fault.mapTokens f))

theorem mapTokens_preceded (f : Token → Token) (g : α → β) (earlier : List Fault) (o : Outcome α) :
    (o.preceded earlier).mapTokens f g = (o.mapTokens f g).preceded (earlier.map (Fault.mapTokens f)) := by
  cases o <;> simp [preceded, mapTokens]

/-- readings in turn are moved one by one -/
theorem mapTokens_andThen {γ δ : Type} {f : Token → Token} {g : α → γ} {h : β → δ} {next : α → List Token → Outcome β}
    {next' : γ → List Token → Outcome δ} (o : Outcome α)
    (hnext : ∀ value rest, next' (g value) (rest.map f) = (next value rest).mapTokens f h) :
    (o.mapTokens f g).andThen next' = (o.andThen next).mapTokens f h := by
  cases o with
  | done value rest reported =>
    change (next' (g value) (rest.map f)).preceded _ = ((next value rest).preceded reported).mapTokens f h
    rw [hnext, mapTokens_preceded]
  | failed fault reported => rfl

end Outcome

/-! ## Rules -/

/-- what `a` reads in a moved text is what `b` reads in the text itself, moved -/
def Rule.Follows (f : Token → Token) (g : α → α) (a b : Rule α) : Prop :=
  ∀ tokens, a.run (tokens.map f) = (b.run tokens).mapTokens f g

namespace Rule

variable {f : Token → Token} {g : α → α} {g' : β → β}

theorem follows_fail (cause : Cause) : Follows f g (fail cause) (fail cause) := fun _ => rfl

theorem Follows.atom {F : Token → Option α} {otherwise : Rule α} (hF : ∀ t, F (f t) = (F t).map g)
    (ho : Follows f g otherwise otherwise) : Follows f g (atom F otherwise) (atom F otherwise) := by
  intro tokens
  cases tokens with
  | nil => exact ho []
  | cons t rest =>
    simp only [Rule.atom, List.map_cons, hF t]
    cases F t with
    | none => exact ho (t :: rest)
    | some value => rfl

theorem follows_expect (hf : Moves f) (kind : TokenKind) (cause : Cause) :
    Follows f f (expect kind cause) (expect kind cause) := by
  refine .atom (fun t => ?_) (follows_fail cause)
  rw [hf.kind]
  split_ifs <;> rfl

theorem Follows.bind {a a' : Rule α} {k k' : α → Rule β} (ha : Follows f g a a')
    (hk : ∀ value, Follows f g' (k (g value)) (k' value)) : Follows f g' (a.bind k) (a'.bind k') := by
  intro tokens
  simp only [Rule.bind, ha tokens]
  exact Outcome.mapTokens_andThen _ fun value rest => hk value rest

theorem Follows.conclude {a a' : Rule α} {F F' : α → β × List Fault} (ha : Follows f g a a')
    (hF : ∀ value, F (g value) = (g' (F' value).1, (F' value).2.map (Fault.mapTokens f))) :
    Follows f g' (a.conclude F) (a'.conclude F') := by
  intro tokens
  simp only [Rule.conclude, ha tokens]
  refine Outcome.mapTokens_andThen _ fun value rest => ?_
  rw [hF]
  rfl

theorem Follows.map {a a' : Rule α} {F F' : α → β} (ha : Follows f g a a') (hF : ∀ value, F (g value) = g' (F' value)) :
    Follows f g' (a.map F) (a'.map F') :=
  ha.conclude fun value => by rw [hF]; rfl

theorem Follows.right {a a' : Rule α} {b b' : Rule β} (ha : Follows f g a a') (hb : Follows f g' b b') :
    Follows f g' (a.right b) (a'.right b') :=
  ha.bind fun _ => hb

theorem Follows.left {a a' : Rule α} {b b' : Rule β} (ha : Follows f g a a') (hb : Follows f g' b b') :
    Follows f g (a.left b) (a'.left b') :=
  ha.bind fun _ => hb.map fun _ => rfl

theorem Follows.after (hf : Moves f) {p : TokenKind → Bool} {yes yes' : Token → Rule α} {no no' : Rule α}
    (hyes : ∀ t, Follows f g (yes (f t)) (yes' t)) (hno : Follows f g no no') :
    Follows f g (after p yes no) (after p yes' no') := by
  intro tokens
  cases tokens with
  | nil => exact hno []
  | cons t rest =>
    simp only [Rule.after, List.map_cons, hf.kind]
    split_ifs
    · exact hyes t rest
    · exact hno (t :: rest)

theorem Follows.refuse (hf : Moves f) {p : TokenKind → Bool} {cause : Token → Cause} {otherwise otherwise' : Rule α}
    (hcause : ∀ t, cause (f t) = cause t) (ho : Follows f g otherwise otherwise') :
    Follows f g (refuse p cause otherwise) (refuse p cause otherwise') := by
  intro tokens
  cases tokens with
  | nil => exact ho []
  | cons t rest =>
    simp only [Rule.refuse, List.map_cons, hf.kind, hcause]
    split_ifs
    · rfl
    · exact ho (t :: rest)

theorem Follows.followed (hf : Moves f) {p : TokenKind → Bool} {a a' : Rule α} {more more' : α → List Token → Rule β}
    {plain plain' : α → β} (ha : Follows f g a a')
    (hmore : ∀ value here, Follows f g' (more (g value) (here.map f)) (more' value here))
    (hplain : ∀ value, plain (g value) = g' (plain' value)) :
    Follows f g' (a.followed p more plain) (a'.followed p more' plain') := by
  intro tokens
  simp only [Rule.followed, ha tokens]
  refine Outcome.mapTokens_andThen _ fun value rest => ?_
  cases rest with
  | nil => simp [Outcome.mapTokens, hplain]
  | cons t behind =>
    simp only [List.map_cons, hf.kind]
    split_ifs
    · exact hmore value (t :: behind) behind
    · simp [Outcome.mapTokens, hplain]

/-! ## Repetition -/

section Chain

variable {operand : Rule Expr} {p : TokenKind → Bool} {join : Expr → Token → Expr → Expr}

theorem chainFrom_mapTokens (hf : Moves f) (hoperand : Follows f (Expr.mapTokens f) operand operand)
    (hjoin : ∀ left operator right,
      (join left operator right).mapTokens f = join (left.mapTokens f) (f operator) (right.mapTokens f))
    (left : Expr) (tokens : List Token) : chainFrom operand p join (left.mapTokens f) (tokens.map f) =
      (chainFrom operand p join left tokens).mapTokens f (Expr.mapTokens f) := by
  fun_induction chainFrom operand p join left tokens with
  | case1 left => exact chainFrom_stop (by simp)
  | case2 left operator behind hp right rest reported hright ih =>
    have hmoved := hoperand behind
    rw [hright] at hmoved
    rw [List.map_cons, chainFrom_step (by rwa [hf.kind]), hmoved, Outcome.mapTokens_preceded, ← ih, hjoin]
    rfl
  | case3 left operator behind hp fault reported hright =>
    have hmoved := hoperand behind
    rw [hright] at hmoved
    rw [List.map_cons, chainFrom_step (by rwa [hf.kind]), hmoved]
    rfl
  | case4 left operator behind hp =>
    refine chainFrom_stop ?_
    simpa [hf.kind] using hp

theorem Follows.chain (hf : Moves f) (hoperand : Follows f (Expr.mapTokens f) operand operand)
    (hjoin : ∀ left operator right,
      (join left operator right).mapTokens f = join (left.mapTokens f) (f operator) (right.mapTokens f)) :
    Follows f (Expr.mapTokens f) (operand.chain p join) (operand.chain p join) := by
  intro tokens
  simp only [Rule.chain, hoperand tokens]
  exact Outcome.mapTokens_andThen _ fun left rest => chainFrom_mapTokens hf hoperand hjoin left rest

end Chain

end Rule

/-! ## Sequences -/

theorem synchronize_mapTokens {f : Token → Token} (hf : Moves f) (tokens : List Token) :
    synchronize (tokens.map f) = (synchronize tokens).map f := by
  fun_induction synchronize tokens with
  | case1 => rfl
  | case2 t rest hsemicolon =>
    rw [List.map_cons, synchronize.eq_def]
    simp [hf.kind, hsemicolon]
  | case3 t hsemicolon => simp [synchronize, hf.kind, hsemicolon]
  | case4 t hsemicolon u behind hbegins => simp [synchronize, hf.kind, hsemicolon, hbegins]
  | case5 t hsemicolon u behind hbegins ih =>
    rw [← ih, List.map_cons, List.map_cons, synchronize]
    simp [hf.kind, hsemicolon, hbegins]

def Sequence.mapTokens (f : Token → Token) (q : Sequence) : Sequence :=
  ⟨Stmt.mapTokensAll f q.statements, q.rest.map f, q.faults.map (Fault.mapTokens f)⟩

section Sequences

variable {statement : Rule Stmt} {closes : TokenKind → Bool} {t : Token} {behind : List Token}

/-- a sequence goes on behind a statement, or behind its fault -/
theorem sequence_next (ht : closes t.kind = false) : sequence statement closes (t :: behind) =
    match statement.run (t :: behind) with
    | .done s rest reported =>
      let later := sequence statement closes rest
      ⟨s :: later.statements, later.rest, reported ++ later.faults⟩
    | .failed fault reported =>
      let later := sequence statement closes (synchronize fault.unread)
      ⟨later.statements, later.rest, reported ++ fault :: later.faults⟩ := by
  rw [sequence, if_neg (by simp [ht])]
  split <;> rename_i h <;> rw [h]

theorem sequence_mapTokens {f : Token → Token} (hf : Moves f)
    (hstatement : Rule.Follows f (Stmt.mapTokens f) statement statement) (tokens : List Token) :
    sequence statement closes (tokens.map f) = (sequence statement closes tokens).mapTokens f := by
  fun_induction sequence statement closes tokens with
  | case1 => exact sequence_closed (by simp)
  | case2 t behind hcloses =>
    refine sequence_closed ?_
    simpa [hf.kind] using hcloses
  | case3 t behind hcloses s rest reported hs later ih =>
    have hmoved := hstatement (t :: behind)
    rw [hs] at hmoved
    rw [List.map_cons, sequence_next (by simpa [hf.kind] using hcloses), ← List.map_cons, hmoved]
    simp [Outcome.mapTokens, Sequence.mapTokens, Stmt.mapTokensAll, ih, later]
  | case4 t behind hcloses fault reported hs later ih =>
    have hmoved := hstatement (t :: behind)
    rw [hs] at hmoved
    rw [List.map_cons, sequence_next (by simpa [hf.kind] using hcloses), ← List.map_cons, hmoved]
    simp [Outcome.mapTokens, Fault.mapTokens, synchronize_mapTokens hf, Sequence.mapTokens, ih, later]

theorem Rule.Follows.block {f : Token → Token} (hf : Moves f)
    (hstatement : Follows f (Stmt.mapTokens f) statement statement) :
    Follows f (Stmt.mapTokensAll f) (Rule.block statement) (Rule.block statement) := by
  intro tokens
  have hbrace : ∀ body : List Stmt, Follows f (Stmt.mapTokensAll f)
      ((expect .rightBrace .expectBraceAfterBlock).map fun _ => Stmt.mapTokensAll f body)
      ((expect .rightBrace .expectBraceAfterBlock).map fun _ => body) := by
    intro body
    exact (follows_expect hf _ _).map fun _ => rfl
  simp only [Rule.block, sequence_mapTokens hf hstatement, Sequence.mapTokens]
  rw [hbrace, Outcome.mapTokens_preceded]

end Sequences

/-! ## Levels -/

/-- the rules of a level read moved texts as before -/
structure Level.Follows (f : Token → Token) (level : Level) : Prop where
  assignment : Rule.Follows f (Expr.mapTokens f) level.assignment level.assignment
  unary : Rule.Follows f (Expr.mapTokens f) level.unary level.unary
  statement : Rule.Follows f (Stmt.mapTokens f) level.statement level.statement
  declaration : Rule.Follows f (Stmt.mapTokens f) level.declaration level.declaration
  block : Rule.Follows f (Stmt.mapTokensAll f) level.block level.block

namespace Level

theorem atom?_mapTokens {f : Token → Token} (hf : Moves f) (t : Token) :
    atom? (f t) = (atom? t).map (Expr.mapTokens f) := by
  unfold atom?
  rw [hf.kind]
  split <;> rfl

/-- a moved target is as good as the target -/
theorem assignTo_mapTokens (f : Token → Token) (target : Expr) (here : List Token) (value : Expr) :
    assignTo (target.mapTokens f) (here.map f) (value.mapTokens f) =
      ((assignTo target here value).1.mapTokens f, (assignTo target here value).2.map (Fault.mapTokens f)) := by
  cases target <;> rfl

namespace Follows

variable {f : Token → Token} (hf : Moves f) {inside : Level} (h : inside.Follows f)

include hf h

theorem closedBy (kind : TokenKind) (cause : Cause) : Rule.Follows f (Expr.mapTokens f)
    (inside.expression.left (.expect kind cause)) (inside.expression.left (.expect kind cause)) :=
  h.assignment.left (Rule.follows_expect hf kind cause)

theorem primary : Rule.Follows f (Expr.mapTokens f) inside.primary inside.primary := by
  refine .atom (atom?_mapTokens hf) (.after hf (fun t => ?_) (Rule.follows_fail _))
  exact (h.closedBy hf _ _).map fun _ => rfl

theorem signed : Rule.Follows f (Expr.mapTokens f) inside.signed inside.signed :=
  .after hf (fun _ => h.unary.map fun _ => rfl) (h.primary hf)

/-- each tier is a chain over the tier below -/
theorem tier (k : Nat) : Rule.Follows f (Expr.mapTokens f) (inside.tier k) (inside.tier k) := by
  induction k with
  | zero => exact h.signed hf
  | succ k ih =>
    refine ih.chain hf fun left operator right => ?_
    unfold join
    split_ifs <;> rfl

theorem assigning : Rule.Follows f (Expr.mapTokens f) inside.assigning inside.assigning := by
  have hdisjunction := h.tier hf 6
  rw [← disjunction_eq_tier] at hdisjunction
  refine hdisjunction.followed hf (fun target here => ?_) fun _ => rfl
  exact h.assignment.conclude (assignTo_mapTokens f target here)

theorem conditional : Rule.Follows f (Stmt.mapTokens f) inside.conditional inside.conditional := by
  refine (Rule.follows_expect hf _ _).right ((h.closedBy hf _ _).bind fun condition => ?_)
  refine h.statement.followed hf (fun yes here => ?_) fun _ => rfl
  exact h.statement.map fun _ => rfl

theorem command : Rule.Follows f (Stmt.mapTokens f) inside.command inside.command := by
  refine .after hf (fun _ => h.conditional hf) (.after hf (fun _ => ?print) (.after hf (fun _ => ?block)
    (.refuse hf (fun t => ?reserved) ?bare)))
  case print => exact (h.closedBy hf _ _).map fun _ => rfl
  case block => exact h.block.map fun _ => rfl
  case reserved => rw [hf.lexeme]
  case bare => exact (h.closedBy hf _ _).map fun _ => rfl

theorem declared : Rule.Follows f (Stmt.mapTokens f) inside.declared inside.declared := by
  refine .after hf (fun _ => .left ?_ (Rule.follows_expect hf _ _)) (h.command hf)
  refine (Rule.follows_expect hf _ _).followed hf (fun name here => ?_) fun _ => rfl
  exact h.assignment.map fun _ => rfl

theorem enclosing : inside.enclosing.Follows f where
  assignment := h.assigning hf
  unary := h.signed hf
  statement := h.command hf
  declaration := h.declared hf
  block := .block hf (h.declared hf)

end Follows

theorem follows_withRoom {f : Token → Token} (hf : Moves f) (n : Nat) : (withRoom n).Follows f := by
  induction n with
  | zero =>
    exact ⟨Rule.follows_fail _, Rule.follows_fail _, Rule.follows_fail _, Rule.follows_fail _, Rule.follows_fail _⟩
  | succ n ih => exact ih.enclosing hf

end Level

/-! ## Whole texts -/

namespace Parsing

theorem body_mapTokens {f : Token → Token} (hf : Moves f) (tokens : List Token) :
    body (tokens.map f) = (body tokens).map f := by
  rw [body, body, List.takeWhile_map]
  simp [Function.comp_def, hf.kind]

/-- **Moved texts are read as before.** Whatever tokens stand in a text, the moved text is read as the moved statements,
and the same faults are found in it, moved. -/
theorem read_mapTokens {f : Token → Token} (hf : Moves f) (tokens : List Token) :
    sequence outermost.declaration (fun _ => false) (body (tokens.map f)) =
      (sequence outermost.declaration (fun _ => false) (body tokens)).mapTokens f := by
  rw [body_mapTokens hf]
  exact sequence_mapTokens hf (Level.follows_withRoom hf (maxNesting + 1)).declaration (body tokens)

end Parsing

end Scriptlet
