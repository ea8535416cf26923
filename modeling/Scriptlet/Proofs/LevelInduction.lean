/-
Properties that composed rules have from their parts. What is said of all rules of the grammar is often said of each
rule alone, and a rule has it because its parts have it: then it is enough to look at every way of composing rules
(`Rule.Closed`). The grammar is put together in the same way whatever is said of it, so the walk through the rules of a
level and from level to level is made here, once.

Two properties go through the walk together, one of expressions and one of statements, as little can go wrong in an
expression. An expression inside of a statement has both. The property of statements may depend on the room that is
left: in a block it is the one for one more level. Of an assignment the property has to be shown as a whole, since it is
the only rule that looks back at a token it has passed.

What is not a matter of composition alone is not covered: what a rule reads (`Level.Forms`, `Level.Sound`), which
differs from rule to rule, and readings of two texts side by side (`Level.Follows`).

- `Level.Closed.withRoom`: the rules of every level have what passes from parts to wholes.
-/
import Scriptlet.Proofs.Canonical

namespace Scriptlet

variable {α β : Type}

/-! ## Rules -/

/-- a rule has the property if all rules have it that it is composed of; reading may fail for any cause but an invalid
target, which stops nothing -/
structure Rule.Closed (P : (α : Type) → Rule α → Prop) : Prop where
  fail : ∀ {α : Type} {cause : Cause}, cause ≠ .invalidTarget → P α (.fail cause)
  atom : ∀ {α : Type} {f : Token → Option α} {otherwise : Rule α}, P α otherwise → P α (.atom f otherwise)
  bind : ∀ {α β : Type} {a : Rule α} {f : α → Rule β}, P α a → (∀ value, P β (f value)) → P β (a.bind f)
  map : ∀ {α β : Type} {a : Rule α} (f : α → β), P α a → P β (a.map f)
  after : ∀ {α : Type} {p : TokenKind → Bool} {yes : Token → Rule α} {no : Rule α}, (∀ t, P α (yes t)) → P α no →
    P α (.after p yes no)
  refuse : ∀ {α : Type} {p : TokenKind → Bool} {cause : Token → Cause} {otherwise : Rule α},
    (∀ t, cause t ≠ .invalidTarget) → P α otherwise → P α (.refuse p cause otherwise)
  followed : ∀ {α β : Type} {a : Rule α} {p : TokenKind → Bool} {more : α → Rule β} {plain : α → β}, P α a →
    (∀ value, P β (more value)) → P β (a.followed p (fun value _ => more value) plain)
  chain : ∀ {operand : Rule Expr} {p : TokenKind → Bool} {join : Expr → Token → Expr → Expr}, P Expr operand →
    P Expr (operand.chain p join)

namespace Rule.Closed

variable {P : (α : Type) → Rule α → Prop} (hP : Rule.Closed P) {a : Rule α} {b : Rule β}

include hP

theorem expect (kind : TokenKind) {cause : Cause} (hcause : cause ≠ .invalidTarget) : P Token (.expect kind cause) :=
  hP.atom (hP.fail hcause)

theorem left (ha : P α a) (hb : P β b) : P α (a.left b) := hP.bind ha fun _ => hP.map _ hb

theorem right (ha : P α a) (hb : P β b) : P β (a.right b) := hP.bind ha fun _ => hb

end Rule.Closed

/-! ## Levels -/

namespace Level

/-- the rules of a level have a property of expressions and one of statements -/
structure Has (E S : (α : Type) → Rule α → Prop) (level : Level) : Prop where
  assignment : E Expr level.assignment
  unary : E Expr level.unary
  statement : S Stmt level.statement
  declaration : S Stmt level.declaration
  block : S (List Stmt) level.block

/-- a property of expressions and one of statements in a given room that wholes have from their parts -/
structure Closed (E : (α : Type) → Rule α → Prop) (S : Nat → (α : Type) → Rule α → Prop) : Prop where
  expressions : Rule.Closed E
  statements : ∀ room, Rule.Closed (S room)
  assignTo : ∀ {left value : Rule Expr}, E Expr left → E Expr value →
    E Expr (left.followed (· = .equal) (fun target here => value.conclude (assignTo target here)) id)
  embed : ∀ {α : Type} {a : Rule α} (room : Nat), E α a → S room α a
  mono : ∀ {α : Type} {a : Rule α} {room : Nat}, S room α a → S (room + 1) α a
  block : ∀ {statement : Rule Stmt} {room : Nat}, S room Stmt statement → S (room + 1) (List Stmt) (.block statement)

/-- a name and its initial value, if there is one: a declaration without its keyword and its semicolon -/
def binding (inside : Level) : Rule Stmt :=
  (Rule.expect .identifier .expectName).followed (· = .equal)
    (fun name _ => inside.expression.map fun initial => Stmt.declare name (some initial))
    (fun name => .declare name none)

theorem declaring_eq (inside : Level) :
    inside.declaring = inside.binding.left (.expect .semicolon .expectSemicolonAfterDeclaration) :=
  rfl

namespace Closed

variable {E : (α : Type) → Rule α → Prop} {S : Nat → (α : Type) → Rule α → Prop} (hclosed : Closed E S) {inside : Level}
  {n : Nat} (h : inside.Has E (S n))

include hclosed h

theorem closedBy (kind : TokenKind) (cause : Cause) (hcause : cause ≠ .invalidTarget) :
    E Expr (inside.expression.left (.expect kind cause)) :=
  hclosed.expressions.left h.assignment (hclosed.expressions.expect kind hcause)

theorem primary : E Expr inside.primary := by
  have hparens := hclosed.closedBy h .rightParen .expectParenAfterExpression (by decide)
  exact hclosed.expressions.atom (hclosed.expressions.after (fun _ => hclosed.expressions.map _ hparens)
    (hclosed.expressions.fail (by decide)))

theorem signed : E Expr inside.signed :=
  hclosed.expressions.after (fun _ => hclosed.expressions.map _ h.unary) (hclosed.primary h)

/-- each tier is a chain over the tier below -/
theorem tier (k : Nat) : E Expr (inside.tier k) := by
  induction k with
  | zero => exact hclosed.signed h
  | succ k ih => exact hclosed.expressions.chain ih

theorem assigning : E Expr inside.assigning := by
  have hdisjunction := hclosed.tier h 6
  rw [← disjunction_eq_tier] at hdisjunction
  exact hclosed.assignTo hdisjunction h.assignment

theorem conditional : S n Stmt inside.conditional := by
  have hS := hclosed.statements n
  have hcondition := hclosed.closedBy h .rightParen .expectParenAfterCondition (by decide)
  refine hS.right (hS.expect _ (by decide)) (hS.bind (hclosed.embed n hcondition) fun condition => ?_)
  exact hS.followed h.statement fun yes => hS.map _ h.statement

theorem command : S n Stmt inside.command := by
  have hS := hclosed.statements n
  have hprint := hclosed.closedBy h .semicolon .expectSemicolonAfterValue (by decide)
  have hbare := hclosed.closedBy h .semicolon .expectSemicolonAfterExpression (by decide)
  refine hS.after (fun _ => hclosed.conditional h) (hS.after (fun _ => ?print) (hS.after (fun _ => ?block)
    (hS.refuse ?reserved ?bare)))
  case print => exact hS.map _ (hclosed.embed n hprint)
  case block => exact hS.map _ h.block
  case reserved => exact nofun
  case bare => exact hS.map _ (hclosed.embed n hbare)

theorem binding : E Stmt inside.binding :=
  hclosed.expressions.followed (hclosed.expressions.expect _ (by decide)) fun _ =>
    hclosed.expressions.map _ h.assignment

theorem declared : S n Stmt inside.declared := by
  have hS := hclosed.statements n
  refine hS.after (fun _ => ?_) (hclosed.command h)
  rw [declaring_eq]
  exact hS.left (hclosed.embed n (hclosed.binding h)) (hS.expect _ (by decide))

theorem enclosing : inside.enclosing.Has E (S (n + 1)) where
  assignment := hclosed.assigning h
  unary := hclosed.signed h
  statement := hclosed.mono (hclosed.command h)
  declaration := hclosed.mono (hclosed.declared h)
  block := hclosed.block (hclosed.declared h)

omit h

/-- **Levels are built from levels.** The innermost level only fails, so what passes from parts to wholes holds of
all. -/
theorem withRoom (n : Nat) : (withRoom n).Has E (S n) := by
  induction n with
  | zero =>
    have hE {α : Type} : E α (.fail .tooMuchNesting) := hclosed.expressions.fail (by decide)
    have hS {α : Type} : S 0 α (.fail .tooMuchNesting) := (hclosed.statements 0).fail (by decide)
    exact ⟨hE, hE, hS, hS, hS⟩
  | succ n ih => exact hclosed.enclosing ih

end Closed

end Level

end Scriptlet
