/-
How high trees get. Whatever walks over a tree goes as deep as the tree is high, so a bound on the height of what is
read is a bound on every such walk. The nesting limit alone gives none: signs, parentheses, assigned values, blocks and
branches are counted, but operators are not, and a chain of operators is grouped from the left, so each further operand
puts all that stood before it one step lower (`Parsing.height_unbounded`).

This is the only way to get high. A right operand is of a tighter tier than its operator, so between one counted
construct and the next there are at most six steps to the right; all other steps lead to left operands. Hence the height
of whatever is read is bounded by the limit and by the left operands on one way down.

- `Expr.height_le`, `Stmt.height_le`: canonical trees.
- `Parsing.height_le_of_mem_program`: everything that is read.
-/
import Scriptlet.Proofs.Reading
import Scriptlet.Proofs.Recovery

namespace Scriptlet

/-! ## Expressions -/

namespace Expr

/-- how many constructs stand on the longest way down -/
def height : Expr → Nat
  | .literal _ => 1
  | .unary _ operand => operand.height + 1
  | .binary left _ right => max left.height right.height + 1
  | .logical left _ right => max left.height right.height + 1
  | .grouping inner => inner.height + 1
  | .var _ => 1
  | .assign _ value => value.height + 1

/-- the most steps to a left operand on one way down -/
def leftward : Expr → Nat
  | .literal _ => 0
  | .unary _ operand => operand.leftward
  | .binary left _ right => max (left.leftward + 1) right.leftward
  | .logical left _ right => max (left.leftward + 1) right.leftward
  | .grouping inner => inner.leftward
  | .var _ => 0
  | .assign _ value => value.leftward

theorem height_join (k : Nat) (left : Expr) (operator : Token) (right : Expr) :
    (Level.join k left operator right).height = max left.height right.height + 1 := by
  unfold Level.join
  split_ifs <;> rfl

theorem leftward_join (k : Nat) (left : Expr) (operator : Token) (right : Expr) :
    (Level.join k left operator right).leftward = max (left.leftward + 1) right.leftward := by
  unfold Level.join
  split_ifs <;> rfl

/-- a step to the right is one to a tighter tier, and a step to the left is counted -/
theorem height_join_le {left right : Expr} {operator : Token} {k tier : Nat}
    (hop : Level.accepts k operator.kind = true)
    (hk : k < 6) (hfits : (Level.join k left operator right).fits tier = true)
    (hleft : left.fits (k + 1) = true → left.height ≤ left.leftward + 7 * left.nesting + min (k + 1) 6 + 1)
    (hright : right.fits k = true → right.height ≤ right.leftward + 7 * right.nesting + min k 6 + 1) :
    (Level.join k left operator right).height ≤ (Level.join k left operator right).leftward +
      7 * (Level.join k left operator right).nesting + min tier 6 + 1 := by
  obtain ⟨htier, hl, hr⟩ := (fits_join hop).1 hfits
  have hleft := hleft hl
  have hright := hright hr
  -- the left operand may be of the looser tier `k + 1`, but the step to it counts in `leftward`
  rw [height_join, leftward_join, nesting_join]
  omega

/-- the height of an expression of a tier -/
theorem height_le {e : Expr} {tier : Nat} (hfits : e.fits tier = true) :
    e.height ≤ e.leftward + 7 * e.nesting + min tier 6 + 1 := by
  induction e generalizing tier with
  | literal value => exact Nat.le_add_left 1 _
  | unary operator operand ih =>
    simp only [fits, Bool.and_eq_true] at hfits
    have hoperand := ih hfits.2
    simp only [height, leftward, nesting]
    omega
  | binary left operator right ihl ihr =>
    obtain ⟨k, hk, hop, hjoin⟩ := binary_eq_join hfits
    rw [hjoin] at hfits ⊢
    exact height_join_le hop hk hfits ihl ihr
  | logical left operator right ihl ihr =>
    obtain ⟨k, hk, hop, hjoin⟩ := logical_eq_join hfits
    rw [hjoin] at hfits ⊢
    exact height_join_le hop hk hfits ihl ihr
  | grouping inner ih =>
    have hinner := @ih assignmentTier hfits
    simp only [height, leftward, nesting]
    omega
  | var name => exact Nat.le_add_left 1 _
  | assign name value ih =>
    simp only [fits, Bool.and_eq_true] at hfits
    have hvalue := ih hfits.2
    simp only [height, leftward, nesting]
    omega

/-- an expression where any may stand -/
theorem height_le_of_assignmentTier {e : Expr} (hfits : e.fits assignmentTier = true) :
    e.height ≤ e.leftward + 7 * (e.nesting + 1) := by
  have hheight := height_le hfits
  simp only [assignmentTier] at hheight
  omega

end Expr

/-! ## Statements -/

namespace Stmt

mutual

/-- how many constructs stand on the longest way down -/
def height : Stmt → Nat
  | .expression expr => expr.height + 1
  | .print expr => expr.height + 1
  | .declare _ none => 1
  | .declare _ (some expr) => expr.height + 1
  | .assign _ value => value.height + 1
  | .block body => heightAll body + 1
  | .branch condition yes no => max condition.height (max yes.height no.height) + 1
  | .skip => 1

def heightAll : List Stmt → Nat
  | [] => 0
  | s :: rest => max s.height (heightAll rest)

end

mutual

/-- the most steps to a left operand on one way down -/
def leftward : Stmt → Nat
  | .expression expr => expr.leftward
  | .print expr => expr.leftward
  | .declare _ none => 0
  | .declare _ (some expr) => expr.leftward
  | .assign _ value => value.leftward
  | .block body => leftwardAll body
  | .branch condition yes no => max condition.leftward (max yes.leftward no.leftward)
  | .skip => 0

def leftwardAll : List Stmt → Nat
  | [] => 0
  | s :: rest => max s.leftward (leftwardAll rest)

end

theorem height_of_isSkip {s : Stmt} (h : s.isSkip = true) : s.height = 1 := by
  cases s with
  | skip => rfl
  | _ => cases h

mutual

/-- the height of a statement: every construct inside of another is one that the nesting counts -/
theorem height_le : ∀ {s : Stmt}, s.canonical = true → s.height ≤ s.leftward + 7 * s.nesting + 1
  | .expression expr, h => by
    have hexpr := Expr.height_le_of_assignmentTier h
    simp only [height, leftward, nesting]
    omega
  | .print expr, h => by
    have hexpr := Expr.height_le_of_assignmentTier h
    simp only [height, leftward, nesting]
    omega
  | .declare name none, _ => Nat.le_add_left 1 _
  | .declare name (some expr), h => by
    simp only [canonical, Bool.and_eq_true] at h
    have hexpr := Expr.height_le_of_assignmentTier h.2
    simp only [height, leftward, nesting]
    omega
  | .assign name value, h => by cases h
  | .block body, h => by
    have hbody := heightAll_le h
    simp only [height, leftward, nesting]
    omega
  | .branch condition yes no, h => by
    simp only [canonical, Bool.and_eq_true, Bool.or_eq_true] at h
    obtain ⟨⟨hcondition, hyes, -⟩, hno⟩ := h
    have hcondition := Expr.height_le_of_assignmentTier hcondition
    have hyes := height_le hyes
    have hno : no.height ≤ no.leftward + 7 * no.nesting + 1 := by
      rcases hno with hskip | ⟨⟨hno, -⟩, -⟩
      · rw [height_of_isSkip hskip]
        exact Nat.le_add_left 1 _
      · exact height_le hno
    simp only [height, leftward, nesting]
    omega
  | .skip, _ => Nat.le_refl 1

theorem heightAll_le : ∀ {body : List Stmt}, canonicalAll body = true →
    heightAll body ≤ leftwardAll body + 7 * nestingAll body + 1
  | [], _ => Nat.zero_le _
  | s :: rest, h => by
    simp only [canonicalAll, Bool.and_eq_true] at h
    have hs := height_le h.1
    have hrest := heightAll_le h.2
    simp only [heightAll, leftwardAll, nestingAll]
    omega

end

end Stmt

/-! ## Programs -/

namespace Parsing

/-- **The height of what is read.** Whatever the text is, and whatever is complained about, a statement that is read is
no higher than the nesting limit allows, but for the steps to left operands. -/
theorem height_le_of_mem_program (tokens : List Token) :
    ∀ s ∈ (ofTokens tokens).program, s.height ≤ 7 * maxNesting + 1 + s.leftward := by
  intro s hs
  have hformed := formed_of_mem_program hs
  have hheight := Stmt.height_le hformed.canonical
  have hnesting := Nat.le_of_lt_succ hformed.nesting
  omega

/-! ## Chains of operators -/

/-- a name, and as many times the same name added to it -/
def sum : Nat → Expr
  | 0 => .var (sampleName "a")
  | n + 1 => .binary (sum n) (sampleToken .plus "+") (.var (sampleName "a"))

theorem fits_sum (n : Nat) : (sum n).fits assignmentTier = true := by
  have hterm : (sum n).fits 2 = true := by
    induction n with
    | zero => rfl
    | succ n ih => exact Expr.fits_binary.2 ⟨1, rfl, by decide, ih, rfl⟩
  exact Expr.fits_mono hterm (by decide)

theorem nesting_sum (n : Nat) : (sum n).nesting = 0 := by
  induction n with
  | zero => rfl
  | succ n ih => rw [sum, Expr.nesting, ih, Expr.nesting, Nat.max_self]

theorem height_sum (n : Nat) : (sum n).height = n + 1 := by
  induction n with
  | zero => rfl
  | succ n ih =>
    simp only [sum, Expr.height, ih]
    omega

/-- sums are read back, however long they are -/
theorem ofTokens_sum (n : Nat) :
    ofTokens (text [.expression (sum n)] ++ [.atEnd 1]) = ⟨[.expression (sum n)], []⟩ := by
  have hcanonical : Stmt.canonicalAll [.expression (sum n)] = true :=
    Stmt.canonicalAll_iff.2 (List.forall_mem_singleton.2 (fits_sum n))
  refine ofTokens_spelled hcanonical (spells_map_token (Stmt.spellingAll_proper hcanonical)) rfl [] ?_
  simp [Stmt.nestingAll, Stmt.nesting, nesting_sum, maxNesting]

theorem height_le_of_mem_program_sum :
    Stmt.expression (sum 3) ∈ (ofTokens (text [.expression (sum 3)] ++ [.atEnd 1])).program ∧
    (Stmt.expression (sum 3)).height ≤ 7 * maxNesting + 1 + (Stmt.expression (sum 3)).leftward := by
  have hmem : Stmt.expression (sum 3) ∈ (ofTokens (text [.expression (sum 3)] ++ [.atEnd 1])).program := by
    rw [ofTokens_sum]
    exact List.mem_singleton_self _
  exact ⟨hmem, height_le_of_mem_program _ _ hmem⟩

/-- no bound holds for the height of everything that is read -/
theorem height_unbounded : ¬ ∃ bound, ∀ tokens, ∀ s ∈ (ofTokens tokens).program, s.height ≤ bound := by
  rintro ⟨bound, hbound⟩
  have hsum := hbound (text [.expression (sum bound)] ++ [.atEnd 1]) (.expression (sum bound))
  rw [ofTokens_sum, Stmt.height, height_sum] at hsum
  have := hsum (List.mem_singleton_self _)
  omega

end Parsing

end Scriptlet
