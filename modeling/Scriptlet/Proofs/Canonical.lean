/-
Canonical trees: those that a text can stand for, and how deep they nest.

Operators stand on tiers. An operator of tier k joins operands of tier k and gives an expression of tier k + 1, in which
its left operand may again be of tier k + 1: operators of one tier group from the left. Tier 0 holds what is written
without a binary operator, tier 7 the assignments and with them every expression.

  tier 0: signs, literals, names, parentheses       tier 4: != ==
  tier 1: * /                                       tier 5: and
  tier 2: - +                                       tier 6: or
  tier 3: > >= < <=                                 tier 7: =

A statement is canonical if its expressions are, if nothing but a statement stands behind `if (..)` and `else`, and if
an `else` belongs to the last `if` before it that has none: the branch in front of an `else` must not end in an `if`
without one (`Stmt.endsOpen`).

- `Level.disjunction_eq_tier`: the grammar's operator rules are the tiers, one chain on top of the other.
- `fits_join`: joining on a tier keeps expressions in form exactly if both operands are.
-/
import Mathlib.Tactic.IntervalCases
import Mathlib.Tactic.SplitIfs
import Scriptlet.Proofs.Spelling

namespace Scriptlet

/-! ## Expressions -/

/-- the tier of the operands that a binary operator joins -/
def TokenKind.binaryTier? : TokenKind → Option Nat
  | .star | .slash => some 0
  | .minus | .plus => some 1
  | .greater | .greaterEqual | .less | .lessEqual => some 2
  | .bangEqual | .equalEqual => some 3
  | _ => none

def TokenKind.logicalTier? : TokenKind → Option Nat
  | .kwAnd => some 4
  | .kwOr => some 5
  | _ => none

def assignmentTier : Nat := 7

namespace Expr

/-- is the expression in the form of the tier, or of a tighter one -/
def fits : Expr → Nat → Bool
  | .literal value, _ => value ≠ .nil
  | .unary operator operand, _ => (operator.kind = .bang || operator.kind = .minus) && operand.fits 0
  | .binary left operator right, tier =>
    match operator.kind.binaryTier? with
    | some k => k < tier && left.fits (k + 1) && right.fits k
    | none => false
  | .logical left operator right, tier =>
    match operator.kind.logicalTier? with
    | some k => k < tier && left.fits (k + 1) && right.fits k
    | none => false
  | .grouping inner, _ => inner.fits assignmentTier
  | .var name, _ => name.kind = .identifier
  | .assign name value, tier => assignmentTier ≤ tier && name.kind = .identifier && value.fits assignmentTier

/-- how deep signs, parentheses and assigned values nest -/
def nesting : Expr → Nat
  | .literal _ => 0
  | .unary _ operand => operand.nesting + 1
  | .binary left _ right => max left.nesting right.nesting
  | .logical left _ right => max left.nesting right.nesting
  | .grouping inner => inner.nesting + 1
  | .var _ => 0
  | .assign _ value => value.nesting + 1

end Expr

/-! ## Statements -/

namespace Stmt

def isDeclaration : Stmt → Bool
  | .declare _ _ => true
  | _ => false

/-- does the statement end in an `if` without an `else` -/
def endsOpen : Stmt → Bool
  | .branch _ _ no => no.isSkip || no.endsOpen
  | _ => false

mutual

/-- can the statement be read from a text -/
def canonical : Stmt → Bool
  | .expression expr => expr.fits assignmentTier
  | .print expr => expr.fits assignmentTier
  | .declare name none => name.kind = .identifier
  | .declare name (some expr) => name.kind = .identifier && expr.fits assignmentTier
  | .assign _ _ => false
  | .block body => canonicalAll body
  | .branch condition yes no =>
    condition.fits assignmentTier && (yes.canonical && !yes.isDeclaration) &&
      (no.isSkip || (no.canonical && !no.isDeclaration && !yes.endsOpen))
  | .skip => false

def canonicalAll : List Stmt → Bool
  | [] => true
  | s :: rest => s.canonical && canonicalAll rest

end

mutual

/-- how deep expressions, blocks and branches nest -/
def nesting : Stmt → Nat
  | .expression expr => expr.nesting + 1
  | .print expr => expr.nesting + 1
  | .declare _ none => 0
  | .declare _ (some expr) => expr.nesting + 1
  | .assign _ value => value.nesting + 1
  | .block body => nestingAll body + 1
  | .branch condition yes no => max (condition.nesting + 1) (max (yes.nesting + 1) (no.nesting + 1))
  | .skip => 0

def nestingAll : List Stmt → Nat
  | [] => 0
  | s :: rest => max s.nesting (nestingAll rest)

end

theorem canonicalAll_iff {body : List Stmt} : canonicalAll body = true ↔ ∀ s ∈ body, s.canonical = true := by
  induction body with
  | nil => simp [canonicalAll]
  | cons s rest ih => simp [canonicalAll, ih]

theorem nestingAll_le_iff {body : List Stmt} {n : Nat} : nestingAll body ≤ n ↔ ∀ s ∈ body, s.nesting ≤ n := by
  induction body with
  | nil => simp [nestingAll]
  | cons s rest ih => simp [nestingAll, ih]

theorem canonicalAll_append (first second : List Stmt) :
    canonicalAll (first ++ second) = (canonicalAll first && canonicalAll second) := by
  induction first with
  | nil => simp [canonicalAll]
  | cons s rest ih => simp [canonicalAll, ih, Bool.and_assoc]

theorem nestingAll_append (first second : List Stmt) :
    nestingAll (first ++ second) = max (nestingAll first) (nestingAll second) := by
  induction first with
  | nil => simp [nestingAll]
  | cons s rest ih => simp [nestingAll, ih, max_assoc]

theorem spellingAll_append (first second : List Stmt) :
    spellingAll (first ++ second) = spellingAll first ++ spellingAll second := by
  induction first with
  | nil => simp [spellingAll]
  | cons s rest ih => simp [spellingAll, ih]

end Stmt

/-! ## The tiers of the grammar -/

namespace Level

/-- the operators that join operands of a tier -/
def accepts : Nat → TokenKind → Bool
  | 0 => isFactor
  | 1 => isTerm
  | 2 => isComparison
  | 3 => isEquality
  | 4 => (· = .kwAnd)
  | 5 => (· = .kwOr)
  | _ => fun _ => false

/-- what an operator makes of two operands of a tier -/
def join (k : Nat) : Expr → Token → Expr → Expr := if k < 4 then .binary else .logical

def tier (inside : Level) : Nat → Rule Expr
  | 0 => inside.signed
  | k + 1 => (inside.tier k).chain (accepts k) (join k)

theorem disjunction_eq_tier (inside : Level) : inside.disjunction = inside.tier 6 := rfl

theorem accepts_of_binaryTier? {kind : TokenKind} {k : Nat} (h : kind.binaryTier? = some k) :
    k < 4 ∧ accepts k kind = true := by
  unfold TokenKind.binaryTier? at h
  split at h <;> cases h <;> exact ⟨by decide, rfl⟩

theorem accepts_of_logicalTier? {kind : TokenKind} {k : Nat} (h : kind.logicalTier? = some k) :
    4 ≤ k ∧ k < 6 ∧ accepts k kind = true := by
  unfold TokenKind.logicalTier? at h
  split at h <;> cases h <;> exact ⟨by decide, by decide, rfl⟩

theorem binaryTier?_of_accepts {kind : TokenKind} {k : Nat} (hk : k < 4) (h : accepts k kind = true) :
    kind.binaryTier? = some k := by
  interval_cases k <;> cases kind <;> first | rfl | cases h

theorem logicalTier?_of_accepts {kind : TokenKind} {k : Nat} (hk : 4 ≤ k) (h : accepts k kind = true) :
    kind.logicalTier? = some k := by
  unfold accepts at h
  split at h
  · omega
  · omega
  · omega
  · omega
  · rw [of_decide_eq_true h]; rfl
  · rw [of_decide_eq_true h]; rfl
  · cases h

end Level

namespace Expr

theorem fits_binary {left right : Expr} {operator : Token} {tier : Nat} :
    (binary left operator right).fits tier = true ↔ ∃ k, operator.kind.binaryTier? = some k ∧ k < tier ∧
      left.fits (k + 1) = true ∧ right.fits k = true := by
  rw [fits]
  split
  · rename_i k hk
    simp [hk, and_assoc]
  · rename_i hk
    simp [hk]

theorem fits_logical {left right : Expr} {operator : Token} {tier : Nat} :
    (logical left operator right).fits tier = true ↔ ∃ k, operator.kind.logicalTier? = some k ∧ k < tier ∧
      left.fits (k + 1) = true ∧ right.fits k = true := by
  rw [fits]
  split
  · rename_i k hk
    simp [hk, and_assoc]
  · rename_i hk
    simp [hk]

/-- an expression of a tier is one of every looser tier -/
theorem fits_mono {e : Expr} {k tier : Nat} (h : e.fits k = true) (hk : k ≤ tier) : e.fits tier = true := by
  cases e with
  | binary left operator right =>
    obtain ⟨j, hj, hlt, hl, hr⟩ := fits_binary.1 h
    exact fits_binary.2 ⟨j, hj, by omega, hl, hr⟩
  | logical left operator right =>
    obtain ⟨j, hj, hlt, hl, hr⟩ := fits_logical.1 h
    exact fits_logical.2 ⟨j, hj, by omega, hl, hr⟩
  | assign name value =>
    simp only [fits, Bool.and_eq_true, decide_eq_true_eq] at h ⊢
    exact ⟨⟨by omega, h.1.2⟩, h.2⟩
  | _ => exact h

/-- a join on a tier is an expression of the looser ones, and of no other -/
theorem fits_join {left right : Expr} {operator : Token} {k tier : Nat} (hop : Level.accepts k operator.kind = true) :
    (Level.join k left operator right).fits tier = true ↔
      k < tier ∧ left.fits (k + 1) = true ∧ right.fits k = true := by
  unfold Level.join
  split_ifs with hk
  · rw [fits_binary, Level.binaryTier?_of_accepts hk hop]
    simp
  · rw [fits_logical, Level.logicalTier?_of_accepts (Nat.le_of_not_lt hk) hop]
    simp

theorem binary_eq_join {left right : Expr} {operator : Token} {tier : Nat}
    (h : (binary left operator right).fits tier = true) :
    ∃ k < 6, Level.accepts k operator.kind = true ∧ binary left operator right = Level.join k left operator right := by
  obtain ⟨k, hk, -⟩ := fits_binary.1 h
  obtain ⟨hk4, hop⟩ := Level.accepts_of_binaryTier? hk
  exact ⟨k, by omega, hop, by rw [Level.join, if_pos hk4]⟩

theorem logical_eq_join {left right : Expr} {operator : Token} {tier : Nat}
    (h : (logical left operator right).fits tier = true) :
    ∃ k < 6, Level.accepts k operator.kind = true ∧ logical left operator right = Level.join k left operator right := by
  obtain ⟨k, hk, -⟩ := fits_logical.1 h
  obtain ⟨hk4, hk6, hop⟩ := Level.accepts_of_logicalTier? hk
  exact ⟨k, hk6, hop, by rw [Level.join, if_neg (by omega)]⟩

theorem spelling_join (k : Nat) (left : Expr) (operator : Token) (right : Expr) :
    (Level.join k left operator right).spelling = left.spelling ++ .kept operator :: right.spelling := by
  unfold Level.join
  split_ifs <;> rfl

theorem nesting_join (k : Nat) (left : Expr) (operator : Token) (right : Expr) :
    (Level.join k left operator right).nesting = max left.nesting right.nesting := by
  unfold Level.join
  split_ifs <;> rfl

theorem nesting_of_atom? {t : Token} {e : Expr} (h : Level.atom? t = some e) : e.nesting = 0 := by
  unfold Level.atom? at h
  split at h <;> cases h <;> rfl

theorem spelling_proper {e : Expr} {tier : Nat} (h : e.fits tier = true) : ∀ m ∈ e.spelling, m.isProper = true := by
  induction e generalizing tier with
  | literal value =>
    rcases value with - | (- | -) | x | text
    · simp [fits] at h
    all_goals simp [spelling, Value.mark, Mark.isProper]
  | unary operator operand ih =>
    simp only [fits, Bool.and_eq_true, Bool.or_eq_true, decide_eq_true_eq] at h
    refine List.forall_mem_cons.2 ⟨?_, ih h.2⟩
    rcases h.1 with hkind | hkind <;> simp [Mark.isProper, hkind]
  | binary left operator right ihl ihr =>
    obtain ⟨k, hk, -, hl, hr⟩ := fits_binary.1 h
    refine List.forall_mem_append.2 ⟨ihl hl, List.forall_mem_cons.2 ⟨?_, ihr hr⟩⟩
    refine decide_eq_true fun hend => ?_
    rw [hend] at hk
    cases hk
  | logical left operator right ihl ihr =>
    obtain ⟨k, hk, -, hl, hr⟩ := fits_logical.1 h
    refine List.forall_mem_append.2 ⟨ihl hl, List.forall_mem_cons.2 ⟨?_, ihr hr⟩⟩
    refine decide_eq_true fun hend => ?_
    rw [hend] at hk
    cases hk
  | grouping inner ih =>
    refine List.forall_mem_cons.2 ⟨rfl, List.forall_mem_append.2 ⟨ih h, ?_⟩⟩
    exact List.forall_mem_singleton.2 rfl
  | var name => simp_all [fits, spelling, Mark.isProper]
  | assign name value ih =>
    simp only [fits, Bool.and_eq_true, decide_eq_true_eq] at h
    refine List.forall_mem_cons.2 ⟨?_, List.forall_mem_cons.2 ⟨rfl, ih h.2⟩⟩
    simp [Mark.isProper, h.1.2]

end Expr

namespace Stmt

mutual

theorem spelling_proper : ∀ {s : Stmt}, s.canonical = true → ∀ m ∈ s.spelling, m.isProper = true
  | .expression e, h => List.forall_mem_append.2 ⟨Expr.spelling_proper h, List.forall_mem_singleton.2 rfl⟩
  | .print e, h => List.forall_mem_cons.2
      ⟨rfl, List.forall_mem_append.2 ⟨Expr.spelling_proper h, List.forall_mem_singleton.2 rfl⟩⟩
  | .declare name none, h => by
    have hname : name.kind = .identifier := of_decide_eq_true h
    simp [spelling, Mark.isProper, hname]
  | .declare name (some e), h => by
    simp only [canonical, Bool.and_eq_true, decide_eq_true_eq] at h
    have he := Expr.spelling_proper h.2
    simp only [spelling, List.forall_mem_cons, List.forall_mem_append]
    exact ⟨rfl, by simp [Mark.isProper, h.1], rfl, he, rfl, nofun⟩
  | .block body, h => by
    have hbody := spellingAll_proper h
    simp only [spelling, List.forall_mem_cons, List.forall_mem_append]
    exact ⟨rfl, hbody, rfl, nofun⟩
  | .branch condition yes no, h => by
    simp only [canonical, Bool.and_eq_true, Bool.or_eq_true] at h
    obtain ⟨⟨hcondition, hyes, -⟩, hno⟩ := h
    have hyes := spelling_proper hyes
    simp only [spelling, List.forall_mem_cons, List.forall_mem_append]
    refine ⟨rfl, rfl, Expr.spelling_proper hcondition, rfl, hyes, ?_⟩
    split_ifs with hskip
    · simp
    · obtain ⟨⟨hno, -⟩, -⟩ := hno.resolve_left hskip
      exact List.forall_mem_cons.2 ⟨rfl, spelling_proper hno⟩

theorem spellingAll_proper : ∀ {body : List Stmt}, canonicalAll body = true → ∀ m ∈ spellingAll body, m.isProper = true
  | [], _ => by simp [spellingAll]
  | s :: rest, h => by
    simp only [canonicalAll, Bool.and_eq_true] at h
    exact List.forall_mem_append.2 ⟨spelling_proper h.1, spellingAll_proper h.2⟩

end

end Stmt

end Scriptlet
