/-
Operators in what is read. An evaluator must say what it does with every token that a tree may hold as an operator, and
here it does so by a last arm: a sign that is not `!` negates, a logical operator that is not `or` is a conjunction, and
a binary operator that no arm names compares for equality. Every tree that is read is canonical, whatever else the text
holds and whatever is complained about; so those arms are met by `-`, `and` and `==` alone, and writing these three out
changes nothing, no matter what is then done with all other tokens.

`Stmt.executeBy` is execution with the treatment of operators left open, and `Stmt.execute` is execution with the
operators as they are. On canonical trees only the operators of the grammar count (`Stmt.executeBy_congr`).

- `Parsing.program_canonical`: everything that is read.
-/
import Scriptlet.Proofs.Reading
import Scriptlet.Proofs.Recovery
import Scriptlet.Session
import Scriptlet.Tree

namespace Scriptlet

/-! ## Operators written out -/

namespace OperatorArms

/-- the operators with an arm for each of those of the grammar, and any treatment of the other tokens -/
def spelledOut (other : OperatorArms) : OperatorArms where
  unary operator operand :=
    match operator.kind with
    | .bang => .ok operand.invert
    | .minus => operand.negate
    | _ => other.unary operator operand
  binary left operator right :=
    match operator.kind with
    | .plus => left.plus right
    | .minus => left.minus right
    | .star => left.times right
    | .slash => left.divide right
    | .greater => Value.compare operator.lexeme .greater left right
    | .greaterEqual => Value.compare operator.lexeme .greaterEqual left right
    | .less => Value.compare operator.lexeme .less left right
    | .lessEqual => Value.compare operator.lexeme .lessEqual left right
    | .bangEqual => .ok (.bool (!left.isEqual right))
    | .equalEqual => .ok (.bool (left.isEqual right))
    | _ => other.binary left operator right
  settles operator left :=
    match operator.kind with
    | .kwOr => left.isTruthy
    | .kwAnd => !left.isTruthy
    | _ => other.settles operator left

/-- the operators of the grammar are treated in the same way -/
structure Agree (arms arms' : OperatorArms) : Prop where
  unary : ∀ operator operand, operator.kind = .bang ∨ operator.kind = .minus →
    arms.unary operator operand = arms'.unary operator operand
  binary : ∀ left operator right k, operator.kind.binaryTier? = some k →
    arms.binary left operator right = arms'.binary left operator right
  settles : ∀ operator left k, operator.kind.logicalTier? = some k →
    arms.settles operator left = arms'.settles operator left

theorem spelledOut_agree (other : OperatorArms) : (spelledOut other).Agree actual := by
  constructor
  · intro operator operand hkind
    rcases hkind with hkind | hkind
    · simp only [spelledOut, actual, applyUnary, hkind]
    · simp only [spelledOut, actual, applyUnary, hkind]
  · intro left operator right k htier
    unfold TokenKind.binaryTier? at htier
    split at htier
    all_goals first
      | cases htier; rename_i hkind; simp only [spelledOut, actual, applyBinary, hkind]
      | cases htier
  · intro operator left k htier
    unfold TokenKind.logicalTier? at htier
    split at htier
    all_goals first
      | cases htier; rename_i hkind; simp only [spelledOut, actual, Scriptlet.settles, hkind]
      | cases htier

end OperatorArms

/-! ## Canonical trees -/

section Canonical

variable {arms arms' : OperatorArms}

/-- a canonical expression holds no operators but those of the grammar -/
theorem Expr.evaluateBy_congr (h : arms.Agree arms') {e : Expr} {tier : Nat} (hfits : e.fits tier = true) :
    e.evaluateBy arms = e.evaluateBy arms' := by
  induction e generalizing tier with
  | literal value => rfl
  | unary operator operand ih =>
    simp only [fits, Bool.and_eq_true, Bool.or_eq_true, decide_eq_true_eq] at hfits
    have hsign : ∀ v, arms.unary operator v = arms'.unary operator v := fun v => h.unary operator v hfits.1
    simp only [evaluateBy, ih hfits.2, hsign]
  | binary left operator right ihl ihr =>
    obtain ⟨k, hk, -, hl, hr⟩ := fits_binary.1 hfits
    have hop : ∀ a b, arms.binary a operator b = arms'.binary a operator b := fun a b => h.binary a operator b k hk
    simp only [evaluateBy, ihl hl, ihr hr, hop]
  | logical left operator right ihl ihr =>
    obtain ⟨k, hk, -, hl, hr⟩ := fits_logical.1 hfits
    have hop : ∀ a, arms.settles operator a = arms'.settles operator a := fun a => h.settles operator a k hk
    simp only [evaluateBy, ihl hl, ihr hr, hop]
  | grouping inner ih => exact @ih assignmentTier hfits
  | var name => rfl
  | assign name value ih =>
    simp only [fits, Bool.and_eq_true, decide_eq_true_eq] at hfits
    simp only [evaluateBy, ih hfits.2]

theorem Execution.valueBy_congr (h : arms.Agree arms') {e : Expr} {tier : Nat} (hfits : e.fits tier = true) :
    Execution.valueBy arms e = Execution.valueBy arms' e := by
  funext s
  rw [Execution.valueBy, Execution.valueBy, Expr.evaluateBy_congr h hfits]

mutual

theorem Stmt.executeBy_congr (h : arms.Agree arms') :
    ∀ {s : Stmt}, s.canonical = true → s.executeBy arms = s.executeBy arms'
  | .expression e, hs => by simp only [executeBy, Execution.valueBy_congr h hs]
  | .print e, hs => by simp only [executeBy, Execution.valueBy_congr h hs]
  | .declare name none, _ => rfl
  | .declare name (some e), hs => by
    simp only [canonical, Bool.and_eq_true] at hs
    simp only [executeBy, Execution.valueBy_congr h hs.2]
  | .assign name value, hs => by cases hs
  | .block body, hs => by simp only [executeBy, executeAllBy_congr h hs]
  | .branch condition yes no, hs => by
    simp only [canonical, Bool.and_eq_true, Bool.or_eq_true] at hs
    obtain ⟨⟨hcondition, hyes, -⟩, hno⟩ := hs
    -- a missing branch does nothing, whatever the operators
    have hno : no.executeBy arms = no.executeBy arms' := by
      rcases hno with hskip | ⟨⟨hno, -⟩, -⟩
      · cases no with
        | skip => rfl
        | _ => cases hskip
      · exact executeBy_congr h hno
    simp only [executeBy, Execution.valueBy_congr h hcondition, executeBy_congr h hyes, hno]
  | .skip, _ => rfl

theorem Stmt.executeAllBy_congr (h : arms.Agree arms') :
    ∀ {body : List Stmt}, canonicalAll body = true → executeAllBy arms body = executeAllBy arms' body
  | [], _ => rfl
  | s :: rest, hs => by
    simp only [canonicalAll, Bool.and_eq_true] at hs
    simp only [executeAllBy, executeBy_congr h hs.1, executeAllBy_congr h hs.2]

end

end Canonical

/-! ## Programs -/

namespace Parsing

/-- **Everything that is read is canonical.** Whatever the text is, and whatever is complained about, a statement that
is read is canonical and keeps to the nesting limit; and it runs as it would if `-`, `and` and `==` had arms of their
own and all other tokens were treated in any way. -/
theorem program_canonical (tokens : List Token) :
    ∀ s ∈ (ofTokens tokens).program, s.canonical = true ∧ s.nesting ≤ maxNesting ∧
      ∀ other, s.executeBy (.spelledOut other) = s.execute := by
  intro s hs
  have hformed := formed_of_mem_program hs
  refine ⟨hformed.canonical, Nat.le_of_lt_succ hformed.nesting, fun other => ?_⟩
  exact Stmt.executeBy_congr (OperatorArms.spelledOut_agree other) hformed.canonical

/-- `{ a + ; if (!a and a == -a) a = a; else a; }`, where the first statement in the block is given up -/
def mendedText : List Token :=
  let name := sampleName "a"
  [sampleToken .leftBrace "\x7b", name, sampleToken .plus "+", sampleToken .semicolon ";",
   sampleToken .kwIf "if", sampleToken .leftParen "(", sampleToken .bang "!", name, sampleToken .kwAnd "and", name,
   sampleToken .equalEqual "==", sampleToken .minus "-", name, sampleToken .rightParen ")",
   name, sampleToken .equal "=", name, sampleToken .semicolon ";",
   sampleToken .kwElse "else", name, sampleToken .semicolon ";", sampleToken .rightBrace "\x7d", .atEnd 1]

theorem program_canonical_mended : (ofTokens mendedText).diagnostics.length = 1 ∧
    ∃ s, (ofTokens mendedText).program = [s] ∧
      s.prefixed = "(block (if (and (! a) (== a (- a))) (; (= a a)) (; a)))" ∧
      s.canonical = true ∧ s.nesting ≤ maxNesting ∧ ∀ other, s.executeBy (.spelledOut other) = s.execute := by
  obtain ⟨s, hs⟩ : ∃ s, (ofTokens mendedText).program = [s] := List.length_eq_one_iff.1 (by decide +kernel)
  have htext : (ofTokens mendedText).program.map Stmt.prefixed =
      ["(block (if (and (! a) (== a (- a))) (; (= a a)) (; a)))"] := by decide +kernel
  have hmem : s ∈ (ofTokens mendedText).program := by simp [hs]
  refine ⟨by decide +kernel, s, hs, ?_, program_canonical mendedText s hmem⟩
  simpa [hs] using htext

end Parsing

end Scriptlet
