/-
Spelling: syntax trees written back to tokens. The tree keeps the tokens of its operators and names, and those must
stand in the text as they are; of every other token only the kind is known, with its value where it has one. A spelling
is therefore a list of marks, and a token list spells a tree if its tokens satisfy the marks one by one.

Some trees stand in no text: nothing is written `nil`, an assignment is an expression and not a statement, and
`Stmt.skip` is only the branch that is missing after an `if`. Their spelling holds a mark that no token satisfies.

- `Spells.append`, `Spells.split`: a text may be spelled, and read, piece by piece.
-/
import Mathlib.Data.List.Forall2
import Scriptlet.Grammar.Level

namespace Scriptlet

/-- what a place in a text demands of the token that stands there -/
inductive Mark where
  /-- this very token -/
  | kept (t : Token)
  /-- any token of the kind -/
  | any (kind : TokenKind)
  /-- no token is right -/
  | impossible

/-- does a token satisfy a mark -/
def Mark.Admits : Mark → Token → Prop
  | .kept t, u => u = t
  | .any kind, u => u.kind = kind
  | .impossible, _ => False

/-- the tokens satisfy the marks one by one -/
abbrev Spells (marks : List Mark) (tokens : List Token) : Prop := List.Forall₂ Mark.Admits marks tokens

def Value.mark : Value → Mark
  | .nil => .impossible
  | .bool false => .any .kwFalse
  | .bool true => .any .kwTrue
  | .number x => .any (.number x)
  | .string text => .any (.string text)

/-- an expression written back -/
def Expr.spelling : Expr → List Mark
  | .literal value => [value.mark]
  | .unary operator operand => .kept operator :: operand.spelling
  | .binary left operator right => left.spelling ++ .kept operator :: right.spelling
  | .logical left operator right => left.spelling ++ .kept operator :: right.spelling
  | .grouping inner => .any .leftParen :: (inner.spelling ++ [.any .rightParen])
  | .var name => [.kept name]
  | .assign name value => .kept name :: .any .equal :: value.spelling

/-- is it the statement that stands for a missing branch -/
def Stmt.isSkip : Stmt → Bool
  | .skip => true
  | _ => false

mutual

def Stmt.spelling : Stmt → List Mark
  | .expression expr => expr.spelling ++ [.any .semicolon]
  | .print expr => .any .kwPrint :: (expr.spelling ++ [.any .semicolon])
  | .declare name none => [.any .kwVar, .kept name, .any .semicolon]
  | .declare name (some expr) => .any .kwVar :: .kept name :: .any .equal :: (expr.spelling ++ [.any .semicolon])
  | .assign _ _ => [.impossible]
  | .block body => .any .leftBrace :: (Stmt.spellingAll body ++ [.any .rightBrace])
  | .branch condition yes no =>
    .any .kwIf :: .any .leftParen :: (condition.spelling ++ .any .rightParen :: (yes.spelling ++
      if no.isSkip then [] else .any .kwElse :: no.spelling))
  | .skip => [.impossible]

def Stmt.spellingAll : List Stmt → List Mark
  | [] => []
  | s :: rest => s.spelling ++ Stmt.spellingAll rest

end

/-! ## Texts -/

/-- a mark that some token other than an end mark satisfies -/
def Mark.isProper : Mark → Bool
  | .kept t => t.kind ≠ .eof
  | .any kind => kind ≠ .eof
  | .impossible => false

/-- a token that satisfies a proper mark -/
def Mark.token : Mark → Token
  | .kept t => t
  | .any kind => ⟨kind, "", 1⟩
  | .impossible => .atEnd 1

/-- proper marks have a text -/
theorem spells_map_token {marks : List Mark} (h : ∀ m ∈ marks, m.isProper = true) :
    Spells marks (marks.map Mark.token) := by
  refine List.forall₂_map_right_iff.2 (List.forall₂_same.2 fun m hm => ?_)
  cases m with
  | kept t => rfl
  | any kind => rfl
  | impossible => exact absurd (h _ hm) Bool.false_ne_true

/-- no end mark stands in the text of proper marks -/
theorem no_end_of_spells {marks : List Mark} (h : ∀ m ∈ marks, m.isProper = true) {tokens : List Token}
    (hs : Spells marks tokens) : ∀ t ∈ tokens, t.kind ≠ .eof := by
  induction hs with
  | nil => simp
  | @cons m t marks tokens hm _ ih =>
    obtain ⟨hproper, hmarks⟩ := List.forall_mem_cons.1 h
    refine List.forall_mem_cons.2 ⟨?_, ih hmarks⟩
    cases m with
    | kept u =>
      rw [show t = u from hm]
      exact of_decide_eq_true hproper
    | any kind =>
      rw [show t.kind = kind from hm]
      exact of_decide_eq_true hproper
    | impossible => exact absurd hproper Bool.false_ne_true

/-! ## Spelling piece by piece -/

namespace Spells

variable {marks more : List Mark} {tokens later : List Token}

theorem append (h : Spells marks tokens) (h' : Spells more later) : Spells (marks ++ more) (tokens ++ later) :=
  List.rel_append h h'

theorem split (h : Spells (marks ++ more) tokens) :
    ∃ first second, tokens = first ++ second ∧ Spells marks first ∧ Spells more second := by
  induction marks generalizing tokens with
  | nil => exact ⟨[], tokens, rfl, .nil, h⟩
  | cons mark marks ih =>
    obtain ⟨t, rest, ht, hrest, rfl⟩ := List.forall₂_cons_left_iff.1 h
    obtain ⟨first, second, rfl, hfirst, hsecond⟩ := ih hrest
    exact ⟨t :: first, second, rfl, .cons ht hfirst, hsecond⟩

theorem kept_cons {t : Token} : Spells (.kept t :: marks) tokens ↔ ∃ rest, tokens = t :: rest ∧ Spells marks rest := by
  refine List.forall₂_cons_left_iff.trans ?_
  constructor
  · rintro ⟨u, rest, rfl, hrest, rfl⟩
    exact ⟨rest, rfl, hrest⟩
  · rintro ⟨rest, rfl, hrest⟩
    exact ⟨t, rest, rfl, hrest, rfl⟩

theorem any_cons {kind : TokenKind} :
    Spells (.any kind :: marks) tokens ↔ ∃ t rest, tokens = t :: rest ∧ t.kind = kind ∧ Spells marks rest := by
  refine List.forall₂_cons_left_iff.trans ?_
  constructor
  · rintro ⟨t, rest, ht, hrest, rfl⟩
    exact ⟨t, rest, rfl, ht, hrest⟩
  · rintro ⟨t, rest, rfl, ht, hrest⟩
    exact ⟨t, rest, ht, hrest, rfl⟩

theorem any_singleton {kind : TokenKind} : Spells [.any kind] tokens ↔ ∃ t, tokens = [t] ∧ t.kind = kind := by
  refine any_cons.trans ⟨?_, ?_⟩
  · rintro ⟨t, rest, rfl, ht, hrest⟩
    cases hrest
    exact ⟨t, rfl, ht⟩
  · rintro ⟨t, rfl, ht⟩
    exact ⟨t, [], rfl, ht, .nil⟩

end Spells

end Scriptlet
