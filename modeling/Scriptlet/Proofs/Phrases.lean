/-
The grammar as a definition of its own. A `Phrase` of a kind is a token list that the grammar derives from that kind,
production by production, and nothing is said about how it is read. Compared with what can be read there are two
liberties: there is no limit to the nesting, and an assignment may have any operators on its left,

  assignment : disjunction ( "=" assignment )? ;

as a target that is no name is told and passed over. A text is `Grammatical` if it is a row of declarations.

Operators stand on tiers, as in `Expr.fits`: `operand 0` are the signed expressions, and `operand (k + 1)` is a chain of
operands of tier k with operators of tier k between them, so `operand 6` are the disjunctions. The `else` of a
conditional may be derived in two ways if there are two conditionals that could have it; both give the same token list.

- `Phrase.exists_operand`, `Phrase.exists_expression`, `Phrase.exists_statement`: there are phrases of these kinds.
- `Phrase.first`: the tokens with which they begin.
- `Phrase.no_semicolon`: an expression holds no semicolon.
-/
import Mathlib
import Scriptlet.Proofs.Completeness

namespace Scriptlet

inductive PhraseKind where
  /-- any number of declarations and other statements -/
  | declarations
  /-- a declaration or another statement -/
  | declaration
  /-- a statement that declares nothing -/
  | statement
  | expression
  /-- what an operator of the tier joins -/
  | operand (tier : Nat)
  /-- any number of operators of the tier, each with its right operand -/
  | operations (tier : Nat)

def tierOperators : Nat → List TokenKind
  | 0 => [.star, .slash]
  | 1 => [.minus, .plus]
  | 2 => [.greater, .greaterEqual, .less, .lessEqual]
  | 3 => [.bangEqual, .equalEqual]
  | 4 => [.kwAnd]
  | 5 => [.kwOr]
  | _ => []

/-- the kinds of tokens that are an expression by themselves -/
def TokenKind.isAtom : TokenKind → Bool
  | .number _ | .string _ | .kwTrue | .kwFalse | .identifier => true
  | _ => false

/-- the token lists that the grammar derives -/
inductive Phrase : PhraseKind → List Token → Prop
  | noDeclaration : Phrase .declarations []
  | moreDeclarations {first rest : List Token} (one : Phrase .declaration first) (more : Phrase .declarations rest) :
    Phrase .declarations (first ++ rest)
  | declared {var name semicolon : Token} (hvar : var.kind = .kwVar) (hname : name.kind = .identifier)
      (hsemicolon : semicolon.kind = .semicolon) :
    Phrase .declaration [var, name, semicolon]
  | initialized {var name equal semicolon : Token} {initial : List Token} (hvar : var.kind = .kwVar)
      (hname : name.kind = .identifier) (hequal : equal.kind = .equal) (value : Phrase .expression initial)
      (hsemicolon : semicolon.kind = .semicolon) :
    Phrase .declaration (var :: name :: equal :: (initial ++ [semicolon]))
  | command {tokens : List Token} (statement : Phrase .statement tokens) : Phrase .declaration tokens
  | conditional {keyword opening closing : Token} {condition yes : List Token} (hkeyword : keyword.kind = .kwIf)
      (hopening : opening.kind = .leftParen) (test : Phrase .expression condition)
      (hclosing : closing.kind = .rightParen)
      (branch : Phrase .statement yes) :
    Phrase .statement (keyword :: opening :: (condition ++ closing :: yes))
  | alternative {keyword opening closing mark : Token} {condition yes no : List Token} (hkeyword : keyword.kind = .kwIf)
      (hopening : opening.kind = .leftParen) (test : Phrase .expression condition)
      (hclosing : closing.kind = .rightParen)
      (branch : Phrase .statement yes) (hmark : mark.kind = .kwElse) (other : Phrase .statement no) :
    Phrase .statement (keyword :: opening :: (condition ++ closing :: (yes ++ mark :: no)))
  | printed {keyword semicolon : Token} {tokens : List Token} (hkeyword : keyword.kind = .kwPrint)
      (value : Phrase .expression tokens) (hsemicolon : semicolon.kind = .semicolon) :
    Phrase .statement (keyword :: (tokens ++ [semicolon]))
  | block {opening closing : Token} {body : List Token} (hopening : opening.kind = .leftBrace)
      (inside : Phrase .declarations body) (hclosing : closing.kind = .rightBrace) :
    Phrase .statement (opening :: (body ++ [closing]))
  | bare {semicolon : Token} {tokens : List Token} (value : Phrase .expression tokens)
      (hsemicolon : semicolon.kind = .semicolon) :
    Phrase .statement (tokens ++ [semicolon])
  | disjunction {tokens : List Token} (operands : Phrase (.operand 6) tokens) : Phrase .expression tokens
  | assignment {equal : Token} {target assigned : List Token} (left : Phrase (.operand 6) target)
      (hequal : equal.kind = .equal) (value : Phrase .expression assigned) :
    Phrase .expression (target ++ equal :: assigned)
  | chain {tier : Nat} {first more : List Token} (operand : Phrase (.operand tier) first)
      (operations : Phrase (.operations tier) more) :
    Phrase (.operand (tier + 1)) (first ++ more)
  | noOperation {tier : Nat} : Phrase (.operations tier) []
  | moreOperations {tier : Nat} {operator : Token} {right more : List Token}
      (hoperator : operator.kind ∈ tierOperators tier) (operand : Phrase (.operand tier) right)
      (operations : Phrase (.operations tier) more) :
    Phrase (.operations tier) (operator :: (right ++ more))
  | signed {sign : Token} {tokens : List Token} (hsign : sign.kind = .bang ∨ sign.kind = .minus)
      (operand : Phrase (.operand 0) tokens) :
    Phrase (.operand 0) (sign :: tokens)
  | atom {t : Token} (hatom : t.kind.isAtom = true) : Phrase (.operand 0) [t]
  | grouping {opening closing : Token} {inner : List Token} (hopening : opening.kind = .leftParen)
      (value : Phrase .expression inner) (hclosing : closing.kind = .rightParen) :
    Phrase (.operand 0) (opening :: (inner ++ [closing]))

/-- the token list can be derived as a whole text -/
def Grammatical (tokens : List Token) : Prop := Phrase .declarations tokens

/-! ## The tables of the grammar rules -/

theorem mem_tierOperators {kind : TokenKind} {tier : Nat} :
    kind ∈ tierOperators tier ↔ Level.accepts tier kind = true := by
  rcases tier with - | - | - | - | - | - | tier <;> cases kind <;>
    simp [tierOperators, Level.accepts, Level.isFactor, Level.isTerm, Level.isComparison, Level.isEquality]

theorem atom?_isSome (t : Token) : (Level.atom? t).isSome = t.kind.isAtom := by
  unfold Level.atom? TokenKind.isAtom
  cases t.kind <;> rfl

/-! ## Phrases of every kind -/

namespace Phrase

theorem exists_operand (tier : Nat) : ∃ tokens, Phrase (.operand tier) tokens := by
  induction tier with
  | zero => exact ⟨[⟨.identifier, "a", 1⟩], .atom rfl⟩
  | succ tier ih =>
    obtain ⟨tokens, htokens⟩ := ih
    exact ⟨tokens ++ [], .chain htokens .noOperation⟩

theorem exists_expression : ∃ tokens, Phrase .expression tokens := by
  obtain ⟨tokens, htokens⟩ := exists_operand 6
  exact ⟨tokens, .disjunction htokens⟩

theorem exists_statement : ∃ tokens, Phrase .statement tokens := by
  obtain ⟨tokens, htokens⟩ := exists_expression
  exact ⟨tokens ++ [⟨.semicolon, ";", 1⟩], .bare htokens rfl⟩

end Phrase

/-! ## First tokens -/

/-- may a phrase of the kind begin with the token -/
def PhraseKind.Opens : PhraseKind → Token → Prop
  | .declarations, t | .declaration, t => t.kind ≠ .kwElse ∧ t.kind ≠ .rightBrace
  | .statement, t => t.kind ≠ .kwElse ∧ t.kind ≠ .rightBrace ∧ t.kind ≠ .kwVar
  | .expression, t | .operand _, t => t.kind.beginsExpr = true
  | .operations tier, t => t.kind ∈ tierOperators tier

/-- may a phrase of the kind be empty -/
def PhraseKind.isRepetition : PhraseKind → Bool
  | .declarations | .operations _ => true
  | _ => false

theorem opens_of_kind {t : Token} {kind : TokenKind} (h : t.kind = kind)
    (hkind : kind ≠ .kwElse ∧ kind ≠ .rightBrace ∧ kind ≠ .kwVar) : PhraseKind.statement.Opens t := by
  subst h
  exact hkind

theorem opens_of_beginsExpr {t : Token} (h : t.kind.beginsExpr = true) : PhraseKind.statement.Opens t := by
  refine ⟨?_, ?_, ?_⟩ <;> intro hkind <;> rw [hkind] at h <;> cases h

namespace Phrase

/-- a phrase begins with a token of its kind, if it is not an empty repetition -/
theorem first {kind : PhraseKind} {tokens : List Token} (h : Phrase kind tokens) :
    (kind.isRepetition = true ∧ tokens = []) ∨ ∃ t rest, tokens = t :: rest ∧ kind.Opens t := by
  induction h with
  | noDeclaration => exact .inl ⟨rfl, rfl⟩
  | noOperation => exact .inl ⟨rfl, rfl⟩
  | @moreDeclarations first rest one more ih _ =>
    obtain ⟨hbad, -⟩ | ⟨t, behind, rfl, ht⟩ := ih
    · cases hbad
    · exact .inr ⟨t, behind ++ rest, rfl, ht⟩
  | declared hvar => exact .inr ⟨_, _, rfl, by rw [hvar]; decide, by rw [hvar]; decide⟩
  | initialized hvar => exact .inr ⟨_, _, rfl, by rw [hvar]; decide, by rw [hvar]; decide⟩
  | command statement ih =>
    obtain ⟨hbad, -⟩ | ⟨t, behind, rfl, ht⟩ := ih
    · cases hbad
    · exact .inr ⟨t, behind, rfl, ht.1, ht.2.1⟩
  | conditional hkeyword => exact .inr ⟨_, _, rfl, opens_of_kind hkeyword (by decide)⟩
  | alternative hkeyword => exact .inr ⟨_, _, rfl, opens_of_kind hkeyword (by decide)⟩
  | printed hkeyword => exact .inr ⟨_, _, rfl, opens_of_kind hkeyword (by decide)⟩
  | block hopening => exact .inr ⟨_, _, rfl, opens_of_kind hopening (by decide)⟩
  | @bare semicolon tokens value hsemicolon ih =>
    obtain ⟨hbad, -⟩ | ⟨t, behind, rfl, ht⟩ := ih
    · cases hbad
    · exact .inr ⟨t, behind ++ [semicolon], rfl, opens_of_beginsExpr ht⟩
  | disjunction operands ih =>
    obtain ⟨hbad, -⟩ | ⟨t, behind, rfl, ht⟩ := ih
    · cases hbad
    · exact .inr ⟨t, behind, rfl, ht⟩
  | @assignment equal target assigned left hequal value ih _ =>
    obtain ⟨hbad, -⟩ | ⟨t, behind, rfl, ht⟩ := ih
    · cases hbad
    · exact .inr ⟨t, behind ++ equal :: assigned, rfl, ht⟩
  | @chain tier first more operand operations ih _ =>
    obtain ⟨hbad, -⟩ | ⟨t, behind, rfl, ht⟩ := ih
    · cases hbad
    · exact .inr ⟨t, behind ++ more, rfl, ht⟩
  | moreOperations hoperator => exact .inr ⟨_, _, rfl, hoperator⟩
  | @signed sign tokens hsign operand ih =>
    refine .inr ⟨sign, tokens, rfl, ?_⟩
    rcases hsign with hsign | hsign
    · exact congrArg TokenKind.beginsExpr hsign
    · exact congrArg TokenKind.beginsExpr hsign
  | @atom t hatom =>
    refine .inr ⟨t, [], rfl, ?_⟩
    unfold TokenKind.isAtom at hatom
    split at hatom
    all_goals first
      | rename_i hkind; exact congrArg TokenKind.beginsExpr hkind
      | cases hatom
  | grouping hopening => exact .inr ⟨_, _, rfl, congrArg TokenKind.beginsExpr hopening⟩

end Phrase

/-! ## Semicolons -/

/-- is a phrase of the kind part of an expression -/
def PhraseKind.isExpression : PhraseKind → Bool
  | .expression | .operand _ | .operations _ => true
  | _ => false

theorem ne_semicolon_of_kind {t : Token} {kind : TokenKind} (h : t.kind = kind) (hkind : kind ≠ .semicolon) :
    t.kind ≠ .semicolon := by
  rwa [h]

/-- no semicolon stands in an expression -/
theorem Phrase.no_semicolon {kind : PhraseKind} {tokens : List Token} (h : Phrase kind tokens)
    (hkind : kind.isExpression = true) : ∀ t ∈ tokens, t.kind ≠ .semicolon := by
  induction h with
  | disjunction operands ih => exact ih rfl
  | assignment left hequal value ihl ihr =>
    exact List.forall_mem_append.2
      ⟨ihl rfl, List.forall_mem_cons.2 ⟨ne_semicolon_of_kind hequal (by decide), ihr rfl⟩⟩
  | chain operand operations ihl ihr => exact List.forall_mem_append.2 ⟨ihl rfl, ihr rfl⟩
  | noOperation => exact nofun
  | @moreOperations tier operator right more hoperator operand operations ihl ihr =>
    have hnot : operator.kind ≠ .semicolon := by
      intro hbad
      rw [hbad] at hoperator
      rcases tier with - | - | - | - | - | - | tier <;> simp [tierOperators] at hoperator
    exact List.forall_mem_cons.2 ⟨hnot, List.forall_mem_append.2 ⟨ihl rfl, ihr rfl⟩⟩
  | signed hsign operand ih =>
    refine List.forall_mem_cons.2 ⟨?_, ih rfl⟩
    rcases hsign with hsign | hsign
    · exact ne_semicolon_of_kind hsign (by decide)
    · exact ne_semicolon_of_kind hsign (by decide)
  | @atom t hatom =>
    refine List.forall_mem_singleton.2 ?_
    intro hbad
    rw [hbad] at hatom
    cases hatom
  | grouping hopening value hclosing ih =>
    refine List.forall_mem_cons.2 ⟨ne_semicolon_of_kind hopening (by decide), List.forall_mem_append.2 ⟨ih rfl, ?_⟩⟩
    exact List.forall_mem_singleton.2 (ne_semicolon_of_kind hclosing (by decide))
  | _ => cases hkind

end Scriptlet
