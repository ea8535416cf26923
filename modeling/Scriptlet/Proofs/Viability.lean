/-
Viable prefixes. Wherever reading breaks off, the tokens read before can be completed to a text of the grammar, so
nothing is read that no text begins with. This is said of strict readings (`Outcome.strict`), which break off at the
first fault that stops a statement: a rule `Speaks` a language if what it reads strictly is a word of the language, and
begins a word of it where reading fails. Every way of composing rules has its counterpart among the operations on
languages, from the product for two rules in turn to the star for a repetition, and each production of the grammar then
bounds the language of its rule by the phrases of its kind. That a rule fails for want of room makes no difference here.

- `Level.speaks_withRoom`: the rules of every level read phrases.
- `sequence_begins`: statements in a row read strictly.
-/
import Mathlib
import Scriptlet.Proofs.Lookahead
import Scriptlet.Proofs.Phrases

namespace Scriptlet

open scoped Computability

variable {α β : Type} {L M : Language Token}

/-- the words of a single token of a kind that `p` accepts -/
def oneOf (p : TokenKind → Bool) : Language Token := {word | ∃ t, word = [t] ∧ p t.kind = true}

def phrases (kind : PhraseKind) : Language Token := {word | Phrase kind word}

/-! ## Words -/

section Words

variable {p : TokenKind → Bool} {word : List Token}

theorem mem_oneOf_mul : word ∈ oneOf p * L ↔ ∃ t rest, word = t :: rest ∧ p t.kind = true ∧ rest ∈ L := by
  constructor
  · intro h
    obtain ⟨-, ⟨t, rfl, ht⟩, rest, hrest, rfl⟩ := Language.mem_mul.1 h
    exact ⟨t, rest, rfl, ht, hrest⟩
  · rintro ⟨t, rest, rfl, ht, hrest⟩
    exact Language.mem_mul.2 ⟨[t], ⟨t, rfl, ht⟩, rest, hrest, rfl⟩

theorem mem_mul_oneOf : word ∈ L * oneOf p ↔ ∃ front t, word = front ++ [t] ∧ front ∈ L ∧ p t.kind = true := by
  constructor
  · intro h
    obtain ⟨front, hfront, -, ⟨t, rfl, ht⟩, rfl⟩ := Language.mem_mul.1 h
    exact ⟨front, t, rfl, hfront, ht⟩
  · rintro ⟨front, t, rfl, hfront, ht⟩
    exact Language.append_mem_mul hfront ⟨t, rfl, ht⟩

theorem exists_mem_mul (hL : ∃ word, word ∈ L) (hM : ∃ word, word ∈ M) : ∃ word, word ∈ L * M := by
  obtain ⟨word, hword⟩ := hL
  obtain ⟨word', hword'⟩ := hM
  exact ⟨word ++ word', Language.append_mem_mul hword hword'⟩

theorem exists_mem_oneOf (kind : TokenKind) : ∃ word, word ∈ oneOf (· = kind) :=
  ⟨[⟨kind, "", 1⟩], _, rfl, decide_eq_true rfl⟩

theorem kstar_of_one (h : word ∈ (1 : Language Token)) : word ∈ L∗ := by
  rw [← Language.one_add_self_mul_kstar_eq_kstar]
  exact .inl h

theorem kstar_of_mul (h : word ∈ L * L∗) : word ∈ L∗ := by
  rw [← Language.one_add_self_mul_kstar_eq_kstar]
  exact .inr h

end Words

/-! ## Outcomes -/

namespace Outcome

/-- what was read is a word of the language, and begins a word of it if reading failed -/
def Begins (tokens : List Token) (L : Language Token) : Outcome α → Prop
  | .done _ rest _ => ∃ read, tokens = read ++ rest ∧ read ∈ L
  | .failed fault _ => ∃ read more, tokens = read ++ fault.unread ∧ read ++ more ∈ L

namespace Begins

variable {tokens rest : List Token} {o : Outcome α}

/-- up to where reading ended, the tokens begin a word -/
theorem exists_read (h : o.Begins tokens L) : ∃ read more, tokens = read ++ o.stop ∧ read ++ more ∈ L := by
  cases o with
  | done value rest reported =>
    obtain ⟨read, hread, hL⟩ := h
    exact ⟨read, [], hread, (List.append_nil read).symm ▸ hL⟩
  | failed fault reported => exact h

theorem mono (h : o.Begins tokens L) (hLM : ∀ word ∈ L, word ∈ M) : o.Begins tokens M := by
  cases o with
  | done value rest reported =>
    obtain ⟨read, hread, hL⟩ := h
    exact ⟨read, hread, hLM _ hL⟩
  | failed fault reported =>
    obtain ⟨read, more, hread, hL⟩ := h
    exact ⟨read, more, hread, hLM _ hL⟩

theorem done (value : α) (rest : List Token) : (Outcome.done value rest []).Begins rest 1 := ⟨[], rfl, rfl⟩

theorem preceded (h : o.Begins tokens L) (earlier : List Fault) : (o.preceded earlier).Begins tokens L := by
  cases o <;> exact h

/-- words of one language before those of another; where reading fails already in the first, any word completes it -/
theorem andThen {next : α → List Token → Outcome β} (h : o.Begins tokens L) (hM : ∃ word, word ∈ M)
    (hnext : ∀ value rest reported, o = .done value rest reported → (next value rest).Begins rest M) :
    (o.andThen next).Begins tokens (L * M) := by
  cases o with
  | failed fault reported =>
    obtain ⟨read, more, hread, hL⟩ := h
    obtain ⟨word, hword⟩ := hM
    refine ⟨read, more ++ word, hread, ?_⟩
    rw [← List.append_assoc]
    exact Language.append_mem_mul hL hword
  | done value rest reported =>
    obtain ⟨read, rfl, hL⟩ := h
    refine preceded ?_ reported
    have hrest := hnext value rest reported rfl
    cases hrun : next value rest with
    | done value' rest' later =>
      rw [hrun] at hrest
      obtain ⟨read', rfl, hM⟩ := hrest
      exact ⟨read ++ read', (List.append_assoc _ _ _).symm, Language.append_mem_mul hL hM⟩
    | failed fault later =>
      rw [hrun] at hrest
      obtain ⟨read', more, rfl, hM⟩ := hrest
      refine ⟨read ++ read', more, (List.append_assoc _ _ _).symm, ?_⟩
      rw [List.append_assoc]
      exact Language.append_mem_mul hL hM

/-- behind a token that has been read -/
theorem cons {p : TokenKind → Bool} {t : Token} (h : o.Begins tokens L) (ht : p t.kind = true) :
    o.Begins (t :: tokens) (oneOf p * L) := by
  cases o with
  | done value rest reported =>
    obtain ⟨read, rfl, hL⟩ := h
    exact ⟨t :: read, rfl, mem_oneOf_mul.2 ⟨t, read, rfl, ht, hL⟩⟩
  | failed fault reported =>
    obtain ⟨read, more, rfl, hL⟩ := h
    exact ⟨t :: read, more, rfl, mem_oneOf_mul.2 ⟨t, read ++ more, rfl, ht, hL⟩⟩

end Begins

end Outcome

/-! ## Rules -/

/-- the rule reads words of the language, and fails behind what begins a word of it -/
structure Rule.Speaks (a : Rule α) (L : Language Token) : Prop where
  inhabited : ∃ word, word ∈ L
  begins : ∀ tokens, (a.run tokens).strict.Begins tokens L

namespace Rule

theorem Speaks.mono {a : Rule α} (ha : a.Speaks L) (hLM : ∀ word ∈ L, word ∈ M) : a.Speaks M where
  inhabited := ha.inhabited.imp hLM
  begins tokens := (ha.begins tokens).mono hLM

/-- a rule that always fails at once -/
theorem speaks_fail (cause : Cause) (hL : ∃ word, word ∈ L) : (fail cause : Rule α).Speaks L where
  inhabited := hL
  begins tokens := by
    obtain ⟨word, hword⟩ := hL
    exact ⟨[], word, rfl, hword⟩

theorem Speaks.atom {f : Token → Option α} {otherwise : Rule α} (hf : ∀ t, (f t).isSome = true → [t] ∈ L)
    (ho : otherwise.Speaks L) : (atom f otherwise).Speaks L where
  inhabited := ho.inhabited
  begins tokens := by
    cases tokens with
    | nil => exact ho.begins []
    | cons t rest =>
      simp only [Rule.atom]
      split
      · rename_i value hvalue
        exact ⟨[t], rfl, hf t (by rw [hvalue]; rfl)⟩
      · exact ho.begins (t :: rest)

theorem speaks_expect (kind : TokenKind) (cause : Cause) : (expect kind cause).Speaks (oneOf (· = kind)) := by
  refine .atom ?_ (speaks_fail cause (exists_mem_oneOf kind))
  intro t ht
  refine ⟨t, rfl, ?_⟩
  split at ht
  · rename_i hkind
    exact decide_eq_true hkind
  · cases ht

theorem Speaks.bind {a : Rule α} {f : α → Rule β} (ha : a.Speaks L) (hM : ∃ word, word ∈ M)
    (hf : ∀ value, (f value).Speaks M) : (a.bind f).Speaks (L * M) where
  inhabited := exists_mem_mul ha.inhabited hM
  begins tokens := by
    simp only [Rule.bind, Outcome.strict_andThen]
    exact (ha.begins tokens).andThen hM fun value rest _ _ => (hf value).begins rest

theorem Speaks.map {a : Rule α} (ha : a.Speaks L) (f : α → β) : (a.map f).Speaks L where
  inhabited := ha.inhabited
  begins tokens := by
    simp only [Rule.map, Rule.conclude, Outcome.strict_andThen]
    rw [← mul_one L]
    exact (ha.begins tokens).andThen ⟨[], rfl⟩ fun value rest _ _ => .done (f value) rest

theorem Speaks.left {a : Rule α} {b : Rule β} (ha : a.Speaks L) (hb : b.Speaks M) : (a.left b).Speaks (L * M) :=
  ha.bind hb.inhabited fun _ => hb.map _

theorem Speaks.right {a : Rule α} {b : Rule β} (ha : a.Speaks L) (hb : b.Speaks M) : (a.right b).Speaks (L * M) :=
  ha.bind hb.inhabited fun _ => hb

/-- two ways to read words of one language -/
theorem Speaks.after {p : TokenKind → Bool} {yes : Token → Rule α} {no : Rule α} (hyes : ∀ t, (yes t).Speaks L)
    (hword : ∀ word ∈ oneOf p * L, word ∈ M) (hno : no.Speaks M) : (after p yes no).Speaks M where
  inhabited := hno.inhabited
  begins tokens := by
    cases tokens with
    | nil => exact hno.begins []
    | cons t rest =>
      simp only [Rule.after]
      split_ifs with ht
      · exact (((hyes t).begins rest).cons ht).mono hword
      · exact hno.begins (t :: rest)

theorem Speaks.refuse {p : TokenKind → Bool} {cause : Token → Cause} {otherwise : Rule α} (ho : otherwise.Speaks L) :
    (refuse p cause otherwise).Speaks L where
  inhabited := ho.inhabited
  begins tokens := by
    cases tokens with
    | nil => exact ho.begins []
    | cons t rest =>
      simp only [Rule.refuse]
      split_ifs
      · exact (speaks_fail (cause t) ho.inhabited : (fail (cause t) : Rule α).Speaks L).begins (t :: rest)
      · exact ho.begins (t :: rest)

theorem Speaks.followed {a : Rule α} {p : TokenKind → Bool} {more : α → List Token → Rule β} {plain : α → β}
    (ha : a.Speaks L) (hmore : ∀ value here, (more value here).Speaks M) :
    (a.followed p more plain).Speaks (L * (1 + oneOf p * M)) where
  inhabited := exists_mem_mul ha.inhabited ⟨[], .inl rfl⟩
  begins tokens := by
    simp only [Rule.followed, Outcome.strict_andThen]
    refine (ha.begins tokens).andThen ⟨[], .inl rfl⟩ ?_
    intro value rest _ _
    cases rest with
    | nil => exact (Outcome.Begins.done (plain value) []).mono fun _ => .inl
    | cons t behind =>
      dsimp only
      split_ifs with ht
      · exact (((hmore value (t :: behind)).begins behind).cons ht).mono fun _ => .inr
      · exact (Outcome.Begins.done (plain value) (t :: behind)).mono fun _ => .inl

/-! ## Repetition -/

section Chain

variable {operand : Rule Expr} {p : TokenKind → Bool} {join : Expr → Token → Expr → Expr}

theorem chainFrom_begins (hoperand : operand.Speaks L) (left : Expr) (tokens : List Token) :
    (chainFrom operand p join left tokens).strict.Begins tokens (oneOf p * L)∗ := by
  induction hn : tokens.length using Nat.strong_induction_on generalizing left tokens with
  | _ n ih =>
    by_cases hstop : ∀ t ∈ tokens.head?, p t.kind = false
    · rw [chainFrom_stop hstop]
      exact (Outcome.Begins.done left tokens).mono fun _ => kstar_of_one
    · obtain ⟨operator, behind, rfl, hp⟩ : ∃ operator behind, tokens = operator :: behind ∧ p operator.kind = true := by
        cases tokens with
        | nil => exact absurd nofun hstop
        | cons operator behind => exact ⟨operator, behind, rfl, by simpa using hstop⟩
      rw [chainFrom_step hp, Outcome.strict_andThen]
      refine (((hoperand.begins behind).cons hp).andThen ⟨[], kstar_of_one rfl⟩ ?_).mono fun _ => kstar_of_mul
      intro right rest reported hright
      have hshorter := operand.length_lt_of_strict hright
      refine ih rest.length ?_ _ rest rfl
      simp only [List.length_cons] at hn
      omega

theorem Speaks.chain (hoperand : operand.Speaks L) : (operand.chain p join).Speaks (L * (oneOf p * L)∗) where
  inhabited := exists_mem_mul hoperand.inhabited ⟨[], kstar_of_one rfl⟩
  begins tokens := by
    simp only [Rule.chain, Outcome.strict_andThen]
    exact (hoperand.begins tokens).andThen ⟨[], kstar_of_one rfl⟩ fun left rest _ _ =>
      chainFrom_begins hoperand left rest

end Chain

end Rule

section Sequences

variable {statement : Rule Stmt} {closes : TokenKind → Bool}

theorem sequence_begins (hstops : statement.FailsForGood) (hstatement : statement.Speaks L) (tokens : List Token) :
    (sequence statement closes tokens).strict.Begins tokens L∗ := by
  induction hn : tokens.length using Nat.strong_induction_on generalizing tokens with
  | _ n ih =>
    by_cases hclosed : ∀ t ∈ tokens.head?, closes t.kind = true
    · rw [sequence_strict_closed hclosed]
      exact (Outcome.Begins.done [] tokens).mono fun _ => kstar_of_one
    · obtain ⟨t, behind, rfl, ht⟩ : ∃ t behind, tokens = t :: behind ∧ closes t.kind = false := by
        cases tokens with
        | nil => exact absurd nofun hclosed
        | cons t behind => exact ⟨t, behind, rfl, by simpa using hclosed⟩
      rw [sequence_strict_cons hstops ht]
      refine ((hstatement.begins (t :: behind)).andThen ⟨[], kstar_of_one rfl⟩ ?_).mono fun _ => kstar_of_mul
      intro s rest reported hs
      rw [← mul_one L∗]
      have hlater := ih rest.length (hn ▸ statement.length_lt_of_strict hs) rest rfl
      exact hlater.andThen ⟨[], rfl⟩ fun later rest _ _ => .done (s :: later) rest

theorem Rule.Speaks.block (hstops : statement.FailsForGood) (hstatement : statement.Speaks L) :
    (Rule.block statement).Speaks (L∗ * oneOf (· = .rightBrace)) where
  inhabited := exists_mem_mul ⟨[], kstar_of_one rfl⟩ (exists_mem_oneOf _)
  begins tokens := by
    rw [block_strict]
    exact (sequence_begins hstops hstatement tokens).andThen (exists_mem_oneOf _)
      fun body rest _ _ => ((Rule.speaks_expect .rightBrace .expectBraceAfterBlock).map _).begins rest

end Sequences

/-! ## Productions -/

/-- the inside of a block and its closing brace -/
def enclosed : Language Token := phrases .declarations * oneOf (· = .rightBrace)

/-- the rules of a level read phrases -/
structure Level.Speaks (level : Level) : Prop where
  assignment : level.assignment.Speaks (phrases .expression)
  unary : level.unary.Speaks (phrases (.operand 0))
  statement : level.statement.Speaks (phrases .statement)
  declaration : level.declaration.Speaks (phrases .declaration)
  block : level.block.Speaks enclosed

/-- operators with their right operands -/
theorem phrase_of_kstar {k : Nat} {word : List Token}
    (h : word ∈ (oneOf (Level.accepts k) * phrases (.operand k))∗) : Phrase (.operations k) word := by
  obtain ⟨words, rfl, hwords⟩ := h
  induction words with
  | nil => exact .noOperation
  | cons first words ih =>
    obtain ⟨hfirst, hlater⟩ := List.forall_mem_cons.1 hwords
    obtain ⟨operator, right, rfl, hoperator, hright⟩ := mem_oneOf_mul.1 hfirst
    exact .moreOperations (mem_tierOperators.2 hoperator) hright (ih hlater)

/-- declarations in a row -/
theorem phrases_of_kstar {word : List Token} (h : word ∈ (phrases .declaration)∗) : Phrase .declarations word := by
  obtain ⟨words, rfl, hwords⟩ := h
  induction words with
  | nil => exact .noDeclaration
  | cons first words ih =>
    obtain ⟨hfirst, hlater⟩ := List.forall_mem_cons.1 hwords
    exact .moreDeclarations hfirst (ih hlater)

namespace Level

namespace Speaks

variable {inside : Level} (h : inside.Speaks)

include h

theorem closedBy (kind : TokenKind) (cause : Cause) :
    (inside.expression.left (.expect kind cause)).Speaks (phrases .expression * oneOf (· = kind)) :=
  h.assignment.left (Rule.speaks_expect kind cause)

theorem primary : inside.primary.Speaks (phrases (.operand 0)) := by
  refine .atom ?_ (.after (fun _ => (h.closedBy _ _).map _) ?_ (Rule.speaks_fail _ (Phrase.exists_operand 0)))
  · intro t ht
    rw [atom?_isSome] at ht
    exact .atom ht
  · intro word hword
    obtain ⟨opening, behind, rfl, hopening, hbehind⟩ := mem_oneOf_mul.1 hword
    obtain ⟨inner, closing, rfl, hinner, hclosing⟩ := mem_mul_oneOf.1 hbehind
    exact .grouping (of_decide_eq_true hopening) hinner (of_decide_eq_true hclosing)

theorem signed : inside.signed.Speaks (phrases (.operand 0)) := by
  refine .after (fun _ => h.unary.map _) ?_ h.primary
  intro word hword
  obtain ⟨sign, operand, rfl, hsign, hoperand⟩ := mem_oneOf_mul.1 hword
  refine .signed ?_ hoperand
  unfold isSign at hsign
  split at hsign
  · exact .inl ‹_›
  · exact .inr ‹_›
  · cases hsign

/-- each tier is a chain over the tier below -/
theorem tier (k : Nat) : (inside.tier k).Speaks (phrases (.operand k)) := by
  induction k with
  | zero => exact h.signed
  | succ k ih =>
    refine ih.chain.mono ?_
    intro word hword
    obtain ⟨first, hfirst, more, hmore, rfl⟩ := Language.mem_mul.1 hword
    exact .chain hfirst (phrase_of_kstar hmore)

/-- what follows an equals sign reads on as the value does -/
theorem assigned (target : Expr) (here : List Token) :
    (inside.assignment.conclude (assignTo target here)).Speaks (phrases .expression) where
  inhabited := h.assignment.inhabited
  begins tokens := by
    simp only [Rule.conclude, Outcome.strict_andThen]
    rw [← mul_one (phrases .expression)]
    refine (h.assignment.begins tokens).andThen ⟨[], rfl⟩ ?_
    intro value rest _ _
    cases target <;> exact ⟨[], rfl, rfl⟩

theorem assigning : inside.assigning.Speaks (phrases .expression) := by
  have hdisjunction := h.tier 6
  rw [← disjunction_eq_tier] at hdisjunction
  refine (hdisjunction.followed fun target here => h.assigned target here).mono ?_
  intro word hword
  obtain ⟨target, htarget, more, hnone | hmore, rfl⟩ := Language.mem_mul.1 hword
  · obtain rfl : more = [] := hnone
    rw [List.append_nil]
    exact .disjunction htarget
  · obtain ⟨equal, value, rfl, hequal, hvalue⟩ := mem_oneOf_mul.1 hmore
    exact .assignment htarget (of_decide_eq_true hequal) hvalue

/-- a conditional behind its keyword -/
theorem conditional : inside.conditional.Speaks
    (oneOf (· = .leftParen) * (phrases .expression * oneOf (· = .rightParen) *
      (phrases .statement * (1 + oneOf (· = .kwElse) * phrases .statement)))) := by
  refine (Rule.speaks_expect _ _).right ((h.closedBy _ _).bind ?_ fun condition => ?_)
  · exact exists_mem_mul h.statement.inhabited ⟨[], .inl rfl⟩
  · exact h.statement.followed fun yes _ => h.statement.map _

theorem bare : inside.bare.Speaks (phrases .statement) := by
  refine ((h.closedBy _ _).map _).mono ?_
  intro word hword
  obtain ⟨value, semicolon, rfl, hvalue, hsemicolon⟩ := mem_mul_oneOf.1 hword
  exact .bare hvalue (of_decide_eq_true hsemicolon)

theorem command : inside.command.Speaks (phrases .statement) := by
  refine .after (fun _ => h.conditional) ?conditional <| .after (fun _ => (h.closedBy _ _).map _) ?print <|
    .after (fun _ => h.block.map _) ?block h.bare.refuse
  case block =>
    intro word hword
    obtain ⟨opening, behind, rfl, hopening, hbehind⟩ := mem_oneOf_mul.1 hword
    obtain ⟨body, closing, rfl, hbody, hclosing⟩ := mem_mul_oneOf.1 hbehind
    exact .block (of_decide_eq_true hopening) hbody (of_decide_eq_true hclosing)
  case print =>
    intro word hword
    obtain ⟨keyword, behind, rfl, hkeyword, hbehind⟩ := mem_oneOf_mul.1 hword
    obtain ⟨value, semicolon, rfl, hvalue, hsemicolon⟩ := mem_mul_oneOf.1 hbehind
    exact .printed (of_decide_eq_true hkeyword) hvalue (of_decide_eq_true hsemicolon)
  case conditional =>
    intro word hword
    obtain ⟨keyword, behind, rfl, hkeyword, hbehind⟩ := mem_oneOf_mul.1 hword
    obtain ⟨opening, behind, rfl, hopening, hbehind⟩ := mem_oneOf_mul.1 hbehind
    obtain ⟨test, htest, branches, hbranches, rfl⟩ := Language.mem_mul.1 hbehind
    obtain ⟨condition, closing, rfl, hcondition, hclosing⟩ := mem_mul_oneOf.1 htest
    rw [List.append_assoc]
    obtain ⟨yes, hyes, more, hnone | hmore, rfl⟩ := Language.mem_mul.1 hbranches
    · obtain rfl : more = [] := hnone
      rw [List.append_nil]
      exact .conditional (of_decide_eq_true hkeyword) (of_decide_eq_true hopening) hcondition
        (of_decide_eq_true hclosing) hyes
    · obtain ⟨mark, no, rfl, hmark, hno⟩ := mem_oneOf_mul.1 hmore
      exact .alternative (of_decide_eq_true hkeyword) (of_decide_eq_true hopening) hcondition
        (of_decide_eq_true hclosing) hyes (of_decide_eq_true hmark) hno

/-- a name and its initial value -/
theorem binding : inside.binding.Speaks (oneOf (· = .identifier) * (1 + oneOf (· = .equal) * phrases .expression)) :=
  (Rule.speaks_expect _ _).followed fun _ _ => h.assignment.map _

theorem declared : inside.declared.Speaks (phrases .declaration) := by
  refine .after (fun _ => h.binding.left (Rule.speaks_expect _ _)) ?_ (h.command.mono fun _ => .command)
  intro word hword
  obtain ⟨keyword, behind, rfl, hkeyword, hbehind⟩ := mem_oneOf_mul.1 hword
  obtain ⟨bound, semicolon, rfl, hbound, hsemicolon⟩ := mem_mul_oneOf.1 hbehind
  obtain ⟨name, more, rfl, hname, hnone | hmore⟩ := mem_oneOf_mul.1 hbound
  · obtain rfl : more = [] := hnone
    exact .declared (of_decide_eq_true hkeyword) (of_decide_eq_true hname) (of_decide_eq_true hsemicolon)
  · obtain ⟨equal, initial, rfl, hequal, hinitial⟩ := mem_oneOf_mul.1 hmore
    exact .initialized (of_decide_eq_true hkeyword) (of_decide_eq_true hname) (of_decide_eq_true hequal) hinitial
      (of_decide_eq_true hsemicolon)

/-- one more level; its blocks are read strictly, so the level inside must not fail for a fault that is passed over -/
theorem enclosing (hlocal : inside.declared.Local) : inside.enclosing.Speaks where
  assignment := h.assigning
  unary := h.signed
  statement := h.command
  declaration := h.declared
  block := by
    refine (Rule.Speaks.block hlocal.failsForGood h.declared).mono ?_
    intro word hword
    obtain ⟨body, closing, rfl, hbody, hclosing⟩ := mem_mul_oneOf.1 hword
    exact mem_mul_oneOf.2 ⟨body, closing, rfl, phrases_of_kstar hbody, hclosing⟩

end Speaks

theorem speaks_withRoom (n : Nat) : (withRoom n).Speaks := by
  induction n with
  | zero =>
    have hstatement := Phrase.exists_statement
    refine ⟨Rule.speaks_fail _ Phrase.exists_expression, Rule.speaks_fail _ (Phrase.exists_operand 0),
      Rule.speaks_fail _ hstatement, Rule.speaks_fail _ (hstatement.imp fun _ => .command), Rule.speaks_fail _ ?_⟩
    exact exists_mem_mul ⟨[], .noDeclaration⟩ (exists_mem_oneOf _)
  | succ n ih => exact ih.enclosing (local_declared n)

end Level

end Scriptlet
