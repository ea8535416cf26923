/-
The first fault is found as early as possible. Where reading first breaks off, the tokens before it still begin a text
of the grammar (`sequence_begins`), and with the token to blame they do not any more. The second half takes three steps.
A text of the grammar is read to its end, unless it nests too deep (`Phrase.passes`, by induction on the derivation).
What is read up to a token does not depend on what stands behind that token (`sequence_continues`). So a text of the
grammar that begins with the same tokens would break off at the same token, for the same cause, which it does not.

A reading goes to a place if it ends there, or else ends for want of room (`Outcome.GoesTo`). The one place where a
derivation and the reading of it differ is an `else` behind several conditionals: it is read with the last of them,
whichever it was derived with. `Paired` has those statements in which each `else` stands with the last conditional, and
`Paired.otherwise` brings every other statement into that form.

- `Phrase.passes`: phrases are read as a whole.
- `Parsing.first_fault_earliest`: the first fault stands at the first token that no text of the grammar continues with.
-/
import Mathlib
import Scriptlet.Proofs.Viability

namespace Scriptlet

open Level

variable {α β : Type}

/-! ## Readings that go well -/

namespace Outcome

/-- reading ended well and left the tokens `stop`, or else it failed for want of room -/
def GoesTo (stop : List Token) : Outcome α → Prop
  | .done _ rest _ => rest = stop
  | .failed fault _ => fault.cause = .tooMuchNesting

theorem GoesTo.andThen {o : Outcome α} {mid stop : List Token} {next : α → List Token → Outcome β} (h : o.GoesTo mid)
    (hnext : ∀ value, (next value mid).GoesTo stop) : (o.andThen next).GoesTo stop := by
  cases o with
  | done value rest reported =>
    obtain rfl : rest = mid := h
    have hrest := hnext value
    rw [Outcome.andThen]
    cases hrun : next value rest with
    | done value' rest' later => rwa [hrun] at hrest
    | failed fault later => rwa [hrun] at hrest
  | failed fault reported => exact h

end Outcome

namespace Rule

variable {tokens rest behind : List Token} {t : Token}

/-- the rule goes well on the tokens and leaves `rest` -/
def Passes (a : Rule α) (tokens rest : List Token) : Prop := (a.run tokens).strict.GoesTo rest

theorem passes_of_run {a : Rule α} {value : α} (h : a.run tokens = .done value rest []) : a.Passes tokens rest := by
  rw [Passes, h]
  rfl

theorem Passes.bind {a : Rule α} {f : α → Rule β} (ha : a.Passes tokens behind)
    (hf : ∀ value, (f value).Passes behind rest) : (a.bind f).Passes tokens rest := by
  rw [Passes, Rule.bind, Outcome.strict_andThen]
  exact Outcome.GoesTo.andThen ha hf

theorem Passes.map {a : Rule α} (ha : a.Passes tokens rest) (f : α → β) : (a.map f).Passes tokens rest := by
  rw [Passes, Rule.map, Rule.conclude, Outcome.strict_andThen]
  exact Outcome.GoesTo.andThen ha fun _ => rfl

/-- a rule, and then the token that must stand behind it -/
theorem Passes.left {a : Rule α} {kind : TokenKind} {cause : Cause} (ha : a.Passes tokens (t :: rest))
    (ht : t.kind = kind) : (a.left (expect kind cause)).Passes tokens rest :=
  ha.bind fun _ => (passes_of_run (run_expect ht)).map _

/-- a rule behind which something follows -/
theorem Passes.followed {a : Rule α} {p : TokenKind → Bool} {more : α → List Token → Rule β} {plain : α → β}
    (ha : a.Passes tokens (t :: behind)) (ht : p t.kind = true)
    (hmore : ∀ value, (more value (t :: behind)).Passes behind rest) :
    (a.followed p more plain).Passes tokens rest := by
  rw [Passes, Rule.followed, Outcome.strict_andThen]
  refine Outcome.GoesTo.andThen ha ?_
  intro value
  dsimp only
  rw [if_pos ht]
  exact hmore value

/-- a rule behind which nothing follows -/
theorem Passes.plain {a : Rule α} {p : TokenKind → Bool} {more : α → List Token → Rule β} {plain : α → β}
    (ha : a.Passes tokens rest) (hrest : ∀ t ∈ rest.head?, p t.kind = false) :
    (a.followed p more plain).Passes tokens rest := by
  rw [Passes, Rule.followed, Outcome.strict_andThen]
  refine Outcome.GoesTo.andThen ha ?_
  intro value
  cases rest with
  | nil => rfl
  | cons t behind =>
    dsimp only
    rw [if_neg (by simp [hrest t rfl])]
    rfl

end Rule

/-- One level deeper a rule reads the same, or there is no room. -/
theorem Level.passes_nested (rule : Level → Rule α) (hfail : rule .exhausted = .fail .tooMuchNesting) {n : Nat}
    {tokens rest : List Token} (h : ∀ m, (rule (withRoom m).enclosing).Passes tokens rest) :
    (rule (withRoom n)).Passes tokens rest := by
  cases n with
  | zero =>
    rw [withRoom, hfail]
    rfl
  | succ n => exact h n

/-! ## Phrases -/

/-- each `else` of the statement stands with the last conditional before it; a loose one ends in a conditional that has
none -/
inductive Paired : Bool → List Token → Prop
  | plain {tokens : List Token} (h : ∀ n rest, (withRoom n).command.Passes (tokens ++ rest) rest) : Paired false tokens
  | conditional {loose : Bool} {keyword opening closing : Token} {condition yes : List Token}
      (hkeyword : keyword.kind = .kwIf) (hopening : opening.kind = .leftParen)
      (test : ∀ n rest, ClosesExpr rest → (withRoom n).assigning.Passes (condition ++ rest) rest)
      (hclosing : closing.kind = .rightParen) (branch : Paired loose yes) :
    Paired true (keyword :: opening :: (condition ++ closing :: yes))
  | alternative {loose : Bool} {keyword opening closing mark : Token} {condition yes no : List Token}
      (hkeyword : keyword.kind = .kwIf) (hopening : opening.kind = .leftParen)
      (test : ∀ n rest, ClosesExpr rest → (withRoom n).assigning.Passes (condition ++ rest) rest)
      (hclosing : closing.kind = .rightParen) (branch : Paired false yes) (hmark : mark.kind = .kwElse)
      (other : Paired loose no) :
    Paired loose (keyword :: opening :: (condition ++ closing :: (yes ++ mark :: no)))

/-- phrases of the kind are read as a whole, with any room and before anything that does not carry on with them -/
def PhraseKind.Passes : PhraseKind → List Token → Prop
  | .declarations, tokens => ∀ n (closes : TokenKind → Bool) rest, (∀ kind, closes kind = true → kind = .rightBrace) →
    (∀ t ∈ rest.head?, closes t.kind = true) →
    (sequence (withRoom n).declared closes (tokens ++ rest)).strict.GoesTo rest
  | .declaration, tokens => ∀ n rest, NoElse rest → (withRoom n).declared.Passes (tokens ++ rest) rest
  | .statement, tokens => ∃ loose, Paired loose tokens
  | .expression, tokens => ∀ n rest, ClosesExpr rest → (withRoom n).assigning.Passes (tokens ++ rest) rest
  | .operand tier, tokens => ∀ n rest, StopsAt tier rest → ((withRoom n).tier tier).Passes (tokens ++ rest) rest
  | .operations tier, tokens => ∀ n left rest, StopsAt (tier + 1) rest →
    (((withRoom n).tier tier).chainFrom (accepts tier) (join tier) left (tokens ++ rest)).strict.GoesTo rest

section Statements

variable {tokens condition : List Token} {n : Nat} {opening closing t : Token}

/-- an expression that is closed by the token behind it -/
theorem expression_passes (h : PhraseKind.expression.Passes tokens) (ht : t.kind = .rightParen ∨ t.kind = .semicolon)
    (n : Nat) (rest : List Token) : (withRoom n).expression.Passes (tokens ++ t :: rest) (t :: rest) :=
  passes_nested Level.assignment rfl fun m => h m (t :: rest) (closesExpr_of_kind ht rest)

/-- a conditional is read as its condition and then its branches are -/
theorem conditional_passes {branches rest : List Token} (hopening : opening.kind = .leftParen)
    (test : PhraseKind.expression.Passes condition) (hclosing : closing.kind = .rightParen)
    (hbranches : ∀ e, ((withRoom n).statement.followed (· = .kwElse)
      (fun yes _ => (withRoom n).statement.map (Stmt.branch e yes))
      (fun yes => .branch e yes .skip)).Passes branches rest) :
    (withRoom n).conditional.Passes (opening :: (condition ++ closing :: branches)) rest := by
  have hcondition : ((withRoom n).expression.left (.expect .rightParen .expectParenAfterCondition)).Passes
      (condition ++ closing :: branches) branches := (expression_passes test (.inl hclosing) n branches).left hclosing
  exact (Rule.passes_of_run (Rule.run_expect hopening)).bind fun _ => hcondition.bind hbranches

theorem command_conditional {keyword : Token} (hkeyword : keyword.kind = .kwIf) {rest : List Token}
    (h : (withRoom n).conditional.Passes tokens rest) : (withRoom n).command.Passes (keyword :: tokens) rest := by
  rw [Rule.Passes, command, Rule.run_after_yes (by rw [hkeyword]; rfl)]
  exact h

/-- a statement is read as a whole, if it is not loose or no `else` comes next -/
theorem Paired.passes {loose : Bool} (h : Paired loose tokens) (n : Nat) {rest : List Token}
    (hrest : loose = true → NoElse rest) : (withRoom n).command.Passes (tokens ++ rest) rest := by
  induction h generalizing n rest with
  | plain h => exact h n rest
  | @conditional loose keyword opening closing condition yes hkeyword hopening test hclosing branch ih =>
    have hyes : (withRoom n).statement.Passes (yes ++ rest) rest :=
      passes_nested Level.statement rfl fun m => ih m fun _ => hrest rfl
    rw [List.cons_append, List.cons_append, List.append_assoc]
    refine command_conditional hkeyword (conditional_passes hopening test hclosing fun e => hyes.plain ?_)
    intro t ht
    exact decide_eq_false (hrest rfl t ht)
  | @alternative loose keyword opening closing mark condition yes no hkeyword hopening test hclosing branch hmark other
      ihyes ihno =>
    have hyes : (withRoom n).statement.Passes (yes ++ mark :: (no ++ rest)) (mark :: (no ++ rest)) :=
      passes_nested Level.statement rfl fun m => ihyes m nofun
    have hno : (withRoom n).statement.Passes (no ++ rest) rest :=
      passes_nested Level.statement rfl fun m => ihno m hrest
    rw [List.cons_append, List.cons_append, List.append_assoc, List.cons_append, List.append_assoc, List.cons_append]
    exact command_conditional hkeyword (conditional_passes hopening test hclosing fun e =>
      hyes.followed (decide_eq_true hmark) fun yes => hno.map _)

/-- an `else` behind a loose statement goes to the last conditional in it -/
theorem Paired.otherwise {mark : Token} (hmark : mark.kind = .kwElse) {no : List Token} {loose other : Bool}
    (h : Paired loose tokens) (hloose : loose = true) (hno : Paired other no) :
    ∃ loose, Paired loose (tokens ++ mark :: no) := by
  induction h with
  | plain h => cases hloose
  | @conditional inner keyword opening closing condition yes hkeyword hopening test hclosing branch ih =>
    rw [List.cons_append, List.cons_append, List.append_assoc, List.cons_append]
    cases inner with
    | true =>
      obtain ⟨_, hyes⟩ := ih rfl
      exact ⟨true, .conditional hkeyword hopening test hclosing hyes⟩
    | false => exact ⟨other, .alternative hkeyword hopening test hclosing branch hmark hno⟩
  | @alternative loose keyword opening closing mark' condition yes no' hkeyword hopening test hclosing branch hmark' _
      _ ih =>
    obtain ⟨loose, hother⟩ := ih hloose
    rw [List.cons_append, List.cons_append, List.append_assoc, List.cons_append, List.append_assoc, List.cons_append]
    exact ⟨loose, .alternative hkeyword hopening test hclosing branch hmark' hother⟩

end Statements

section Expressions

variable {first more tokens : List Token} {k : Nat} {t : Token}

theorem stopsAt_equal (ht : t.kind = .equal) (behind : List Token) : StopsAt 6 (t :: behind) := by
  intro u hu j hj
  cases hu
  rw [ht]
  interval_cases j <;> rfl

/-- operators of a tier do not carry on with their first operand -/
theorem Phrase.stopsAt (h : Phrase (.operations k) more) {rest : List Token} (hrest : StopsAt (k + 1) rest) :
    StopsAt k (more ++ rest) := by
  obtain ⟨-, rfl⟩ | ⟨operator, behind, rfl, hoperator⟩ := h.first
  · exact hrest.mono (Nat.le_succ k)
  · exact stopsAt_operator (mem_tierOperators.1 hoperator) (behind ++ rest)

theorem chain_passes (hfirst : (PhraseKind.operand k).Passes first) (operations : Phrase (.operations k) more)
    (hmore : (PhraseKind.operations k).Passes more) : (PhraseKind.operand (k + 1)).Passes (first ++ more) := by
  intro n rest hrest
  rw [Rule.Passes, tier, Rule.chain, Outcome.strict_andThen, List.append_assoc]
  exact Outcome.GoesTo.andThen (hfirst n (more ++ rest) (operations.stopsAt hrest)) fun left => hmore n left rest hrest

theorem moreOperations_passes {right : List Token} (ht : accepts k t.kind = true)
    (hright : (PhraseKind.operand k).Passes right) (operations : Phrase (.operations k) more)
    (hmore : (PhraseKind.operations k).Passes more) : (PhraseKind.operations k).Passes (t :: (right ++ more)) := by
  intro n left rest hrest
  rw [List.cons_append, List.append_assoc, Rule.chainFrom_step ht, Outcome.strict_andThen]
  exact Outcome.GoesTo.andThen (hright n (more ++ rest) (operations.stopsAt hrest)) fun _ => hmore n _ rest hrest

theorem signed_passes (ht : isSign t.kind = true) (h : (PhraseKind.operand 0).Passes tokens) :
    (PhraseKind.operand 0).Passes (t :: tokens) := by
  intro n rest _
  have hstop : StopsAt 0 rest := fun u _ j hj => absurd hj (Nat.not_lt_zero j)
  have hoperand : (withRoom n).unary.Passes (tokens ++ rest) rest :=
    passes_nested Level.unary rfl fun m => h m rest hstop
  rw [List.cons_append, Rule.Passes, tier, signed, Rule.run_after_yes ht]
  exact hoperand.map _

theorem atom_passes (ht : t.kind.isAtom = true) : (PhraseKind.operand 0).Passes [t] := by
  intro n rest hrest
  rw [← atom?_isSome] at ht
  obtain ⟨e, he⟩ := Option.isSome_iff_exists.1 ht
  exact Rule.passes_of_run ((readsAt_atom he n rest hrest).well (Expr.nesting_of_atom? he ▸ Nat.zero_le n))

theorem grouping_passes {closing : Token} (ht : t.kind = .leftParen) (h : PhraseKind.expression.Passes tokens)
    (hclosing : closing.kind = .rightParen) : (PhraseKind.operand 0).Passes (t :: (tokens ++ [closing])) := by
  intro n rest _
  have hatom : atom? t = none := by
    rw [atom?, ht]
  have hrun : ((withRoom n).tier 0).run (t :: (tokens ++ closing :: rest)) =
      (((withRoom n).expression.left (.expect .rightParen .expectParenAfterExpression)).map .grouping).run
        (tokens ++ closing :: rest) := by
    rw [tier, signed, Rule.run_after_no (by rw [ht]; rfl)]
    simp [primary, Rule.atom, hatom, Rule.after, ht]
  rw [List.cons_append, List.append_assoc, List.singleton_append, Rule.Passes, hrun]
  exact ((expression_passes h (.inl hclosing) n rest).left hclosing).map _

theorem disjunction_passes (h : (PhraseKind.operand 6).Passes tokens) : PhraseKind.expression.Passes tokens := by
  intro n rest hrest
  refine (h n rest hrest.1).plain ?_
  intro t ht
  exact decide_eq_false (hrest.2 t ht)

/-- an assignment is read as a whole, whatever its target is -/
theorem assignment_passes {target : List Token} (htarget : (PhraseKind.operand 6).Passes target) (ht : t.kind = .equal)
    (hvalue : PhraseKind.expression.Passes tokens) : PhraseKind.expression.Passes (target ++ t :: tokens) := by
  intro n rest hrest
  have hassigned : (withRoom n).assignment.Passes (tokens ++ rest) rest :=
    passes_nested Level.assignment rfl fun m => hvalue m rest hrest
  rw [List.append_assoc, List.cons_append]
  refine (htarget n _ (stopsAt_equal ht _)).followed (decide_eq_true ht) ?_
  intro left
  rw [Rule.Passes, Rule.conclude, Outcome.strict_andThen]
  refine Outcome.GoesTo.andThen hassigned ?_
  intro value
  cases left <;> rfl

end Expressions

/-! ## Statements -/

section Statements

variable {tokens rest : List Token} {n : Nat} {opening closing keyword name semicolon t : Token}

theorem paired_printed (hkeyword : keyword.kind = .kwPrint) (h : PhraseKind.expression.Passes tokens)
    (hsemicolon : semicolon.kind = .semicolon) : Paired false (keyword :: (tokens ++ [semicolon])) := by
  refine .plain fun n rest => ?_
  rw [List.cons_append, List.append_assoc, Rule.Passes, command, Rule.run_after_no (by rw [hkeyword]; rfl),
    Rule.run_after_yes (by rw [hkeyword]; rfl)]
  exact ((expression_passes h (.inr hsemicolon) n rest).left hsemicolon).map _

theorem paired_bare (value : Phrase .expression tokens) (h : PhraseKind.expression.Passes tokens)
    (hsemicolon : semicolon.kind = .semicolon) : Paired false (tokens ++ [semicolon]) := by
  refine .plain fun n rest => ?_
  have hbare : (withRoom n).bare.Passes (tokens ++ semicolon :: rest) rest :=
    ((expression_passes h (.inr hsemicolon) n rest).left hsemicolon).map _
  obtain ⟨hbad, -⟩ | ⟨t, behind, rfl, ht⟩ := value.first
  · cases hbad
  · rw [List.append_assoc, List.singleton_append, Rule.Passes, List.cons_append, run_bare ht]
    exact hbare

theorem paired_block (hopening : opening.kind = .leftBrace) (h : PhraseKind.declarations.Passes tokens)
    (hclosing : closing.kind = .rightBrace) : Paired false (opening :: (tokens ++ [closing])) := by
  refine .plain fun n rest => ?_
  have hbody : (withRoom n).block.Passes (tokens ++ closing :: rest) rest := by
    refine passes_nested Level.block rfl fun m => ?_
    have hrest : ∀ t ∈ (closing :: rest).head?, decide (t.kind = .rightBrace) = true := by simpa using hclosing
    change ((Rule.block (withRoom m).declared).run _).strict.GoesTo _
    rw [block_strict]
    refine Outcome.GoesTo.andThen (h m _ (closing :: rest) (fun kind hkind => of_decide_eq_true hkind) hrest) ?_
    intro body
    exact (Rule.passes_of_run (Rule.run_expect hclosing)).map _
  rw [List.cons_append, List.append_assoc, Rule.Passes, command, Rule.run_after_no (by rw [hopening]; rfl),
    Rule.run_after_no (by rw [hopening]; rfl), Rule.run_after_yes (by rw [hopening]; rfl)]
  exact hbody.map _

theorem declared_passes (hkeyword : keyword.kind = .kwVar) (hname : name.kind = .identifier)
    (hsemicolon : semicolon.kind = .semicolon) : PhraseKind.declaration.Passes [keyword, name, semicolon] := by
  intro n rest _
  have hfree : ∀ t ∈ (semicolon :: rest).head?, decide (t.kind = .equal) = false := by simp [hsemicolon]
  rw [List.cons_append, Rule.Passes, declared, Rule.run_after_yes (decide_eq_true hkeyword)]
  exact ((Rule.passes_of_run (Rule.run_expect hname)).plain hfree).left hsemicolon

theorem initialized_passes (hkeyword : keyword.kind = .kwVar) (hname : name.kind = .identifier) (ht : t.kind = .equal)
    (h : PhraseKind.expression.Passes tokens) (hsemicolon : semicolon.kind = .semicolon) :
    PhraseKind.declaration.Passes (keyword :: name :: t :: (tokens ++ [semicolon])) := by
  intro n rest _
  have hinitial := expression_passes h (.inr hsemicolon) n rest
  rw [List.cons_append, List.cons_append, List.cons_append, List.append_assoc, Rule.Passes, declared,
    Rule.run_after_yes (decide_eq_true hkeyword)]
  refine Rule.Passes.left ?_ hsemicolon
  exact (Rule.passes_of_run (Rule.run_expect hname)).followed (decide_eq_true ht) fun _ => hinitial.map _

theorem command_passes (statement : Phrase .statement tokens) {loose : Bool} (h : Paired loose tokens) :
    PhraseKind.declaration.Passes tokens := by
  intro n rest hrest
  have hcommand := h.passes n fun _ => hrest
  obtain ⟨hbad, -⟩ | ⟨t, behind, rfl, -, -, hvar⟩ := statement.first
  · cases hbad
  · rwa [List.cons_append, Rule.Passes, declared, Rule.run_after_no (decide_eq_false hvar)]

/-- neither a declaration nor what closes a row of them begins with `else` -/
theorem Phrase.noElse (h : Phrase .declarations tokens) (hrest : NoElse rest) : NoElse (tokens ++ rest) := by
  obtain ⟨-, rfl⟩ | ⟨t, behind, rfl, ht, -⟩ := h.first
  · exact hrest
  · rintro u ⟨⟩
    exact ht

theorem moreDeclarations_passes {first : List Token} (one : Phrase .declaration first)
    (hone : PhraseKind.declaration.Passes first) (more : Phrase .declarations tokens)
    (hmore : PhraseKind.declarations.Passes tokens) : PhraseKind.declarations.Passes (first ++ tokens) := by
  intro n closes rest hcloses hrest
  have helse : NoElse rest := by
    intro t ht hbad
    have hbrace := hcloses _ (hrest t ht)
    rw [hbad] at hbrace
    cases hbrace
  have hfirst := hone n (tokens ++ rest) (more.noElse helse)
  obtain ⟨hbad, -⟩ | ⟨t, behind, rfl, -, hbrace⟩ := one.first
  · cases hbad
  · have hopen : closes t.kind = false := by
      by_contra hbad
      exact hbrace (hcloses _ (by simpa using hbad))
    rw [List.append_assoc, List.cons_append, sequence_strict_cons (local_declared n).failsForGood hopen]
    refine Outcome.GoesTo.andThen hfirst fun s => ?_
    exact Outcome.GoesTo.andThen (hmore n closes rest hcloses hrest) fun _ => rfl

end Statements

/-- **Phrases are read as a whole**, whatever stands behind them, unless they nest too deep. -/
theorem Phrase.passes {kind : PhraseKind} {tokens : List Token} (h : Phrase kind tokens) : kind.Passes tokens := by
  induction h with
  | noDeclaration =>
    intro n closes rest _ hrest
    rw [List.nil_append, sequence_strict_closed hrest]
    rfl
  | moreDeclarations one more hone hmore => exact moreDeclarations_passes one hone more hmore
  | declared hvar hname hsemicolon => exact declared_passes hvar hname hsemicolon
  | initialized hvar hname hequal _ hsemicolon hvalue => exact initialized_passes hvar hname hequal hvalue hsemicolon
  | command statement hstatement =>
    obtain ⟨loose, hpaired⟩ := hstatement
    exact command_passes statement hpaired
  | conditional hkeyword hopening _ hclosing _ htest hyes =>
    obtain ⟨loose, hyes⟩ := hyes
    exact ⟨true, .conditional hkeyword hopening htest hclosing hyes⟩
  | alternative hkeyword hopening _ hclosing _ hmark _ htest hyes hno =>
    obtain ⟨other, hno⟩ := hno
    obtain ⟨loose, hyes⟩ := hyes
    cases loose with
    | false => exact ⟨other, .alternative hkeyword hopening htest hclosing hyes hmark hno⟩
    | true =>
      have hall := (Paired.conditional hkeyword hopening htest hclosing hyes).otherwise hmark rfl hno
      rwa [List.cons_append, List.cons_append, List.append_assoc, List.cons_append] at hall
  | printed hkeyword _ hsemicolon hvalue => exact ⟨false, paired_printed hkeyword hvalue hsemicolon⟩
  | block hopening _ hclosing hinside => exact ⟨false, paired_block hopening hinside hclosing⟩
  | bare value hsemicolon hvalue => exact ⟨false, paired_bare value hvalue hsemicolon⟩
  | disjunction _ hoperands => exact disjunction_passes hoperands
  | assignment _ hequal _ hleft hvalue => exact assignment_passes hleft hequal hvalue
  | chain _ operations hoperand hoperations => exact chain_passes hoperand operations hoperations
  | noOperation =>
    intro n left rest hrest
    rw [List.nil_append, Rule.chainFrom_stop fun t ht => hrest t ht _ (Nat.lt_succ_self _)]
    rfl
  | moreOperations hoperator _ operations hoperand hoperations =>
    exact moreOperations_passes (mem_tierOperators.1 hoperator) hoperand operations hoperations
  | signed hsign _ hoperand =>
    refine signed_passes ?_ hoperand
    rcases hsign with hsign | hsign
    · rw [hsign]
      rfl
    · rw [hsign]
      rfl
  | atom hatom => exact atom_passes hatom
  | grouping hopening _ hclosing hvalue => exact grouping_passes hopening hvalue hclosing

/-! ## The first fault -/

section FirstFault

variable {read behind : List Token} {t : Token} {fault : Fault} {reported : List Fault}

/-- a text of the grammar breaks off only for want of room -/
theorem Grammatical.cause_eq {n : Nat} {tokens : List Token} (h : Grammatical tokens)
    (hfailed : (sequence (withRoom n).declared (fun _ => false) tokens).strict = .failed fault reported) :
    fault.cause = .tooMuchNesting := by
  have hgoes := h.passes n (fun _ => false) [] nofun nofun
  rw [List.append_nil, hfailed] at hgoes
  exact hgoes

/-- where reading breaks off at a token, it does so for the same cause whatever stands behind that token -/
theorem sequence_failed_at {statement : Rule Stmt} {closes : TokenKind → Bool} (hstatement : statement.Local)
    (hunread : fault.unread = t :: behind)
    (hfailed : (sequence statement closes (read ++ t :: behind)).strict = .failed fault reported) (more : List Token) :
    ∃ other earlier, (sequence statement closes (read ++ t :: more)).strict = .failed other earlier ∧
      other.cause = fault.cause := by
  have hcontinues : ∀ more, (sequence statement closes (read ++ [t])).strict.Continues more
      (sequence statement closes (read ++ t :: more)).strict := by
    intro more
    have hwhole : (sequence statement closes (read ++ [t])).strict.Continues more
        (sequence statement closes (read ++ [t] ++ more)).strict := sequence_continues hstatement (read ++ [t]) more
    rwa [List.append_assoc, List.singleton_append] at hwhole
  -- the token itself is unread, so with this token alone reading stops before the end
  have hstop : (sequence statement closes (read ++ [t])).strict.stop ≠ [] := by
    intro hend
    have hpast := ((hcontinues behind).past hend).length_le
    rw [hfailed, Outcome.stop, hunread, List.length_cons] at hpast
    omega
  have hkept := (hcontinues behind).kept hstop
  rw [hfailed] at hkept
  cases halone : (sequence statement closes (read ++ [t])).strict with
  | done value rest earlier => simp [halone, Outcome.before] at hkept
  | failed other earlier =>
    rw [halone, Outcome.before, Outcome.failed.injEq] at hkept
    refine ⟨other.before more, earlier.map (Fault.before more), ?_, ?_⟩
    · rw [(hcontinues more).kept hstop, halone]
      rfl
    · rw [hkept.1]
      rfl

theorem Fault.message_eq_iff (fault : Fault) (endLine : Nat) :
    (fault.diagnostic endLine).message = "Invalid assignment target." ↔ fault.cause = .invalidTarget := by
  have hmessage : (fault.diagnostic endLine).message = fault.cause.message := rfl
  rw [hmessage]
  constructor
  · intro h
    cases hcause : fault.cause with
    | reserved word =>
      rw [hcause] at h
      have hchars := congrArg String.toList h
      simp [Cause.message] at hchars
    | _ => first | rfl | (rw [hcause] at h; simp [Cause.message] at h)
  · intro h
    rw [h]
    rfl

end FirstFault

namespace Parsing

/-- the first complaint that is not about an invalid target is about the first fault that stops a statement -/
theorem find?_diagnostics (tokens : List Token) :
    (ofTokens tokens).diagnostics.find? (fun d => d.message ≠ "Invalid assignment target.") =
      ((faults tokens).find? Fault.stops).map (Fault.diagnostic (endLine tokens)) := by
  rw [diagnostics_eq, List.find?_map]
  congr 2
  funext fault
  simp [Fault.stops, Fault.message_eq_iff]

/-- **The first fault stands as early as possible.** If the first complaint that is not about an invalid target is not
about too much nesting either, then the tokens before the place it was found at begin a text of the grammar, and with
the token found there they do not; if it was found at the end, the tokens are no text of the grammar. -/
theorem first_fault_earliest (tokens : List Token) {d : Diagnostic}
    (hfirst : (ofTokens tokens).diagnostics.find? (fun d => d.message ≠ "Invalid assignment target.") = some d)
    (hdeep : d.message ≠ "Too much nesting.") :
    ∃ read fault, (faults tokens).find? Fault.stops = some fault ∧ d = fault.diagnostic (endLine tokens) ∧
      body tokens = read ++ fault.unread ∧ (∃ more, Grammatical (read ++ more)) ∧
      (∀ t behind, fault.unread = t :: behind → ∀ more, ¬ Grammatical (read ++ t :: more)) ∧
      (fault.unread = [] → ¬ Grammatical (body tokens)) := by
  rw [find?_diagnostics] at hfirst
  obtain ⟨fault, hfault, rfl⟩ := Option.map_eq_some_iff.1 hfirst
  have hcause : fault.cause ≠ .tooMuchNesting := by
    intro hbad
    refine hdeep ?_
    simp [Fault.diagnostic, Diagnostic.message, hbad, Cause.message]
  have hlocal := local_declared maxNesting
  have hbegins : (sequence (withRoom maxNesting).declared (fun _ => false) (body tokens)).strict.Begins (body tokens)
      (KStar.kstar (phrases .declaration)) :=
    sequence_begins hlocal.failsForGood (speaks_withRoom maxNesting).declared (body tokens)
  obtain ⟨reported, hfailed⟩ : ∃ reported, (sequence (withRoom maxNesting).declared (fun _ => false)
    (body tokens)).strict = .failed fault reported := (Sequence.find?_faults _).1 hfault
  rw [hfailed] at hbegins
  obtain ⟨read, more, hread, hword⟩ := hbegins
  refine ⟨read, fault, hfault, rfl, hread, ⟨more, phrases_of_kstar hword⟩, ?_, ?_⟩
  · intro t behind hunread later hgrammatical
    rw [hread, hunread] at hfailed
    obtain ⟨other, earlier, hother, hsame⟩ := sequence_failed_at hlocal hunread hfailed later
    exact hcause (hsame.symm.trans (hgrammatical.cause_eq hother))
  · intro _ hgrammatical
    exact hcause (hgrammatical.cause_eq hfailed)

/-- `true = true; { if (a) print (a; }`, an invalid target and then a parenthesis that is not closed -/
def unclosedText : List Token :=
  let name := sampleName "a"
  [sampleToken .kwTrue "true", sampleToken .equal "=", sampleToken .kwTrue "true", sampleToken .semicolon ";",
   sampleToken .leftBrace "\x7b", sampleToken .kwIf "if", sampleToken .leftParen "(", name, sampleToken .rightParen ")",
   sampleToken .kwPrint "print", sampleToken .leftParen "(", name, sampleToken .semicolon ";",
   sampleToken .rightBrace "\x7d", .atEnd 1]

theorem first_fault_earliest_unclosed :
    (ofTokens unclosedText).diagnostics = [.grammatical 1 "at '='" "Invalid assignment target.",
      .grammatical 1 "at ';'" "Expect ')' after expression."] ∧
    ∃ read fault, (faults unclosedText).find? Fault.stops = some fault ∧
      .grammatical 1 "at ';'" "Expect ')' after expression." = fault.diagnostic (endLine unclosedText) ∧
      body unclosedText = read ++ fault.unread ∧ (∃ more, Grammatical (read ++ more)) ∧
      (∀ t behind, fault.unread = t :: behind → ∀ more, ¬ Grammatical (read ++ t :: more)) ∧
      (fault.unread = [] → ¬ Grammatical (body unclosedText)) := by
  have hdiagnostics : (ofTokens unclosedText).diagnostics = [.grammatical 1 "at '='" "Invalid assignment target.",
      .grammatical 1 "at ';'" "Expect ')' after expression."] := by
    decide +kernel
  refine ⟨hdiagnostics, first_fault_earliest unclosedText ?_ (by decide)⟩
  rw [hdiagnostics]
  decide

end Parsing

end Scriptlet
