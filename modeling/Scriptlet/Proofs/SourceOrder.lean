/-
The order of complaints. Faults are found while a text is read from the left, and almost all are told where reading
stands: a fault that stops a statement stands where the statement broke off, and what is read after it stands further
on. The exception is an assignment to what is no name. It is told at its equals sign, but only once its value has been
read, so another one inside of the value comes first although it stands further on (`Level.assigning_of_literal`).

Positions are the tokens still unread. `FoundBetween tokens stop faults` says that faults were found on the way from one
position to another, in order but for pairs of invalid targets; ways are put together by `FoundBetween.append`, and for
each way of composing rules there is a lemma that follows it. What an expression reports are invalid targets and nothing
else: this is what keeps every other fault in its place behind a value. As the lines of tokens never go back
(`ascending_tokensFrom`), the order of positions is the order of lines.

- `Level.orderly_withRoom`: the rules of every level.
- `Parsing.diagnostics_ordered`: the complaints about a source are in the order of lines, but for pairs of invalid
  targets.
- `Parsing.diagnostics_unordered`: two of them out of order.
-/
import Mathlib
import Scriptlet.Proofs.Joining
import Scriptlet.Proofs.LevelInduction
import Scriptlet.Proofs.MovedText

namespace Scriptlet

variable {α β : Type}

/-! ## Ways through a text -/

/-- `later` stands where `fault` stands or further on, or both are invalid targets -/
def Fault.InOrder (fault later : Fault) : Prop :=
  later.unread <:+ fault.unread ∨ (fault.cause = .invalidTarget ∧ later.cause = .invalidTarget)

/-- the faults were found on the way from `tokens` to `stop`, in order -/
structure FoundBetween (tokens stop : List Token) (faults : List Fault) : Prop where
  forward : stop <:+ tokens
  behind : ∀ fault ∈ faults, fault.unread <:+ tokens
  before : ∀ fault ∈ faults, stop <:+ fault.unread
  ordered : faults.Pairwise Fault.InOrder

namespace FoundBetween

variable {tokens mid stop : List Token} {faults later : List Fault}

theorem nil (h : stop <:+ tokens) : FoundBetween tokens stop [] := ⟨h, nofun, nofun, .nil⟩

theorem single (fault : Fault) : FoundBetween fault.unread fault.unread [fault] := by
  refine ⟨List.suffix_refl _, ?_, ?_, List.pairwise_singleton _ _⟩
  · exact List.forall_mem_singleton.2 (List.suffix_refl fault.unread)
  · exact List.forall_mem_singleton.2 (List.suffix_refl fault.unread)

/-- one way and then another -/
theorem append (h : FoundBetween tokens mid faults) (h' : FoundBetween mid stop later) :
    FoundBetween tokens stop (faults ++ later) := by
  refine ⟨h'.forward.trans h.forward, ?_, ?_, ?_⟩
  · intro fault hfault
    rcases List.mem_append.1 hfault with hfault | hfault
    · exact h.behind fault hfault
    · exact (h'.behind fault hfault).trans h.forward
  · intro fault hfault
    rcases List.mem_append.1 hfault with hfault | hfault
    · exact h'.forward.trans (h.before fault hfault)
    · exact h'.before fault hfault
  · refine List.pairwise_append.2 ⟨h.ordered, h'.ordered, ?_⟩
    intro fault hfault other hother
    exact .inl ((h'.behind other hother).trans (h.before fault hfault))

/-- an invalid target is told behind all that was found in the value, which are invalid targets -/
theorem target {here : List Token} (h : FoundBetween here stop faults)
    (hcauses : ∀ fault ∈ faults, fault.cause = .invalidTarget) :
    FoundBetween here stop (faults ++ [⟨.invalidTarget, here⟩]) := by
  refine ⟨h.forward, ?_, ?_, ?_⟩
  · intro fault hfault
    rcases List.mem_append.1 hfault with hfault | hfault
    · exact h.behind fault hfault
    · cases List.mem_singleton.1 hfault
      exact List.suffix_refl here
  · intro fault hfault
    rcases List.mem_append.1 hfault with hfault | hfault
    · exact h.before fault hfault
    · cases List.mem_singleton.1 hfault
      exact h.forward
  · refine List.pairwise_append.2 ⟨h.ordered, List.pairwise_singleton _ _, ?_⟩
    intro fault hfault other hother
    cases List.mem_singleton.1 hother
    exact .inr ⟨hcauses fault hfault, rfl⟩

end FoundBetween

/-! ## Outcomes -/

namespace Outcome

def stop : Outcome α → List Token
  | .done _ rest _ => rest
  | .failed fault _ => fault.unread

/-- the faults that did not stop reading -/
def reported : Outcome α → List Fault
  | .done _ _ reported => reported
  | .failed _ reported => reported

/-- what was reported was found on the way, in order, and has causes of the kind `p` -/
structure Orderly (p : Cause → Prop) (tokens : List Token) (o : Outcome α) : Prop where
  found : FoundBetween tokens o.stop o.reported
  causes : ∀ fault ∈ o.reported, p fault.cause

namespace Orderly

variable {p q : Cause → Prop} {tokens mid : List Token} {o : Outcome α}

theorem of_silent (hreported : o.reported = []) (hstop : o.stop <:+ tokens) : o.Orderly p tokens := by
  constructor
  · rw [hreported]
    exact .nil hstop
  · simp [hreported]

theorem preceded {earlier : List Fault} (h : o.Orderly p mid) (hearlier : FoundBetween tokens mid earlier)
    (hcauses : ∀ fault ∈ earlier, p fault.cause) : (o.preceded earlier).Orderly p tokens := by
  have hstop : (o.preceded earlier).stop = o.stop := by cases o <;> rfl
  have hreported : (o.preceded earlier).reported = earlier ++ o.reported := by cases o <;> rfl
  constructor
  · rw [hstop, hreported]
    exact hearlier.append h.found
  · rw [hreported]
    exact List.forall_mem_append.2 ⟨hcauses, h.causes⟩

theorem andThen {next : α → List Token → Outcome β} (h : o.Orderly p tokens)
    (hnext : ∀ value rest, (next value rest).Orderly p rest) : (o.andThen next).Orderly p tokens := by
  cases o with
  | done value rest reported => exact (hnext value rest).preceded h.found h.causes
  | failed fault reported => exact ⟨h.found, h.causes⟩

/-- a token before the text makes no difference -/
theorem cons (h : o.Orderly p tokens) (t : Token) : o.Orderly p (t :: tokens) :=
  ⟨(FoundBetween.nil (List.suffix_cons t tokens)).append h.found, h.causes⟩

theorem imp (h : o.Orderly p tokens) (hpq : ∀ cause, p cause → q cause) : o.Orderly q tokens :=
  ⟨h.found, fun fault hfault => hpq _ (h.causes fault hfault)⟩

end Orderly

end Outcome

/-! ## Rules -/

/-- whatever the rule reads, it reports faults of the kind `p` only, and in order -/
def Rule.Orderly (p : Cause → Prop) (a : Rule α) : Prop := ∀ tokens, (a.run tokens).Orderly p tokens

namespace Rule

variable {p : Cause → Prop}

theorem orderly_fail (cause : Cause) : (fail cause : Rule α).Orderly p := fun _ => .of_silent rfl (List.suffix_refl _)

theorem Orderly.atom {f : Token → Option α} {otherwise : Rule α} (ho : otherwise.Orderly p) :
    (atom f otherwise).Orderly p := by
  intro tokens
  cases tokens with
  | nil => exact ho []
  | cons t rest =>
    simp only [Rule.atom]
    split
    · exact .of_silent rfl (List.suffix_cons t rest)
    · exact ho (t :: rest)

theorem Orderly.bind {a : Rule α} {f : α → Rule β} (ha : a.Orderly p) (hf : ∀ value, (f value).Orderly p) :
    (a.bind f).Orderly p :=
  fun tokens => (ha tokens).andThen fun value rest => hf value rest

theorem Orderly.map {a : Rule α} (ha : a.Orderly p) (f : α → β) : (a.map f).Orderly p :=
  fun tokens => (ha tokens).andThen fun _ rest => .of_silent rfl (List.suffix_refl rest)

theorem Orderly.imp {q : Cause → Prop} {a : Rule α} (ha : a.Orderly p) (hpq : ∀ cause, p cause → q cause) :
    a.Orderly q :=
  fun tokens => (ha tokens).imp hpq

theorem Orderly.after {accepts : TokenKind → Bool} {yes : Token → Rule α} {no : Rule α}
    (hyes : ∀ t, (yes t).Orderly p) (hno : no.Orderly p) : (after accepts yes no).Orderly p := by
  intro tokens
  cases tokens with
  | nil => exact hno []
  | cons t rest =>
    simp only [Rule.after]
    split_ifs
    · exact (hyes t rest).cons t
    · exact hno (t :: rest)

theorem Orderly.refuse {accepts : TokenKind → Bool} {cause : Token → Cause} {otherwise : Rule α}
    (ho : otherwise.Orderly p) : (refuse accepts cause otherwise).Orderly p := by
  intro tokens
  cases tokens with
  | nil => exact ho []
  | cons t rest =>
    simp only [Rule.refuse]
    split_ifs
    · exact .of_silent rfl (List.suffix_refl _)
    · exact ho (t :: rest)

/-- what follows behind a token may look back at that token, so it is judged from there -/
theorem Orderly.followed {a : Rule α} {accepts : TokenKind → Bool} {more : α → List Token → Rule β} {plain : α → β}
    (ha : a.Orderly p)
    (hmore : ∀ value t behind, ((more value (t :: behind)).run behind).Orderly p (t :: behind)) :
    (a.followed accepts more plain).Orderly p := by
  intro tokens
  refine (ha tokens).andThen fun value rest => ?_
  cases rest with
  | nil => exact .of_silent rfl (List.suffix_refl _)
  | cons t behind =>
    dsimp only
    split_ifs
    · exact hmore value t behind
    · exact .of_silent rfl (List.suffix_refl _)

/-! ## Repetition -/

section Chain

variable {operand : Rule Expr} {accepts : TokenKind → Bool} {join : Expr → Token → Expr → Expr}

theorem chainFrom_orderly (hoperand : operand.Orderly p) (left : Expr) (tokens : List Token) :
    (chainFrom operand accepts join left tokens).Orderly p tokens := by
  fun_induction chainFrom operand accepts join left tokens with
  | case1 left => exact .of_silent rfl (List.suffix_refl _)
  | case2 left operator behind haccepts right rest reported hright ih =>
    have hfirst := (hoperand behind).cons operator
    rw [hright] at hfirst
    exact ih.preceded hfirst.found hfirst.causes
  | case3 left operator behind haccepts fault reported hright =>
    have hfirst := (hoperand behind).cons operator
    rw [hright] at hfirst
    exact ⟨hfirst.found, hfirst.causes⟩
  | case4 left operator behind haccepts => exact .of_silent rfl (List.suffix_refl _)

theorem Orderly.chain (hoperand : operand.Orderly p) : (operand.chain accepts join).Orderly p :=
  fun tokens => (hoperand tokens).andThen fun left rest => chainFrom_orderly hoperand left rest

end Chain

theorem closed_orderly (p : Cause → Prop) : Closed fun _ => Orderly p where
  fail _ := orderly_fail _
  atom := .atom
  bind := .bind
  map f ha := ha.map f
  after := .after
  refuse _ := .refuse
  followed ha hmore := ha.followed fun value t behind => (hmore value behind).cons t
  chain := .chain

end Rule

/-! ## Sequences -/

def anyCause (_ : Cause) : Prop := True

theorem synchronize_suffix (tokens : List Token) : synchronize tokens <:+ tokens := by
  fun_induction synchronize tokens with
  | case1 => exact List.suffix_refl _
  | case2 t rest hsemicolon => exact List.suffix_cons t rest
  | case3 t hsemicolon => exact List.nil_suffix
  | case4 t hsemicolon u behind hbegins => exact List.suffix_cons t _
  | case5 t hsemicolon u behind hbegins ih => exact ih.trans (List.suffix_cons t _)

/-- what follows behind a fault stands further on -/
theorem sequence_found {statement : Rule Stmt} {closes : TokenKind → Bool} (hstatement : statement.Orderly anyCause)
    (tokens : List Token) :
    FoundBetween tokens (sequence statement closes tokens).rest (sequence statement closes tokens).faults := by
  fun_induction sequence statement closes tokens with
  | case1 => exact .nil (List.suffix_refl _)
  | case2 t behind hcloses => exact .nil (List.suffix_refl _)
  | case3 t behind hcloses s rest reported hs later ih =>
    have hfirst := (hstatement (t :: behind)).found
    rw [hs] at hfirst
    exact hfirst.append ih
  | case4 t behind hcloses fault reported hs later ih =>
    have hfirst := (hstatement (t :: behind)).found
    rw [hs] at hfirst
    have hskipped : FoundBetween fault.unread (synchronize fault.unread) [] := .nil (synchronize_suffix _)
    -- what is skipped lies between the fault and the next statement, and nothing is found there
    exact hfirst.append ((FoundBetween.single fault).append (hskipped.append ih))

theorem Rule.Orderly.block {statement : Rule Stmt} (hstatement : statement.Orderly anyCause) :
    (Rule.block statement).Orderly anyCause := by
  intro tokens
  have hbrace : ∀ body : List Stmt,
      ((Rule.expect .rightBrace .expectBraceAfterBlock).map fun _ => body).Orderly anyCause :=
    fun body => ((closed_orderly _).expect _ (by decide)).map _
  exact (hbrace _ _).preceded (sequence_found hstatement tokens) fun _ _ => trivial

/-! ## Levels -/

namespace Level

/-- an assignment, seen from its equals sign: the target comes last -/
theorem orderly_assignTo {a : Rule Expr} (ha : a.Orderly (· = .invalidTarget)) (left : Expr) (t : Token)
    (behind : List Token) :
    ((a.conclude (assignTo left (t :: behind))).run behind).Orderly (· = .invalidTarget) (t :: behind) := by
  have hvalue := (ha behind).cons t
  simp only [Rule.conclude]
  cases hrun : a.run behind with
  | failed fault reported =>
    rw [hrun] at hvalue
    exact ⟨hvalue.found, hvalue.causes⟩
  | done value rest reported =>
    rw [hrun] at hvalue
    cases left with
    | var name =>
      have hsilent : (Outcome.done (Expr.assign name value) rest []).Orderly (· = .invalidTarget) rest :=
        .of_silent rfl (List.suffix_refl rest)
      exact hsilent.preceded hvalue.found hvalue.causes
    | _ =>
      -- the complaint about this target stands in front of those in the value, but all are of one kind
      refine ⟨hvalue.found.target hvalue.causes, ?_⟩
      refine List.forall_mem_append.2 ⟨hvalue.causes, ?_⟩
      exact List.forall_mem_singleton.2 rfl

theorem closed_orderly : Closed (fun _ => Rule.Orderly (· = .invalidTarget)) fun _ _ => Rule.Orderly anyCause where
  expressions := Rule.closed_orderly _
  statements _ := Rule.closed_orderly _
  assignTo hleft hvalue := hleft.followed fun left t behind => orderly_assignTo hvalue left t behind
  embed _ ha := ha.imp fun _ _ => trivial
  mono ha := ha
  block := .block

/-- the rules of a level report in order, and in expressions nothing but invalid targets -/
theorem orderly_withRoom (n : Nat) :
    (withRoom n).Has (fun _ => Rule.Orderly (· = .invalidTarget)) fun _ => Rule.Orderly anyCause :=
  closed_orderly.withRoom n

end Level

/-! ## Lines -/

/-- the lines of the tokens never go back, and none is behind the last line -/
structure Ascending (tokens : List Token) (endLine : Nat) : Prop where
  sorted : tokens.Pairwise fun t u => t.line ≤ u.line
  bounded : ∀ t ∈ tokens, t.line ≤ endLine

namespace Ascending

variable {tokens later : List Token} {endLine : Nat}

theorem suffix (h : Ascending tokens endLine) (hlater : later <:+ tokens) : Ascending later endLine :=
  ⟨h.sorted.sublist hlater.sublist, fun t ht => h.bounded t (hlater.subset ht)⟩

/-- a fault further on is told on the same line or further down -/
theorem line_le (h : Ascending tokens endLine) {fault other : Fault} (hfault : fault.unread <:+ tokens)
    (hother : other.unread <:+ fault.unread) : (fault.diagnostic endLine).line ≤ (other.diagnostic endLine).line := by
  obtain ⟨cause, unread⟩ := fault
  obtain ⟨cause', unread'⟩ := other
  have hunread := h.suffix hfault
  simp only [Fault.diagnostic, Diagnostic.line]
  cases unread with
  | nil =>
    cases List.suffix_nil.1 hother
    exact Nat.le_refl _
  | cons t rest =>
    rcases List.suffix_cons_iff.1 hother with heq | hrest
    · cases heq
      exact Nat.le_refl _
    · cases unread' with
      | nil => exact hunread.bounded t List.mem_cons_self
      | cons u behind => exact List.rel_of_pairwise_cons hunread.sorted (hrest.subset List.mem_cons_self)

end Ascending

theorem line_le_of_mem_tokensFrom {line : Nat} {cuts : List (Bytes × Piece)} {t : Token}
    (h : t ∈ tokensFrom line cuts) :
    line ≤ t.line := by
  induction cuts generalizing line with
  | nil => cases h
  | cons segment cuts ih =>
    obtain ⟨text, piece⟩ := segment
    cases piece with
    | token kind =>
      rcases List.mem_cons.1 h with rfl | h
      · exact Nat.le_add_right _ _
      · exact Nat.le_of_add_right_le (ih h)
    | blank => exact Nat.le_of_add_right_le (ih h)
    | fault cause => exact Nat.le_of_add_right_le (ih h)

/-- segments follow each other, and with them the lines on which they end -/
theorem ascending_tokensFrom (line : Nat) (cuts : List (Bytes × Piece)) :
    Ascending (tokensFrom line cuts) (line + linesOf cuts) := by
  induction cuts generalizing line with
  | nil => exact ⟨.nil, nofun⟩
  | cons segment cuts ih =>
    obtain ⟨text, piece⟩ := segment
    rw [linesOf_cons, ← Nat.add_assoc]
    have hlater := ih (line + Bytes.lineFeeds text)
    cases piece with
    | token kind =>
      refine ⟨List.pairwise_cons.2 ⟨fun u hu => line_le_of_mem_tokensFrom hu, hlater.sorted⟩, ?_⟩
      exact List.forall_mem_cons.2 ⟨Nat.le_add_right _ _, hlater.bounded⟩
    | blank => exact hlater
    | fault cause => exact hlater

theorem tokens_ofBytes {content : Bytes} {cuts : List (Bytes × Piece)} (h : Division content cuts) :
    (Lexing.ofBytes content).tokens = tokensFrom 1 cuts ++ [.atEnd (1 + linesOf cuts)] := by
  rw [Lexing.ofBytes_eq h, tokens_itemsFrom]

/-! ## Complaints -/

def Diagnostic.message : Diagnostic → String
  | .lexical _ message => message
  | .grammatical _ _ message => message

namespace Parsing

/-- **Complaints in order.** Of two complaints about a source, the second one names the same line as the first or one
further down, unless both are about an invalid target. -/
theorem diagnostics_ordered (content : Bytes) :
    (ofTokens (Lexing.ofBytes content).tokens).diagnostics.Pairwise fun d e =>
      d.line ≤ e.line ∨ (d.message = "Invalid assignment target." ∧ e.message = "Invalid assignment target.") := by
  obtain ⟨cuts, hcuts⟩ := division_exists content
  have hend := tokensFrom_ne_end hcuts 1
  have hfound : FoundBetween (tokensFrom 1 cuts) _
      (sequence outermost.declaration (fun _ => false) (tokensFrom 1 cuts)).faults :=
    sequence_found (Level.orderly_withRoom (maxNesting + 1)).declaration _
  rw [ofTokens, tokens_ofBytes hcuts, body_append_end hend rfl, endLine_append_end hend rfl]
  refine List.pairwise_map.2 (hfound.ordered.imp_of_mem ?_)
  -- the order of positions is the order of lines, as lines never go back along the tokens
  intro fault other hfault _ horder
  rcases horder with hother | ⟨hcause, hcause'⟩
  · exact .inl ((ascending_tokensFrom 1 cuts).line_le (hfound.behind fault hfault) hother)
  · right
    simp [Fault.diagnostic, Diagnostic.message, hcause, hcause', Cause.message]

end Parsing

/-! ## Invalid targets -/

namespace Level

section Readings

variable {n : Nat} {t sign : Token} {v : Value} {behind : List Token}

/-- a literal is read up to an equals sign -/
theorem disjunction_of_literal (ht : atom? t = some (.literal v)) (hsign : sign.kind = .equal) :
    (withRoom n).disjunction.run (t :: sign :: behind) = .done (.literal v) (sign :: behind) [] := by
  have hstop : StopsAt 6 (sign :: behind) := by
    intro u hu j hj
    cases hu
    rw [hsign]
    interval_cases j <;> rfl
  rw [disjunction_eq_tier]
  exact ((((readsAt_atom ht n).leads.lift (Nat.zero_le 5)).reads) _ hstop).well (Nat.zero_le n)

/-- An assignment to a literal is told at its equals sign, and only after all that was found in its value. -/
theorem assigning_of_literal (ht : atom? t = some (.literal v)) (hsign : sign.kind = .equal) {value : Expr}
    {rest : List Token} {reported : List Fault}
    (hvalue : (withRoom n).assignment.run behind = .done value rest reported) :
    (withRoom n).assigning.run (t :: sign :: behind) =
      .done (.literal v) rest (reported ++ [⟨.invalidTarget, sign :: behind⟩]) := by
  simp [assigning, Rule.followed, disjunction_of_literal ht hsign, hsign, Rule.conclude, hvalue, Outcome.andThen,
    Outcome.preceded, assignTo]

/-- a literal is read up to a semicolon -/
theorem assigning_literal (ht : atom? t = some (.literal v)) (hsign : sign.kind = .semicolon) :
    (withRoom n).assigning.run (t :: sign :: behind) = .done (.literal v) (sign :: behind) [] :=
  (((readsAt_atom ht n).leads.lift (Nat.zero_le 5)).readsWhole _ (closesExpr_of_kind (.inr hsign) behind)).well
    (Nat.zero_le n)

/-- an expression and its semicolon -/
theorem declared_of_assignment {inside : Level} (ht : t.kind.beginsExpr = true) (hsign : sign.kind = .semicolon)
    {value : Expr} {rest : List Token} {reported : List Fault}
    (hvalue : inside.assignment.run (t :: behind) = .done value (sign :: rest) reported) :
    inside.declared.run (t :: behind) = .done (.expression value) rest reported := by
  have hvar : decide (t.kind = .kwVar) = false := by
    refine decide_eq_false fun hbad => ?_
    rw [hbad] at ht
    cases ht
  rw [declared, Rule.run_after_no hvar, run_bare ht]
  simp [bare, expression, Rule.map, Rule.left, Rule.bind, Rule.conclude, hvalue, Outcome.andThen, Outcome.preceded,
    Rule.run_expect hsign]

end Readings

end Level

/-- the faults of a single statement that is all of the text -/
theorem sequence_faults_single {statement : Rule Stmt} {t : Token} {behind : List Token} {s : Stmt}
    {reported : List Fault} (h : statement.run (t :: behind) = .done s [] reported) :
    (sequence statement (fun _ => false) (t :: behind)).faults = reported := by
  have hnothing : sequence statement (fun _ => false) [] = ⟨[], [], []⟩ := by
    rw [sequence]
  rw [sequence_next rfl, h]
  simp [hnothing]

namespace Parsing

/-- an assignment to a literal, whose value is another one -/
def twoTargets : Bytes := Utf8.encode "true\n= true\n= true;"

/-- its tokens, without the end mark -/
def twoTargetsText : List Token :=
  [⟨.kwTrue, "true", 1⟩, ⟨.equal, "=", 2⟩, ⟨.kwTrue, "true", 2⟩, ⟨.equal, "=", 3⟩, ⟨.kwTrue, "true", 3⟩,
   ⟨.semicolon, ";", 3⟩]

theorem lexing_twoTargets : Lexing.ofBytes twoTargets = ⟨twoTargetsText ++ [.atEnd 3], []⟩ := by
  cbv

/-- the value is complained about first -/
theorem declaration_twoTargets : outermost.declaration.run twoTargetsText =
    .done (.expression (.literal (.bool true))) []
      [⟨.invalidTarget, twoTargetsText.drop 3⟩, ⟨.invalidTarget, twoTargetsText.drop 1⟩] := by
  have hlast : (Level.withRoom 126).assignment.run (twoTargetsText.drop 4) =
      .done (.literal (.bool true)) (twoTargetsText.drop 5) [] := Level.assigning_literal rfl rfl
  have hvalue : (Level.withRoom 127).assignment.run (twoTargetsText.drop 2) =
      .done (.literal (.bool true)) (twoTargetsText.drop 5) [⟨.invalidTarget, twoTargetsText.drop 3⟩] :=
    Level.assigning_of_literal rfl rfl hlast
  have hwhole : (Level.withRoom 128).assignment.run twoTargetsText =
      .done (.literal (.bool true)) (twoTargetsText.drop 5)
        [⟨.invalidTarget, twoTargetsText.drop 3⟩, ⟨.invalidTarget, twoTargetsText.drop 1⟩] :=
    Level.assigning_of_literal rfl rfl hvalue
  exact Level.declared_of_assignment rfl rfl hwhole

/-- the complaints about two targets, of which the second one names a line further up -/
theorem diagnostics_unordered : (Lexing.ofBytes twoTargets).diagnostics = [] ∧
    ¬ (ofTokens (Lexing.ofBytes twoTargets).tokens).diagnostics.Pairwise fun d e => d.line ≤ e.line := by
  have hbody : body (twoTargetsText ++ [.atEnd 3]) = twoTargetsText := rfl
  rw [lexing_twoTargets, ofTokens, hbody]
  refine ⟨rfl, ?_⟩
  have hread : (sequence outermost.declaration (fun _ => false) twoTargetsText).faults =
      [⟨.invalidTarget, twoTargetsText.drop 3⟩, ⟨.invalidTarget, twoTargetsText.drop 1⟩] :=
    sequence_faults_single declaration_twoTargets
  rw [hread]
  decide

end Parsing

end Scriptlet
