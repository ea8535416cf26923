/-
One token is looked at ahead, and no more. What a rule makes of a text does not depend on what stands behind the token
at which it stops: with more tokens behind, the outcome is the same outcome with those tokens behind it, in every fault
too (`Outcome.Continues.kept`). Only a rule that stops at the very end of the text may do something else with more of
it, and then it has at least read all that was there (`Outcome.Continues.past`).

This is said of strict readings (`Outcome.strict`), which end at the first fault that stops a statement. A rule that
reports nothing but invalid targets is always read strictly (`Rule.Local.run_append`); the rules for expressions are of
that kind.

- `Level.local_withRoom`: the rules of every level.
- `sequence_continues`: statements in a row.
-/
import Scriptlet.Proofs.FirstFault

namespace Scriptlet

variable {α β : Type}

def Fault.before (more : List Token) (fault : Fault) : Fault := { fault with unread := fault.unread ++ more }

namespace Outcome

/-! ## Outcomes -/

/-- the outcome with more tokens behind those that were left -/
def before (more : List Token) : Outcome α → Outcome α
  | .done value rest reported => .done value (rest ++ more) (reported.map (Fault.before more))
  | .failed fault reported => .failed (fault.before more) (reported.map (Fault.before more))

/-- reading went on only, up to the first fault that stops a statement, and did not fail for one that does not -/
structure Onward (tokens : List Token) (o : Outcome α) : Prop where
  forward : o.strict.stop <:+ tokens
  stops : ∀ fault reported, o = .failed fault reported → fault.stops = true

/-- with more tokens behind, the outcome `o` becomes `o'` -/
structure Continues (more : List Token) (o o' : Outcome α) : Prop where
  kept : o.stop ≠ [] → o' = o.before more
  past : o.stop = [] → o'.stop <:+ more

theorem stop_andThen {o : Outcome α} {next : α → List Token → Outcome β} {tokens : List Token} (h : o.stop <:+ tokens)
    (hnext : ∀ value rest reported, o = .done value rest reported → (next value rest).stop <:+ rest) :
    (o.andThen next).stop <:+ tokens := by
  cases o with
  | done value rest reported =>
    rw [andThen, stop_preceded]
    exact (hnext value rest reported rfl).trans h
  | failed fault reported => exact h

theorem Onward.andThen {o : Outcome α} {next : α → List Token → Outcome β} {tokens : List Token} (h : o.Onward tokens)
    (hnext : ∀ value rest reported, o = .done value rest reported → (next value rest).Onward rest) :
    (o.andThen next).Onward tokens := by
  constructor
  · rw [strict_andThen]
    refine stop_andThen h.forward ?_
    intro value rest reported hdone
    exact (hnext value rest reported (passedOver_of_strict_eq_done hdone).1).forward
  · intro fault reported hfailed
    cases o with
    | failed other earlier =>
      cases hfailed
      exact h.stops fault reported rfl
    | done value rest earlier =>
      cases hrest : next value rest with
      | done v r later => simp [Outcome.andThen, hrest, preceded] at hfailed
      | failed other later =>
        simp only [Outcome.andThen, hrest, preceded, failed.injEq] at hfailed
        rw [← hfailed.1]
        exact (hnext value rest earlier rfl).stops other later hrest

theorem onward_done (value : α) {rest tokens : List Token} (h : rest <:+ tokens) :
    (Outcome.done value rest []).Onward tokens :=
  ⟨h, nofun⟩

theorem Onward.cons {o : Outcome α} {tokens : List Token} (h : o.Onward tokens) (t : Token) : o.Onward (t :: tokens) :=
  ⟨h.forward.trans (List.suffix_cons t tokens), h.stops⟩

namespace Continues

variable {more : List Token}

/-- where nothing is left to read, all depends on what comes -/
theorem of_nil {o o' : Outcome α} (h : o.stop <:+ []) (h' : o'.stop <:+ more) : o.Continues more o' :=
  ⟨fun hne => absurd (List.suffix_nil.1 h) hne, fun _ => h'⟩

theorem done (value : α) (rest : List Token) :
    (Outcome.done value rest []).Continues more (.done value (rest ++ more) []) := by
  refine ⟨fun _ => rfl, fun hrest => ?_⟩
  have hrest : rest = [] := hrest
  rw [hrest]
  exact List.suffix_refl more

theorem failed (cause : Cause) (unread : List Token) :
    (Outcome.failed ⟨cause, unread⟩ [] : Outcome α).Continues more (.failed ⟨cause, unread ++ more⟩ []) := by
  refine ⟨fun _ => rfl, fun hunread => ?_⟩
  have hunread : unread = [] := hunread
  rw [hunread]
  exact List.suffix_refl more

theorem preceded {o o' : Outcome α} (h : o.Continues more o') (earlier : List Fault) :
    (o.preceded earlier).Continues more (o'.preceded (earlier.map (Fault.before more))) := by
  constructor
  · intro hstop
    rw [stop_preceded] at hstop
    rw [h.kept hstop]
    cases o <;> simp [Outcome.preceded, before]
  · intro hstop
    rw [stop_preceded] at hstop ⊢
    exact h.past hstop

/-- readings in turn: either the first stops at the end of the text, or both go on in the same way -/
theorem andThen {o o' : Outcome α} {next next' : α → List Token → Outcome β} (h : o.Continues more o')
    (hforward : ∀ value rest, (next value rest).stop <:+ rest)
    (hforward' : ∀ value rest, (next' value rest).stop <:+ rest)
    (hnext : ∀ value rest reported, o = .done value rest reported →
      (next value rest).Continues more (next' value (rest ++ more))) :
    (o.andThen next).Continues more (o'.andThen next') := by
  by_cases hstop : o.stop = []
  · have hlast : (o.andThen next).stop <:+ [] := stop_andThen (by rw [hstop]) fun value rest _ _ => hforward value rest
    exact of_nil hlast (stop_andThen (h.past hstop) fun value rest _ _ => hforward' value rest)
  · rw [h.kept hstop]
    cases o with
    | done value rest reported => exact (hnext value rest reported rfl).preceded reported
    | failed fault reported => exact ⟨fun _ => rfl, fun hnil => absurd hnil hstop⟩

end Continues

end Outcome

/-! ## Rules -/

/-- the rule goes on only, and looks one token ahead and no more -/
structure Rule.Local (a : Rule α) : Prop where
  onward : ∀ tokens, (a.run tokens).Onward tokens
  continues : ∀ tokens more, (a.run tokens).strict.Continues more (a.run (tokens ++ more)).strict

namespace Rule

theorem Local.failsForGood {a : Rule α} (ha : a.Local) : a.FailsForGood := fun tokens => (ha.onward tokens).stops

theorem local_fail {cause : Cause} (h : cause ≠ .invalidTarget) : (fail cause : Rule α).Local where
  onward tokens := by
    refine ⟨List.suffix_refl tokens, ?_⟩
    intro fault reported hfailed
    cases hfailed
    exact decide_eq_true h
  continues tokens more := Outcome.Continues.failed cause tokens

/-- a rule that decides by the first token needs to be looked at where there is one -/
theorem local_of_cons {a : Rule α} (honward : ∀ tokens, (a.run tokens).Onward tokens)
    (hcons : ∀ t rest more, (a.run (t :: rest)).strict.Continues more (a.run (t :: (rest ++ more))).strict) :
    a.Local where
  onward := honward
  continues tokens more := by
    cases tokens with
    | nil => exact .of_nil (honward []).forward (honward more).forward
    | cons t rest => exact hcons t rest more

theorem Local.atom {f : Token → Option α} {otherwise : Rule α} (ho : otherwise.Local) : (atom f otherwise).Local := by
  refine local_of_cons ?_ ?_
  · intro tokens
    cases tokens with
    | nil => exact ho.onward []
    | cons t rest =>
      simp only [Rule.atom]
      split
      · exact Outcome.onward_done _ (List.suffix_cons t rest)
      · exact ho.onward (t :: rest)
  · intro t rest more
    simp only [Rule.atom]
    split
    · exact .done _ rest
    · exact ho.continues (t :: rest) more

theorem Local.bind {a : Rule α} {f : α → Rule β} (ha : a.Local) (hf : ∀ value, (f value).Local) : (a.bind f).Local where
  onward tokens := (ha.onward tokens).andThen fun value rest _ _ => (hf value).onward rest
  continues tokens more := by
    simp only [Rule.bind, Outcome.strict_andThen]
    have hforward : ∀ value rest, ((f value).run rest).strict.stop <:+ rest :=
      fun value rest => ((hf value).onward rest).forward
    exact (ha.continues tokens more).andThen hforward hforward fun value rest _ _ => (hf value).continues rest more

theorem Local.map {a : Rule α} (ha : a.Local) (f : α → β) : (a.map f).Local where
  onward tokens := (ha.onward tokens).andThen fun _ rest _ _ => Outcome.onward_done _ (List.suffix_refl rest)
  continues tokens more := by
    simp only [Rule.map, Rule.conclude, Outcome.strict_andThen]
    exact (ha.continues tokens more).andThen (fun _ rest => List.suffix_refl rest) (fun _ rest => List.suffix_refl rest)
      fun value rest _ _ => .done (f value) rest

theorem Local.after {p : TokenKind → Bool} {yes : Token → Rule α} {no : Rule α} (hyes : ∀ t, (yes t).Local)
    (hno : no.Local) : (after p yes no).Local := by
  refine local_of_cons ?_ ?_
  · intro tokens
    cases tokens with
    | nil => exact hno.onward []
    | cons t rest =>
      simp only [Rule.after]
      split_ifs
      · exact ((hyes t).onward rest).cons t
      · exact hno.onward (t :: rest)
  · intro t rest more
    simp only [Rule.after]
    split_ifs
    · exact (hyes t).continues rest more
    · exact hno.continues (t :: rest) more

theorem Local.refuse {p : TokenKind → Bool} {cause : Token → Cause} {otherwise : Rule α}
    (hcause : ∀ t, cause t ≠ .invalidTarget) (ho : otherwise.Local) : (refuse p cause otherwise).Local := by
  refine local_of_cons ?_ ?_
  · intro tokens
    cases tokens with
    | nil => exact ho.onward []
    | cons t rest =>
      simp only [Rule.refuse]
      split_ifs
      · exact (local_fail (hcause t)).onward (t :: rest)
      · exact ho.onward (t :: rest)
  · intro t rest more
    simp only [Rule.refuse]
    split_ifs
    · exact .failed (cause t) (t :: rest)
    · exact ho.continues (t :: rest) more

/-- what follows a rule goes on behind the token by which it is told, or leaves all that there is -/
theorem onward_following {p : TokenKind → Bool} {more : α → List Token → Rule β} {plain : α → β}
    (honward : ∀ value here tokens, ((more value here).run tokens).Onward tokens) (value : α) (rest : List Token) :
    (match rest with
      | [] => .done (plain value) [] []
      | t :: behind =>
        if p t.kind then (more value (t :: behind)).run behind else .done (plain value) (t :: behind) []
      : Outcome β).Onward rest := by
  cases rest with
  | nil => exact Outcome.onward_done _ (List.suffix_refl [])
  | cons t behind =>
    dsimp only
    split_ifs
    · exact (honward value (t :: behind) behind).cons t
    · exact Outcome.onward_done _ (List.suffix_refl _)

/-- what follows behind a token may look back at that token and at all behind it -/
theorem Local.followed {a : Rule α} {p : TokenKind → Bool} {more : α → List Token → Rule β} {plain : α → β}
    (ha : a.Local) (honward : ∀ value here tokens, ((more value here).run tokens).Onward tokens)
    (hmore : ∀ value t behind later, ((more value (t :: behind)).run behind).strict.Continues later
      ((more value (t :: (behind ++ later))).run (behind ++ later)).strict) :
    (a.followed p more plain).Local := by
  constructor
  · intro tokens
    exact (ha.onward tokens).andThen fun value rest _ _ => onward_following honward value rest
  · intro tokens later
    simp only [Rule.followed, Outcome.strict_andThen]
    refine (ha.continues tokens later).andThen (fun value rest => (onward_following honward value rest).forward)
      (fun value rest => (onward_following honward value rest).forward) ?_
    intro value rest _ _
    cases rest with
    | nil => exact .of_nil (List.suffix_refl []) (onward_following honward value later).forward
    | cons t behind =>
      simp only [List.cons_append]
      split_ifs
      · exact hmore value t behind later
      · exact .done (plain value) (t :: behind)

/-- a rule that reports nothing but invalid targets is always read strictly -/
theorem Orderly.strict_run {a : Rule α} (ha : a.Orderly (· = .invalidTarget)) (tokens : List Token) :
    (a.run tokens).strict = a.run tokens := by
  refine Outcome.strict_of_passedOver ?_
  intro fault hfault
  simp [Fault.stops, (ha tokens).causes fault hfault]

/-- a rule that reports nothing but invalid targets and stops before the end -/
theorem Local.run_append {a : Rule α} (ha : a.Local) (hreports : a.Orderly (· = .invalidTarget)) {tokens : List Token}
    (hstop : (a.run tokens).stop ≠ []) (more : List Token) : a.run (tokens ++ more) = (a.run tokens).before more := by
  have hkept := (ha.continues tokens more).kept
  rw [hreports.strict_run, hreports.strict_run] at hkept
  exact hkept hstop

/-! ## Repetition -/

section Chain

variable {operand : Rule Expr} {p : TokenKind → Bool} {join : Expr → Token → Expr → Expr}

theorem chainFrom_onward (hoperand : operand.Local) (left : Expr) (tokens : List Token) :
    (chainFrom operand p join left tokens).Onward tokens := by
  fun_induction chainFrom operand p join left tokens with
  | case1 left => exact Outcome.onward_done _ (List.suffix_refl [])
  | case2 left operator behind hp right rest reported hright ih =>
    have hfirst := (hoperand.onward behind).cons operator
    rw [hright] at hfirst
    have hboth : ((Outcome.done right rest reported).andThen fun right rest =>
        chainFrom operand p join (join left operator right) rest).Onward (operator :: behind) := by
      refine hfirst.andThen ?_
      intro value rest' reported' hdone
      cases hdone
      exact ih
    exact hboth
  | case3 left operator behind hp fault reported hright =>
    have hfirst := (hoperand.onward behind).cons operator
    rwa [hright] at hfirst
  | case4 left operator behind hp => exact Outcome.onward_done _ (List.suffix_refl _)

theorem chainFrom_continues (hoperand : operand.Local) (left : Expr) (tokens more : List Token) :
    (chainFrom operand p join left tokens).strict.Continues more
      (chainFrom operand p join left (tokens ++ more)).strict := by
  have hforward : ∀ left tokens, (chainFrom operand p join left tokens).strict.stop <:+ tokens :=
    fun left tokens => (chainFrom_onward hoperand left tokens).forward
  induction hn : tokens.length using Nat.strong_induction_on generalizing left tokens with
  | _ n ih =>
    cases tokens with
    | nil => exact .of_nil (hforward left []) (hforward left more)
    | cons operator behind =>
      by_cases hp : p operator.kind = true
      · rw [List.cons_append, chainFrom_step hp, chainFrom_step hp, Outcome.strict_andThen, Outcome.strict_andThen]
        refine (hoperand.continues behind more).andThen (fun right => hforward _) (fun right => hforward _) ?_
        intro right rest reported hright
        -- the operand has taken a token, so there is less to go on with
        have hshorter := operand.length_lt_of_strict hright
        refine ih rest.length ?_ _ rest rfl
        simp only [List.length_cons] at hn
        omega
      · have hstop : ∀ later : List Token, ∀ t ∈ (operator :: later).head?, p t.kind = false := by
          intro later t ht
          cases ht
          simpa using hp
        rw [List.cons_append, chainFrom_stop (hstop _), chainFrom_stop (hstop _)]
        exact .done left (operator :: behind)

theorem Local.chain (hoperand : operand.Local) : (operand.chain p join).Local where
  onward tokens := (hoperand.onward tokens).andThen fun left rest _ _ => chainFrom_onward hoperand left rest
  continues tokens more := by
    simp only [Rule.chain, Outcome.strict_andThen]
    have hforward : ∀ left rest, (chainFrom operand p join left rest).strict.stop <:+ rest :=
      fun left rest => (chainFrom_onward hoperand left rest).forward
    exact (hoperand.continues tokens more).andThen hforward hforward
      fun left rest _ _ => chainFrom_continues hoperand left rest more

end Chain

theorem closed_local : Closed fun _ => Local where
  fail := local_fail
  atom := .atom
  bind := .bind
  map f ha := ha.map f
  after := .after
  refuse := .refuse
  followed ha hmore := ha.followed (fun value _ tokens => (hmore value).onward tokens)
    fun value _ behind later => (hmore value).continues behind later
  chain := .chain

end Rule

/-! ## Sequences -/

section Sequences

variable {statement : Rule Stmt} {closes : TokenKind → Bool}

/-- a sequence goes on only -/
theorem sequence_forward (hstatement : statement.Local) (tokens : List Token) :
    (sequence statement closes tokens).strict.stop <:+ tokens := by
  induction hn : tokens.length using Nat.strong_induction_on generalizing tokens with
  | _ n ih =>
    cases tokens with
    | nil =>
      rw [sequence_strict_closed (by simp)]
      exact List.suffix_refl []
    | cons t behind =>
      by_cases ht : closes t.kind = true
      · rw [sequence_strict_closed (by simpa using ht)]
        exact List.suffix_refl _
      · rw [sequence_strict_cons hstatement.failsForGood (by simpa using ht)]
        refine Outcome.stop_andThen (hstatement.onward (t :: behind)).forward ?_
        intro s rest reported hs
        have hlater := ih rest.length (hn ▸ statement.length_lt_of_strict hs) rest rfl
        exact Outcome.stop_andThen hlater fun _ rest _ _ => List.suffix_refl rest

/-- **Statements in a row look one token ahead.** -/
theorem sequence_continues (hstatement : statement.Local) (tokens more : List Token) :
    (sequence statement closes tokens).strict.Continues more (sequence statement closes (tokens ++ more)).strict := by
  induction hn : tokens.length using Nat.strong_induction_on generalizing tokens with
  | _ n ih =>
    cases tokens with
    | nil => exact .of_nil (sequence_forward hstatement []) (sequence_forward hstatement more)
    | cons t behind =>
      by_cases ht : closes t.kind = true
      · rw [List.cons_append, sequence_strict_closed (by simpa using ht), sequence_strict_closed (by simpa using ht)]
        exact .done [] (t :: behind)
      · have ht : closes t.kind = false := by simpa using ht
        rw [List.cons_append, sequence_strict_cons hstatement.failsForGood ht,
          sequence_strict_cons hstatement.failsForGood ht]
        have hforward : ∀ (s : Stmt) rest, ((sequence statement closes rest).strict.andThen fun later rest =>
            .done (s :: later) rest []).stop <:+ rest :=
          fun s rest => Outcome.stop_andThen (sequence_forward hstatement rest) fun _ rest _ _ => List.suffix_refl rest
        refine (hstatement.continues (t :: behind) more).andThen hforward hforward ?_
        intro s rest reported hs
        have hlater := ih rest.length (hn ▸ statement.length_lt_of_strict hs) rest rfl
        exact hlater.andThen (fun _ rest => List.suffix_refl rest) (fun _ rest => List.suffix_refl rest)
          fun later rest _ _ => .done (s :: later) rest

def closingBrace (body : List Stmt) : Rule (List Stmt) :=
  (Rule.expect .rightBrace .expectBraceAfterBlock).map fun _ => body

/-- a block read strictly is its statements and then its brace -/
theorem block_strict (tokens : List Token) : ((Rule.block statement).run tokens).strict =
    (sequence statement (· = .rightBrace) tokens).strict.andThen fun body rest =>
      ((closingBrace body).run rest).strict := by
  rw [Sequence.strict, ← Outcome.strict_andThen]
  rfl

theorem Rule.Local.block (hstatement : statement.Local) : (Rule.block statement).Local := by
  have hbrace : ∀ body, (closingBrace body).Local := fun body => (closed_local.expect _ (by decide)).map _
  have hforward : ∀ body rest, ((closingBrace body).run rest).strict.stop <:+ rest :=
    fun body rest => ((hbrace body).onward rest).forward
  refine ⟨fun tokens => ⟨?_, ?_⟩, ?_⟩
  · rw [block_strict]
    exact Outcome.stop_andThen (sequence_forward hstatement tokens) fun body rest _ _ => hforward body rest
  · intro fault reported hfailed
    have hrun : (Rule.block statement).run tokens =
        ((closingBrace (sequence statement (· = .rightBrace) tokens).statements).run
          (sequence statement (· = .rightBrace) tokens).rest).preceded
            (sequence statement (· = .rightBrace) tokens).faults := rfl
    rw [hrun] at hfailed
    cases hlast : (closingBrace (sequence statement (· = .rightBrace) tokens).statements).run
        (sequence statement (· = .rightBrace) tokens).rest with
    | done value rest later => simp [hlast, Outcome.preceded] at hfailed
    | failed other later =>
      simp only [hlast, Outcome.preceded, Outcome.failed.injEq] at hfailed
      rw [← hfailed.1]
      exact ((hbrace _).onward _).stops other later hlast
  · intro tokens more
    rw [block_strict, block_strict]
    exact (sequence_continues hstatement tokens more).andThen hforward hforward
      fun body rest _ _ => (hbrace body).continues rest more

end Sequences

/-! ## Levels -/

namespace Level

/-- an assignment, seen from its equals sign: what is told about the target goes with the tokens behind it -/
theorem continues_assignTo {a : Rule Expr} (ha : a.Local) (target : Expr) (t : Token) (behind more : List Token) :
    ((a.conclude (assignTo target (t :: behind))).run behind).strict.Continues more
      ((a.conclude (assignTo target (t :: (behind ++ more)))).run (behind ++ more)).strict := by
  have hstrict : ∀ here value rest,
      (Outcome.done (assignTo target here value).1 rest (assignTo target here value).2).strict =
        .done (assignTo target here value).1 rest (assignTo target here value).2 := by
    intro here value rest
    refine Outcome.strict_of_passedOver ?_
    cases target with
    | var name => exact nofun
    | _ => exact List.forall_mem_singleton.2 rfl
  simp only [Rule.conclude, Outcome.strict_andThen, hstrict]
  refine (ha.continues behind more).andThen (fun _ rest => List.suffix_refl rest)
    (fun _ rest => List.suffix_refl rest) ?_
  intro value rest _ _
  refine ⟨fun _ => ?_, fun hrest => ?_⟩
  · cases target <;> rfl
  · have hrest : rest = [] := hrest
    rw [hrest]
    exact List.suffix_refl more

theorem onward_assignTo {a : Rule Expr} (ha : a.Local) (target : Expr) (here tokens : List Token) :
    ((a.conclude (assignTo target here)).run tokens).Onward tokens := by
  refine (ha.onward tokens).andThen ?_
  intro value rest _ _
  refine ⟨?_, nofun⟩
  cases target <;> exact List.suffix_refl rest

theorem closed_local : Closed (fun _ => Rule.Local) fun _ _ => Rule.Local where
  expressions := Rule.closed_local
  statements _ := Rule.closed_local
  assignTo hleft hvalue := hleft.followed (fun target here tokens => onward_assignTo hvalue target here tokens)
    fun target t behind more => continues_assignTo hvalue target t behind more
  embed _ ha := ha
  mono ha := ha
  block := .block

/-- the rules of a level look one token ahead -/
theorem local_withRoom (n : Nat) : (withRoom n).Has (fun _ => Rule.Local) fun _ => Rule.Local := closed_local.withRoom n

theorem local_declared (n : Nat) : (withRoom n).declared.Local := closed_local.declared (n := n) (local_withRoom n)

end Level

end Scriptlet
