/-
Trees in spite of faults. A program may be read with complaints: statements are left out of blocks, an assignment to
what is no name stands for its left side, and a text that nests too deep is given up somewhere inside. The statements
that are handed over all the same are canonical and keep to the nesting limit, as if the rest had not been there.

`a.Yields P` says of every reading by `a` that ends well, whatever it reports: `P` holds of its value and of the tokens
left over. As in `Rule.Ensures` there is one lemma for each way of composing rules, but nothing is said about the tokens
read, as a value no longer stands for all of them.

- `Level.forms_withRoom`: the rules of every level.
- `Parsing.formed_of_mem_program`: whole texts.
-/
import Scriptlet.Proofs.Canonical

namespace Scriptlet

variable {α β : Type}

/-! ## Readings with reports -/

namespace Outcome

theorem of_preceded_eq_done {o : Outcome α} {earlier reported : List Fault} {value : α} {rest : List Token}
    (h : o.preceded earlier = .done value rest reported) : ∃ later, o = .done value rest later := by
  cases o with
  | failed fault later => cases h
  | done v r later =>
    injection h with hv hr
    exact ⟨later, by rw [hv, hr]⟩

theorem of_andThen_eq_done {o : Outcome α} {next : α → List Token → Outcome β} {value : β} {rest : List Token}
    {reported : List Fault} (h : o.andThen next = .done value rest reported) :
    ∃ v mid earlier later, o = .done v mid earlier ∧ next v mid = .done value rest later := by
  cases o with
  | failed fault earlier => cases h
  | done v mid earlier =>
    obtain ⟨later, hnext⟩ := of_preceded_eq_done h
    exact ⟨v, mid, earlier, later, rfl, hnext⟩

end Outcome

/-! ## Rules -/

/-- whenever the rule ends well, the value and the tokens left satisfy `P` -/
def Rule.Yields (a : Rule α) (P : α → List Token → Prop) : Prop :=
  ∀ tokens value rest reported, a.run tokens = .done value rest reported → P value rest

namespace Rule

variable {P Q : α → List Token → Prop} {R : β → List Token → Prop}

theorem yields_fail (cause : Cause) : (fail cause : Rule α).Yields P := by
  intro tokens value rest reported h
  cases h

theorem yields_atom {f : Token → Option α} {otherwise : Rule α} (hf : ∀ t value rest, f t = some value → P value rest)
    (ho : otherwise.Yields P) : (atom f otherwise).Yields P := by
  intro tokens value rest reported h
  cases tokens with
  | nil => exact ho _ _ _ _ h
  | cons t behind =>
    simp only [atom] at h
    split at h
    · rename_i v hv
      injection h with hvalue hrest
      subst hvalue hrest
      exact hf t v behind hv
    · exact ho _ _ _ _ h

theorem yields_expect (kind : TokenKind) (cause : Cause) : (expect kind cause).Yields fun t _ => t.kind = kind := by
  refine yields_atom (fun t value rest h => ?_) (yields_fail cause)
  split at h
  · rename_i hk
    cases h
    exact hk
  · cases h

theorem Yields.imp {a : Rule α} (ha : a.Yields P) (h : ∀ value rest, P value rest → Q value rest) : a.Yields Q :=
  fun tokens value rest reported hrun => h value rest (ha tokens value rest reported hrun)

theorem Yields.bind {a : Rule α} {f : α → Rule β} (ha : a.Yields P) (hf : ∀ v mid, P v mid → (f v).Yields R) :
    (a.bind f).Yields R := by
  intro tokens value rest reported h
  obtain ⟨v, mid, earlier, later, hv, hvalue⟩ := Outcome.of_andThen_eq_done h
  exact hf v mid (ha _ _ _ _ hv) _ _ _ _ hvalue

theorem Yields.conclude {a : Rule α} {f : α → β × List Fault} (ha : a.Yields fun v rest => R (f v).1 rest) :
    (a.conclude f).Yields R := by
  intro tokens value rest reported h
  obtain ⟨v, mid, earlier, later, hv, hvalue⟩ := Outcome.of_andThen_eq_done h
  injection hvalue with hw hrest
  subst hw hrest
  exact ha _ _ _ _ hv

theorem Yields.map {a : Rule α} {f : α → β} (ha : a.Yields fun v rest => R (f v) rest) : (a.map f).Yields R :=
  Yields.conclude ha

theorem Yields.right {a : Rule α} {b : Rule β} (hb : b.Yields R) : (a.right b).Yields R := by
  intro tokens value rest reported h
  obtain ⟨v, mid, earlier, later, hv, hvalue⟩ := Outcome.of_andThen_eq_done h
  exact hb _ _ _ _ hvalue

theorem Yields.left {P : α → Prop} {a : Rule α} {b : Rule β} (ha : a.Yields fun v _ => P v) :
    (a.left b).Yields fun v _ => P v := by
  refine ha.bind fun v _ hv => .map ?_
  intro _ _ _ _ _
  exact hv

theorem Yields.after {p : TokenKind → Bool} {yes : Token → Rule α} {no : Rule α}
    (hyes : ∀ t, p t.kind = true → (yes t).Yields P) (hno : no.Yields P) : (after p yes no).Yields P := by
  intro tokens value rest reported h
  cases tokens with
  | nil => exact hno _ _ _ _ h
  | cons t behind =>
    simp only [Rule.after] at h
    split at h
    · rename_i hp
      exact hyes t hp _ _ _ _ h
    · exact hno _ _ _ _ h

theorem Yields.refuse {p : TokenKind → Bool} {cause : Token → Cause} {otherwise : Rule α} (ho : otherwise.Yields P) :
    (refuse p cause otherwise).Yields P := by
  intro tokens value rest reported h
  cases tokens with
  | nil => exact ho _ _ _ _ h
  | cons t behind =>
    simp only [Rule.refuse] at h
    split at h
    · cases h
    · exact ho _ _ _ _ h

theorem Yields.followed {a : Rule α} {p : TokenKind → Bool} {more : α → List Token → Rule β} {plain : α → β}
    (ha : a.Yields P)
    (hmore : ∀ v t behind, p t.kind = true → P v (t :: behind) → (more v (t :: behind)).Yields R)
    (hplain : ∀ v rest, (∀ t ∈ rest.head?, p t.kind = false) → P v rest → R (plain v) rest) :
    (a.followed p more plain).Yields R := by
  intro tokens value rest reported h
  obtain ⟨v, mid, earlier, later, hv, hvalue⟩ := Outcome.of_andThen_eq_done h
  have hP := ha _ _ _ _ hv
  cases mid with
  | nil =>
    injection hvalue with hw hrest
    subst hw hrest
    exact hplain v [] (by simp) hP
  | cons t behind =>
    dsimp only at hvalue
    split at hvalue
    · rename_i hp
      exact hmore v t behind hp hP _ _ _ _ hvalue
    · rename_i hp
      injection hvalue with hw hrest
      subst hw hrest
      exact hplain v (t :: behind) (by simpa using hp) hP

/-! ## Repetition -/

section Chain

variable {operand : Rule Expr} {p : TokenKind → Bool} {join : Expr → Token → Expr → Expr} {P J : Expr → Prop}

/-- what holds of a left side holds of all that is joined to it -/
theorem chainFrom_yields (hoperand : operand.Yields fun e _ => P e)
    (hjoin : ∀ left operator right, J left → p operator.kind = true → P right → J (join left operator right))
    {left : Expr} {tokens : List Token} (hleft : J left) {value : Expr} {rest : List Token} {reported : List Fault}
    (h : chainFrom operand p join left tokens = .done value rest reported) : J value := by
  fun_induction chainFrom operand p join left tokens generalizing reported with
  | case1 left =>
    injection h with hvalue
    exact hvalue ▸ hleft
  | case2 left operator behind hp right mid earlier hright ih =>
    obtain ⟨later, hlater⟩ := Outcome.of_preceded_eq_done h
    exact ih (hjoin left operator right hleft hp (hoperand _ _ _ _ hright)) hlater
  | case3 => cases h
  | case4 left operator behind hp =>
    injection h with hvalue
    exact hvalue ▸ hleft

theorem Yields.chain (hoperand : operand.Yields fun e _ => P e) (hfirst : ∀ e, P e → J e)
    (hjoin : ∀ left operator right, J left → p operator.kind = true → P right → J (join left operator right)) :
    (operand.chain p join).Yields fun e _ => J e := by
  intro tokens value rest reported h
  obtain ⟨left, mid, earlier, later, hleft, hvalue⟩ := Outcome.of_andThen_eq_done h
  exact chainFrom_yields hoperand hjoin (hfirst _ (hoperand _ _ _ _ hleft)) hvalue

end Chain

/-- recovery adds no statement: what is in a sequence was read by the rule -/
theorem sequence_yields {statement : Rule Stmt} {closes : TokenKind → Bool} {P : Stmt → Prop}
    (hone : statement.Yields fun s _ => P s) (tokens : List Token) :
    ∀ s ∈ (sequence statement closes tokens).statements, P s := by
  fun_induction sequence statement closes tokens with
  | case1 => exact List.forall_mem_nil _
  | case2 t behind hcloses => exact List.forall_mem_nil _
  | case3 t behind hcloses s rest reported hs later ih => exact List.forall_mem_cons.2 ⟨hone _ _ _ _ hs, ih⟩
  | case4 t behind hcloses fault reported hs later ih => exact ih

theorem Yields.block {statement : Rule Stmt} {P : Stmt → Prop} (hone : statement.Yields fun s _ => P s) :
    (Rule.block statement).Yields fun body _ => ∀ s ∈ body, P s := by
  intro tokens value rest reported h
  obtain ⟨later, hbrace⟩ := Outcome.of_preceded_eq_done h
  obtain ⟨t, mid, _, _, -, hvalue⟩ := Outcome.of_andThen_eq_done hbrace
  injection hvalue with hw
  exact hw ▸ sequence_yields hone tokens

end Rule

/-! ## Levels -/

/-- the expression is one of the tier and nests less deep than `room` -/
structure Expr.Formed (e : Expr) (tier room : Nat) : Prop where
  fits : e.fits tier = true
  nesting : e.nesting < room

/-- the statement is canonical and nests less deep than `room` -/
structure Stmt.Formed (s : Stmt) (room : Nat) : Prop where
  canonical : s.canonical = true
  nesting : s.nesting < room

theorem Stmt.Formed.block {body : List Stmt} {room : Nat} (h : ∀ s ∈ body, s.Formed (room + 1)) :
    (Stmt.block body).Formed (room + 2) where
  canonical := canonicalAll_iff.2 fun s hs => (h s hs).canonical
  nesting := by
    have hdeep : nestingAll body ≤ room := nestingAll_le_iff.2 fun s hs => Nat.le_of_lt_succ (h s hs).nesting
    exact Nat.succ_lt_succ (Nat.lt_succ_of_le hdeep)

/-- no `else` is left that the statement could have taken -/
def Stmt.Closed (s : Stmt) (rest : List Token) : Prop := s.endsOpen = true → ∀ t ∈ rest.head?, t.kind ≠ .kwElse

/-- the rules of a level hand over trees that nest less deep than `n` -/
structure Level.Forms (level : Level) (n : Nat) : Prop where
  assignment : level.assignment.Yields fun e _ => e.Formed assignmentTier n
  unary : level.unary.Yields fun e _ => e.Formed 0 n
  statement : level.statement.Yields fun s rest => (s.Formed n ∧ s.isDeclaration = false) ∧ s.Closed rest
  declaration : level.declaration.Yields fun s _ => s.Formed n
  block : level.block.Yields fun body _ => (Stmt.block body).Formed (n + 1)

namespace Level

theorem atom?_formed {t : Token} {e : Expr} (n : Nat) (h : atom? t = some e) : e.Formed 0 (n + 1) := by
  unfold atom? at h
  split at h <;> cases h <;> rename_i hkind
  · exact ⟨by simp [Expr.fits], Nat.succ_pos n⟩
  · exact ⟨by simp [Expr.fits], Nat.succ_pos n⟩
  · exact ⟨by simp [Expr.fits], Nat.succ_pos n⟩
  · exact ⟨by simp [Expr.fits], Nat.succ_pos n⟩
  · exact ⟨by simp [Expr.fits, hkind], Nat.succ_pos n⟩

/-- a target that is no name stands for the whole -/
theorem assignTo_formed {target value : Expr} {n : Nat} (htarget : target.Formed 6 (n + 1))
    (hvalue : value.Formed assignmentTier n) (here : List Token) :
    (assignTo target here value).1.Formed assignmentTier (n + 1) := by
  cases target with
  | var name =>
    refine ⟨?_, Nat.succ_lt_succ hvalue.nesting⟩
    simpa [assignTo, Expr.fits, hvalue.fits] using htarget.fits
  | _ => exact ⟨Expr.fits_mono htarget.fits (by decide), htarget.nesting⟩

namespace Forms

variable {inside : Level} {n : Nat} (h : inside.Forms n)

include h

theorem closedBy (kind : TokenKind) (cause : Cause) :
    (inside.expression.left (.expect kind cause)).Yields fun e _ => e.Formed assignmentTier n :=
  h.assignment.left

theorem primary : inside.primary.Yields fun e _ => e.Formed 0 (n + 1) := by
  refine Rule.yields_atom (fun t e rest => atom?_formed n) (.after (fun t ht => .map ?_) (Rule.yields_fail _))
  refine (h.closedBy _ _).imp ?_
  intro e rest he
  exact ⟨he.fits, Nat.succ_lt_succ he.nesting⟩

theorem signed : inside.signed.Yields fun e _ => e.Formed 0 (n + 1) := by
  refine .after (fun t ht => .map ?_) h.primary
  have hsign : t.kind = .bang ∨ t.kind = .minus := by
    unfold isSign at ht
    split at ht <;> simp_all
  refine h.unary.imp ?_
  intro e rest he
  refine ⟨?_, Nat.succ_lt_succ he.nesting⟩
  simpa [Expr.fits, he.fits] using hsign

/-- each tier is a chain over the tier below -/
theorem tier (k : Nat) : (inside.tier k).Yields fun e _ => e.Formed k (n + 1) := by
  induction k with
  | zero => exact h.signed
  | succ k ih =>
    refine ih.chain ?_ ?_
    · intro e he
      exact ⟨Expr.fits_mono he.fits (Nat.le_succ k), he.nesting⟩
    · intro left operator right hl hop hr
      refine ⟨(Expr.fits_join hop).2 ⟨Nat.lt_succ_self k, hl.fits, hr.fits⟩, ?_⟩
      rw [Expr.nesting_join]
      exact Nat.max_lt.2 ⟨hl.nesting, hr.nesting⟩

theorem assigning : inside.assigning.Yields fun e _ => e.Formed assignmentTier (n + 1) := by
  have hdisjunction := h.tier 6
  rw [← disjunction_eq_tier] at hdisjunction
  refine hdisjunction.followed (fun target t behind _ htarget => .conclude ?_) ?_
  · refine h.assignment.imp ?_
    intro value rest hvalue
    exact assignTo_formed htarget hvalue (t :: behind)
  · intro e rest _ he
    exact ⟨Expr.fits_mono he.fits (by decide), he.nesting⟩

theorem conditional :
    inside.conditional.Yields fun s rest => (s.Formed (n + 1) ∧ s.isDeclaration = false) ∧ s.Closed rest := by
  refine .right ((h.closedBy _ _).bind fun condition _ hcondition => ?_)
  refine h.statement.followed (fun yes t behind ht hyes => .map ?_) ?_
  · refine h.statement.imp ?_
    rintro no rest ⟨⟨hno, hnoPlain⟩, hnoClosed⟩
    obtain ⟨⟨hyes, hyesPlain⟩, hyesClosed⟩ := hyes
    have hpresent : no.isSkip = false := by
      cases no with
      | skip => cases hno.canonical
      | _ => rfl
    -- the `else` is left behind the first branch, so that branch is closed
    have hclosed : yes.endsOpen = false := by
      by_contra hopen
      exact hyesClosed (by simpa using hopen) t rfl (of_decide_eq_true ht)
    refine ⟨⟨⟨?_, ?_⟩, rfl⟩, ?_⟩
    · simp [Stmt.canonical, hcondition.fits, hyes.canonical, hyesPlain, hno.canonical, hnoPlain, hclosed]
    · have hdeep := hcondition.nesting
      have hyesDeep := hyes.nesting
      have hnoDeep := hno.nesting
      simp only [Stmt.nesting]
      omega
    · intro hopen
      exact hnoClosed (by simpa [Stmt.endsOpen, hpresent] using hopen)
  · rintro yes rest hrest ⟨⟨hyes, hyesPlain⟩, -⟩
    refine ⟨⟨⟨?_, ?_⟩, rfl⟩, ?_⟩
    · simp [Stmt.canonical, Stmt.isSkip, hcondition.fits, hyes.canonical, hyesPlain]
    · have hdeep := hcondition.nesting
      have hyesDeep := hyes.nesting
      simp only [Stmt.nesting]
      omega
    · intro _ u hu
      exact of_decide_eq_false (hrest u hu)

theorem command :
    inside.command.Yields fun s rest => (s.Formed (n + 1) ∧ s.isDeclaration = false) ∧ s.Closed rest := by
  refine .after (fun _ _ => h.conditional) (.after (fun _ _ => .map ?print) (.after (fun _ _ => .map ?block)
    (.refuse (.map ?bare))))
  case print =>
    refine (h.closedBy _ _).imp ?_
    intro e rest he
    exact ⟨⟨⟨he.fits, Nat.succ_lt_succ he.nesting⟩, rfl⟩, nofun⟩
  case block =>
    refine h.block.imp ?_
    intro body rest hbody
    exact ⟨⟨hbody, rfl⟩, nofun⟩
  case bare =>
    refine (h.closedBy _ _).imp ?_
    intro e rest he
    exact ⟨⟨⟨he.fits, Nat.succ_lt_succ he.nesting⟩, rfl⟩, nofun⟩

theorem declared : inside.declared.Yields fun s _ => s.Formed (n + 1) := by
  refine .after (fun _ _ => .left ?_) (h.command.imp fun s rest hs => hs.1.1)
  refine (Rule.yields_expect _ _).followed (fun name t behind _ hname => .map ?_) ?_
  · refine h.assignment.imp ?_
    intro e rest he
    exact ⟨by simp [Stmt.canonical, hname, he.fits], Nat.succ_lt_succ he.nesting⟩
  · intro name rest _ hname
    exact ⟨by simp [Stmt.canonical, hname], Nat.succ_pos n⟩

theorem enclosing : inside.enclosing.Forms (n + 1) where
  assignment := h.assigning
  unary := h.signed
  statement := h.command
  declaration := h.declared
  block := (Rule.Yields.block h.declared).imp fun _ _ hbody => .block hbody

end Forms

theorem forms_withRoom (n : Nat) : (withRoom n).Forms n := by
  induction n with
  | zero =>
    exact ⟨Rule.yields_fail _, Rule.yields_fail _, Rule.yields_fail _, Rule.yields_fail _, Rule.yields_fail _⟩
  | succ n ih => exact ih.enclosing

end Level

/-! ## Programs -/

/-- Every statement that is read from a token list is canonical and keeps to the nesting limit, whatever else is
complained about. -/
theorem Parsing.formed_of_mem_program {tokens : List Token} {s : Stmt} (h : s ∈ (ofTokens tokens).program) :
    s.Formed (maxNesting + 1) :=
  Rule.sequence_yields (Level.forms_withRoom (maxNesting + 1)).declaration (body tokens) s h

end Scriptlet
