/-
Postconditions of grammar rules. `a.Ensures P` says of every reading by `a` that ends well and reports nothing: the rule
has taken a first part off the tokens, and `P` holds of its value, of that part and of the tokens left over. There is
one lemma for each way of composing rules, in which the postcondition wanted of the whole is what the parts have to
establish.
-/
import Scriptlet.Grammar.Rule

namespace Scriptlet

variable {α β : Type}

/-! ## Readings without a report -/

namespace Outcome

theorem preceded_eq_done {o : Outcome α} {earlier : List Fault} {value : α} {rest : List Token}
    (h : o.preceded earlier = .done value rest []) : earlier = [] ∧ o = .done value rest [] := by
  cases o with
  | failed fault reported => cases h
  | done v r reported =>
    injection h with hv hr hreported
    obtain ⟨rfl, rfl⟩ := List.append_eq_nil_iff.1 hreported
    exact ⟨rfl, by rw [hv, hr]⟩

theorem andThen_eq_done {o : Outcome α} {next : α → List Token → Outcome β} {value : β} {rest : List Token}
    (h : o.andThen next = .done value rest []) :
    ∃ v mid, o = .done v mid [] ∧ next v mid = .done value rest [] := by
  cases o with
  | failed fault reported => cases h
  | done v mid reported =>
    obtain ⟨rfl, hnext⟩ := preceded_eq_done h
    exact ⟨v, mid, rfl, hnext⟩

end Outcome

/-! ## Rules -/

/-- whenever the rule ends well without a report, the value, the tokens read and the tokens left satisfy `P` -/
def Rule.Ensures (a : Rule α) (P : α → List Token → List Token → Prop) : Prop :=
  ∀ tokens value rest, a.run tokens = .done value rest [] → ∃ read, tokens = read ++ rest ∧ P value read rest

namespace Rule

variable {P : α → List Token → List Token → Prop} {R : β → List Token → List Token → Prop}

theorem ensures_fail (cause : Cause) : (fail cause : Rule α).Ensures P := by
  intro tokens value rest h
  cases h

theorem ensures_atom {f : Token → Option α} {otherwise : Rule α}
    (hf : ∀ t value rest, f t = some value → P value [t] rest) (ho : otherwise.Ensures P) :
    (atom f otherwise).Ensures P := by
  intro tokens value rest h
  cases tokens with
  | nil => exact ho _ _ _ h
  | cons t behind =>
    simp only [atom] at h
    split at h
    · rename_i v hv
      injection h with hvalue hrest
      subst hvalue hrest
      exact ⟨[t], rfl, hf t v behind hv⟩
    · exact ho _ _ _ h

theorem ensures_expect (kind : TokenKind) (cause : Cause) :
    (expect kind cause).Ensures fun t read _ => read = [t] ∧ t.kind = kind := by
  refine ensures_atom (fun t value rest h => ?_) (ensures_fail cause)
  split at h
  · rename_i hk
    cases h
    exact ⟨rfl, hk⟩
  · cases h

theorem Ensures.bind {a : Rule α} {f : α → Rule β} (ha : a.Ensures P)
    (hf : ∀ v first, (f v).Ensures fun w second rest => P v first (second ++ rest) → R w (first ++ second) rest) :
    (a.bind f).Ensures R := by
  intro tokens value rest h
  obtain ⟨v, mid, hv, hvalue⟩ := Outcome.andThen_eq_done h
  obtain ⟨first, rfl, hP⟩ := ha _ _ _ hv
  obtain ⟨second, rfl, hR⟩ := hf v first _ _ _ hvalue
  exact ⟨first ++ second, (List.append_assoc _ _ _).symm, hR hP⟩

theorem Ensures.conclude {a : Rule α} {f : α → β × List Fault}
    (ha : a.Ensures fun v read rest => (f v).2 = [] → R (f v).1 read rest) : (a.conclude f).Ensures R := by
  intro tokens value rest h
  obtain ⟨v, mid, hv, hvalue⟩ := Outcome.andThen_eq_done h
  obtain ⟨read, rfl, hP⟩ := ha _ _ _ hv
  injection hvalue with hw hrest hreported
  subst hw hrest
  exact ⟨read, rfl, hP hreported⟩

theorem Ensures.map {a : Rule α} {f : α → β} (ha : a.Ensures fun v read rest => R (f v) read rest) :
    (a.map f).Ensures R :=
  Ensures.conclude fun tokens value rest h => by
    obtain ⟨read, hread, hR⟩ := ha tokens value rest h
    exact ⟨read, hread, fun _ => hR⟩

theorem Ensures.imp {Q : α → List Token → List Token → Prop} {a : Rule α} (ha : a.Ensures P)
    (h : ∀ value read rest, P value read rest → Q value read rest) : a.Ensures Q := by
  intro tokens value rest hrun
  obtain ⟨read, hread, hP⟩ := ha _ _ _ hrun
  exact ⟨read, hread, h _ _ _ hP⟩

/-- a rule and then a token of a given kind behind it, which is dropped -/
theorem Ensures.left_expect {Q : α → List Token → List Token → Prop} {a : Rule α} {kind : TokenKind} {cause : Cause}
    (ha : a.Ensures P)
    (h : ∀ value read t rest, P value read (t :: rest) → t.kind = kind → Q value (read ++ [t]) rest) :
    (a.left (expect kind cause)).Ensures Q := by
  refine ha.bind fun value read => Ensures.map ?_
  refine (ensures_expect kind cause).imp fun t second rest ht hP => ?_
  obtain ⟨rfl, hkind⟩ := ht
  exact h value read t rest hP hkind

/-- a token of a given kind, which is dropped, and then a rule -/
theorem Ensures.expect_right {b : Rule β} {kind : TokenKind} {cause : Cause}
    (hb : ∀ t, t.kind = kind → b.Ensures fun value read rest => R value (t :: read) rest) :
    ((expect kind cause).right b).Ensures R := by
  intro tokens value rest h
  obtain ⟨t, mid, ht, hvalue⟩ := Outcome.andThen_eq_done h
  obtain ⟨first, rfl, rfl, hkind⟩ := ensures_expect kind cause _ _ _ ht
  obtain ⟨read, rfl, hR⟩ := hb t hkind _ _ _ hvalue
  exact ⟨t :: read, rfl, hR⟩

theorem Ensures.after {p : TokenKind → Bool} {yes : Token → Rule α} {no : Rule α}
    (hyes : ∀ t, p t.kind = true → (yes t).Ensures fun value read rest => P value (t :: read) rest)
    (hno : no.Ensures P) : (after p yes no).Ensures P := by
  intro tokens value rest h
  cases tokens with
  | nil => exact hno _ _ _ h
  | cons t behind =>
    simp only [Rule.after] at h
    split at h
    · rename_i hp
      obtain ⟨read, rfl, hP⟩ := hyes t hp _ _ _ h
      exact ⟨t :: read, rfl, hP⟩
    · exact hno _ _ _ h

theorem Ensures.refuse {p : TokenKind → Bool} {cause : Token → Cause} {otherwise : Rule α}
    (ho : otherwise.Ensures P) : (refuse p cause otherwise).Ensures P := by
  intro tokens value rest h
  cases tokens with
  | nil => exact ho _ _ _ h
  | cons t behind =>
    simp only [Rule.refuse] at h
    split at h
    · cases h
    · exact ho _ _ _ h

theorem Ensures.followed {a : Rule α} {p : TokenKind → Bool} {more : α → List Token → Rule β} {plain : α → β}
    (ha : a.Ensures P)
    (hmore : ∀ v first t here, p t.kind = true → (more v here).Ensures fun w second rest =>
      P v first (t :: (second ++ rest)) → R w (first ++ t :: second) rest)
    (hplain : ∀ v first rest, (∀ t ∈ rest.head?, p t.kind = false) → P v first rest → R (plain v) first rest) :
    (a.followed p more plain).Ensures R := by
  intro tokens value rest h
  obtain ⟨v, mid, hv, hvalue⟩ := Outcome.andThen_eq_done h
  obtain ⟨first, rfl, hP⟩ := ha _ _ _ hv
  cases mid with
  | nil =>
    injection hvalue with hw hrest
    subst hw hrest
    exact ⟨first, rfl, hplain v first [] (by simp) hP⟩
  | cons t behind =>
    dsimp only at hvalue
    split at hvalue
    · rename_i hp
      obtain ⟨second, rfl, hR⟩ := hmore v first t (t :: behind) hp _ _ _ hvalue
      exact ⟨first ++ t :: second, by simp, hR hP⟩
    · rename_i hp
      injection hvalue with hw hrest
      subst hw hrest
      exact ⟨first, rfl, hplain v first (t :: behind) (by simpa using hp) hP⟩

/-! ## Repetition -/

section Chain

variable {operand : Rule Expr} {p : TokenKind → Bool} {join : Expr → Token → Expr → Expr}
  {P J : Expr → List Token → Prop}

/-- what holds of a left side holds of all that is joined to it -/
theorem chainFrom_ensures (hoperand : operand.Ensures fun e read _ => P e read)
    (hjoin : ∀ left first operator right second, J left first → p operator.kind = true → P right second →
      J (join left operator right) (first ++ operator :: second))
    (left : Expr) (first tokens : List Token) (hleft : J left first) (value : Expr) (rest : List Token)
    (h : chainFrom operand p join left tokens = .done value rest []) :
    ∃ read, tokens = read ++ rest ∧ J value (first ++ read) := by
  fun_induction chainFrom operand p join left tokens generalizing first with
  | case1 left =>
    injection h with hvalue hrest
    subst hvalue hrest
    exact ⟨[], rfl, by simpa using hleft⟩
  | case2 left operator behind hp right mid reported hright ih =>
    obtain ⟨rfl, hlater⟩ := Outcome.preceded_eq_done h
    obtain ⟨second, rfl, hP⟩ := hoperand _ _ _ hright
    obtain ⟨read, rfl, hJ⟩ := ih _ (hjoin left first operator right second hleft hp hP) hlater
    exact ⟨operator :: (second ++ read), by simp, by simpa using hJ⟩
  | case3 => cases h
  | case4 left operator behind hp =>
    injection h with hvalue hrest
    subst hvalue hrest
    exact ⟨[], rfl, by simpa using hleft⟩

theorem Ensures.chain (hoperand : operand.Ensures fun e read _ => P e read)
    (hfirst : ∀ e read, P e read → J e read)
    (hjoin : ∀ left first operator right second, J left first → p operator.kind = true → P right second →
      J (join left operator right) (first ++ operator :: second)) :
    (operand.chain p join).Ensures fun e read _ => J e read := by
  intro tokens value rest h
  obtain ⟨left, mid, hleft, hvalue⟩ := Outcome.andThen_eq_done h
  obtain ⟨first, rfl, hP⟩ := hoperand _ _ _ hleft
  obtain ⟨read, rfl, hJ⟩ := chainFrom_ensures hoperand hjoin left first mid (hfirst _ _ hP) value rest hvalue
  exact ⟨first ++ read, by simp, hJ⟩

end Chain

/-- a sequence without a fault is statements read one after the other -/
theorem sequence_ensures {statement : Rule Stmt} {closes : TokenKind → Bool}
    {P : Stmt → List Token → Prop} {Q : List Stmt → List Token → Prop}
    (hone : statement.Ensures fun s read _ => P s read) (hnil : Q [] [])
    (hcons : ∀ s first later second, P s first → Q later second → Q (s :: later) (first ++ second))
    (tokens : List Token) (h : (sequence statement closes tokens).faults = []) :
    ∃ read, tokens = read ++ (sequence statement closes tokens).rest ∧
      Q (sequence statement closes tokens).statements read := by
  fun_induction sequence statement closes tokens with
  | case1 => exact ⟨[], rfl, hnil⟩
  | case2 t behind hcloses => exact ⟨[], rfl, hnil⟩
  | case3 t behind hcloses s rest reported hs later ih =>
    obtain ⟨rfl, hlater⟩ := List.append_eq_nil_iff.1 h
    obtain ⟨first, hfirst, hP⟩ := hone _ _ _ hs
    obtain ⟨second, hsecond, hQ⟩ := ih hlater
    exact ⟨first ++ second, by rw [hfirst, List.append_assoc, ← hsecond], hcons s first _ second hP hQ⟩
  | case4 t behind hcloses fault reported hs later ih => simp at h

theorem Ensures.block {statement : Rule Stmt} {P : Stmt → List Token → Prop} {Q : List Stmt → List Token → Prop}
    (hone : statement.Ensures fun s read _ => P s read) (hnil : Q [] [])
    (hcons : ∀ s first later second, P s first → Q later second → Q (s :: later) (first ++ second)) :
    (Rule.block statement).Ensures fun body read _ => ∃ first t, read = first ++ [t] ∧ t.kind = .rightBrace ∧
      Q body first := by
  intro tokens value rest h
  obtain ⟨hfaults, hrest⟩ := Outcome.preceded_eq_done h
  obtain ⟨first, hfirst, hQ⟩ := sequence_ensures hone hnil hcons tokens hfaults
  obtain ⟨t, mid, ht, hvalue⟩ := Outcome.andThen_eq_done hrest
  obtain ⟨second, hsecond, rfl, hkind⟩ := ensures_expect .rightBrace .expectBraceAfterBlock _ _ _ ht
  injection hvalue with hw hmid
  subst hw hmid
  exact ⟨first ++ [t], by rw [hfirst, hsecond, List.append_assoc], first, t, rfl, hkind, hQ⟩

end Rule

end Scriptlet
