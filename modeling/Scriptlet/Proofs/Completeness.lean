/-
Completeness of the grammar: every canonical tree is read back from any text that spells it, up to the nesting limit,
and past the limit too much nesting is the first complaint.

The difficulty is in the operators. A chain of operators is read from the left, so the left operand of a tier is not
read by a call of its own: the rule of the tier has read it, and goes on. `LeadsAt` says so; `ReadsAt` is the plain fact
that the tokens of an expression are read as the expression, if no operator follows that would carry on with it. On each
tier the first gives the second (`LeadsAt.reads`), and the second on one tier gives the first on the next
(`ReadsAt.leads`).

Statements go by induction on the room that is left, expressions by induction on the tree.

- `Expr.readable`: the expressions, at every tier and with every room.
- `commandsAt`, `declaresAt_of_commandsAt`: the statements, without and with declarations.
- `Parsing.sequence_spelled`: programs.
-/
import Scriptlet.Proofs.Canonical
import Scriptlet.Proofs.Depth

namespace Scriptlet

open Level

/-! ## Tiers -/

/-- no operator of a tier below `k` comes first -/
def StopsAt (k : Nat) (rest : List Token) : Prop := ∀ t ∈ rest.head?, ∀ j < k, accepts j t.kind = false

theorem StopsAt.mono {j k : Nat} {rest : List Token} (h : StopsAt k rest) (hj : j ≤ k) : StopsAt j rest := by
  intro t ht i hi
  exact h t ht i (Nat.lt_of_lt_of_le hi hj)

/-- an operator is on one tier only -/
theorem accepts_unique {kind : TokenKind} {j k : Nat} (hj : accepts j kind = true) (hk : accepts k kind = true) :
    j = k := by
  have hfound : ∀ i, accepts i kind = true → kind.binaryTier?.or kind.logicalTier? = some i := by
    intro i hi
    by_cases hi4 : i < 4
    · simp [binaryTier?_of_accepts hi4 hi]
    · have hlogical := logicalTier?_of_accepts (Nat.le_of_not_lt hi4) hi
      cases kind <;> first | exact hlogical | cases hlogical
  exact Option.some.inj ((hfound j hj).symm.trans (hfound k hk))

/-- an operator of a tier does not carry on with an expression of a tighter one -/
theorem stopsAt_operator {k : Nat} {operator : Token} (h : accepts k operator.kind = true) (behind : List Token) :
    StopsAt k (operator :: behind) := by
  intro t ht j hj
  cases ht
  by_contra hother
  have := accepts_unique (by simpa using hother) h
  omega

/-- with room for `n` levels, the tokens are read as `e` on tier `k` -/
def ReadsAt (n k : Nat) (e : Expr) (tokens : List Token) : Prop :=
  ∀ rest, StopsAt k rest → (((withRoom n).tier k).run (tokens ++ rest)).Becomes (e.nesting ≤ n) (.done e rest [])

/-- with room for `n` levels, the tokens are read as `e` on the tier above `k`, and reading goes on with operators -/
def LeadsAt (n k : Nat) (e : Expr) (tokens : List Token) : Prop :=
  ∀ rest, StopsAt k rest → (((withRoom n).tier (k + 1)).run (tokens ++ rest)).Becomes (e.nesting ≤ n)
    (((withRoom n).tier k).chainFrom (accepts k) (join k) e rest)

section Tiers

variable {n j k : Nat} {e left right : Expr} {operator : Token} {tokens first second : List Token}

theorem ReadsAt.leads (h : ReadsAt n k e tokens) : LeadsAt n k e tokens := by
  intro rest hrest
  exact (h rest hrest).andThen_eq rfl

theorem LeadsAt.reads (h : LeadsAt n k e tokens) : ReadsAt n (k + 1) e tokens := by
  intro rest hrest
  have hlead := h rest (hrest.mono (Nat.le_succ k))
  rwa [Rule.chainFrom_stop fun t ht => hrest t ht k (Nat.lt_succ_self k)] at hlead

/-- the left operand has been read already, and the right one is next -/
theorem LeadsAt.join (hl : LeadsAt n k left first) (hop : accepts k operator.kind = true)
    (hr : ReadsAt n k right second) : LeadsAt n k (Level.join k left operator right) (first ++ operator :: second) := by
  intro rest hrest
  have hlead := hl (operator :: (second ++ rest)) (stopsAt_operator hop _)
  rw [Rule.chainFrom_step hop] at hlead
  have hright : ((((withRoom n).tier k).run (second ++ rest)).andThen fun right rest =>
      ((withRoom n).tier k).chainFrom (accepts k) (Level.join k) (Level.join k left operator right) rest).Becomes
        (right.nesting ≤ n)
        (((withRoom n).tier k).chainFrom (accepts k) (Level.join k) (Level.join k left operator right) rest) :=
    (hr rest hrest).andThen_eq rfl
  rw [Expr.nesting_join, List.append_assoc, List.cons_append]
  exact (hlead.trans hright).congr Nat.max_le.symm

/-- what is read as an operand is read on every looser tier -/
theorem LeadsAt.lift (h : LeadsAt n j e tokens) (hjk : j ≤ k) : LeadsAt n k e tokens := by
  induction k, hjk using Nat.le_induction with
  | base => exact h
  | succ k _ ih => exact ih.reads.leads

end Tiers

/-! ## Expressions -/

/-- nothing that could carry on with an expression comes first -/
def ClosesExpr (rest : List Token) : Prop := StopsAt 6 rest ∧ ∀ t ∈ rest.head?, t.kind ≠ .equal

/-- with room for `n` levels, the tokens are read as `e` where any expression may stand -/
def ReadsWhole (n : Nat) (e : Expr) (tokens : List Token) : Prop :=
  ∀ rest, ClosesExpr rest → ((withRoom n).assigning.run (tokens ++ rest)).Becomes (e.nesting ≤ n) (.done e rest [])

theorem closesExpr_of_kind {t : Token} (h : t.kind = .rightParen ∨ t.kind = .semicolon) (rest : List Token) :
    ClosesExpr (t :: rest) := by
  constructor
  · intro u hu j hj
    cases hu
    rcases h with h | h <;> rw [h] <;> interval_cases j <;> rfl
  · intro u hu
    cases hu
    rcases h with h | h <;> rw [h] <;> decide

theorem LeadsAt.readsWhole {n : Nat} {e : Expr} {tokens : List Token} (h : LeadsAt n 5 e tokens) :
    ReadsWhole n e tokens := by
  intro rest hrest
  refine Rule.becomes_plain (h.reads rest hrest.1) fun t ht => ?_
  simpa using hrest.2 t ht

/-- a construct of a single token -/
theorem readsAt_atom {t : Token} {e : Expr} (h : atom? t = some e) (n : Nat) : ReadsAt n 0 e [t] := by
  intro rest _
  have hsign : isSign t.kind = false := by
    unfold atom? at h
    split at h <;> rename_i hkind <;> first | (rw [hkind]; rfl) | cases h
  have hrun : ((withRoom n).tier 0).run (t :: rest) = .done e rest [] := by
    rw [tier, signed, Rule.run_after_no hsign]
    simp [primary, Rule.atom, h]
  rw [List.singleton_append, hrun, Expr.nesting_of_atom? h]
  exact .refl (Nat.zero_le n) _

theorem readsAt_unary {operator : Token} {operand : Expr} {tokens : List Token}
    (hop : isSign operator.kind = true) (h : ∀ n, ReadsAt n 0 operand tokens) (n : Nat) :
    ReadsAt n 0 (.unary operator operand) (operator :: tokens) := by
  intro rest _
  have hstop : StopsAt 0 rest := fun t _ j hj => absurd hj (Nat.not_lt_zero j)
  have hoperand : ((withRoom n).unary.run (tokens ++ rest)).Becomes (operand.nesting + 1 ≤ n) (.done operand rest []) :=
    becomes_nested Level.unary rfl fun m _ => h m rest hstop
  rw [List.cons_append, tier, signed, Rule.run_after_yes hop]
  exact Rule.becomes_map hoperand

theorem readsAt_grouping {inner : Expr} {tokens : List Token} {opening closing : Token}
    (hopening : opening.kind = .leftParen) (hclosing : closing.kind = .rightParen)
    (h : ∀ n, ReadsWhole n inner tokens) (n : Nat) :
    ReadsAt n 0 (.grouping inner) (opening :: (tokens ++ [closing])) := by
  intro rest _
  have hatom : atom? opening = none := by
    rw [atom?, hopening]
  have hrun : ((withRoom n).tier 0).run (opening :: (tokens ++ closing :: rest)) =
      (((withRoom n).expression.left (.expect .rightParen .expectParenAfterExpression)).map .grouping).run
        (tokens ++ closing :: rest) := by
    rw [tier, signed, Rule.run_after_no (by rw [hopening]; rfl)]
    simp [primary, Rule.atom, hatom, Rule.after, hopening]
  have hcloses : ClosesExpr (closing :: rest) := closesExpr_of_kind (.inl hclosing) rest
  have hinner : ((withRoom n).expression.run (tokens ++ closing :: rest)).Becomes (inner.nesting + 1 ≤ n)
      (.done inner (closing :: rest) []) :=
    becomes_nested Level.assignment rfl fun m _ => h m _ hcloses
  rw [List.cons_append, List.append_assoc, List.singleton_append, hrun]
  exact Rule.becomes_map (Rule.becomes_left hinner hclosing)

theorem readsWhole_assign {name equals : Token} {value : Expr} {tokens : List Token}
    (hname : name.kind = .identifier) (hequals : equals.kind = .equal) (h : ∀ n, ReadsWhole n value tokens) (n : Nat) :
    ReadsWhole n (.assign name value) (name :: equals :: tokens) := by
  intro rest hrest
  have hatom : atom? name = some (.var name) := by
    rw [atom?, hname]
  have htarget : LeadsAt n 5 (.var name) [name] := (readsAt_atom hatom n).leads.lift (by decide)
  have hstop : StopsAt 6 (equals :: (tokens ++ rest)) := by
    intro t ht j hj
    cases ht
    rw [hequals]
    interval_cases j <;> rfl
  have hvalue : ((withRoom n).assignment.run (tokens ++ rest)).Becomes (value.nesting + 1 ≤ n) (.done value rest []) :=
    becomes_nested Level.assignment rfl fun m _ => h m rest hrest
  refine (Rule.becomes_followed (htarget.reads _ hstop) (by simp [hequals]) ?_).congr (and_iff_right (Nat.zero_le n))
  exact hvalue.andThen_eq rfl

/-- the tokens are read as `e` wherever its form allows, with any room -/
structure Expr.Readable (e : Expr) (tokens : List Token) : Prop where
  operand : ∀ n, e.fits 0 = true → ReadsAt n 0 e tokens
  leads : ∀ n k, e.fits (k + 1) = true → k < 6 → LeadsAt n k e tokens
  whole : ∀ n, e.fits assignmentTier = true → ReadsWhole n e tokens

namespace Expr.Readable

variable {e : Expr} {tokens : List Token}

theorem reads (h : e.Readable tokens) (n : Nat) {k : Nat} (hfits : e.fits k = true) (hk : k ≤ 6) :
    ReadsAt n k e tokens := by
  cases k with
  | zero => exact h.operand n hfits
  | succ k => exact (h.leads n k hfits hk).reads

theorem of_operand (h : ∀ n, ReadsAt n 0 e tokens) : e.Readable tokens where
  operand n _ := h n
  leads n k _ _ := (h n).leads.lift (Nat.zero_le k)
  whole n _ := ((h n).leads.lift (Nat.zero_le 5)).readsWhole

/-- a join on a tier is read on that tier and on looser ones, and it has no business on a tighter one -/
theorem join {left right : Expr} {operator : Token} {first second : List Token} {k : Nat} (hk : k < 6)
    (hop : accepts k operator.kind = true) (hl : left.fits (k + 1) = true → left.Readable first)
    (hr : right.fits k = true → right.Readable second) :
    (Level.join k left operator right).Readable (first ++ operator :: second) := by
  have hleads : ∀ n tier, (Level.join k left operator right).fits tier = true →
      LeadsAt n k (Level.join k left operator right) (first ++ operator :: second) := by
    intro n tier hfits
    obtain ⟨-, hleft, hright⟩ := (Expr.fits_join hop).1 hfits
    exact ((hl hleft).leads n k hleft hk).join hop ((hr hright).reads n hright (Nat.le_of_lt hk))
  refine ⟨?_, ?_, ?_⟩
  · intro n hfits
    exact absurd ((Expr.fits_join hop).1 hfits).1 (Nat.not_lt_zero k)
  · intro n j hfits _
    have hkj : k ≤ j := Nat.le_of_lt_succ ((Expr.fits_join hop).1 hfits).1
    exact (hleads n _ hfits).lift hkj
  · intro n hfits
    exact ((hleads n _ hfits).lift (Nat.le_of_lt_succ hk)).readsWhole

end Expr.Readable

/-- **Expressions are read back** from all tokens that spell them, by induction on the tree. -/
theorem Expr.readable (e : Expr) (tier : Nat) (hfits : e.fits tier = true) (tokens : List Token)
    (h : Spells e.spelling tokens) : e.Readable tokens := by
  induction e generalizing tier tokens with
  | literal value =>
    obtain ⟨t, rest, ht, hrest, rfl⟩ := List.forall₂_cons_left_iff.1 h
    cases hrest
    have hatom : atom? t = some (.literal value) := by
      rcases value with - | (- | -) | x | text
      · cases ht
      all_goals
        change t.kind = _ at ht
        rw [atom?, ht]
    exact .of_operand (readsAt_atom hatom)
  | unary operator operand ih =>
    obtain ⟨rest, rfl, hrest⟩ := Spells.kept_cons.1 h
    simp only [fits, Bool.and_eq_true, Bool.or_eq_true, decide_eq_true_eq] at hfits
    have hsign : isSign operator.kind = true := by
      rcases hfits.1 with hkind | hkind <;> rw [hkind] <;> rfl
    exact .of_operand (readsAt_unary hsign fun n => (ih 0 hfits.2 rest hrest).operand n hfits.2)
  | binary left operator right ihl ihr =>
    obtain ⟨k, hk, hop, hjoin⟩ := binary_eq_join hfits
    obtain ⟨first, behind, rfl, hfirst, hbehind⟩ := Spells.split h
    obtain ⟨second, rfl, hsecond⟩ := Spells.kept_cons.1 hbehind
    rw [hjoin]
    exact .join hk hop (fun hl => ihl _ hl first hfirst) fun hr => ihr _ hr second hsecond
  | logical left operator right ihl ihr =>
    obtain ⟨k, hk, hop, hjoin⟩ := logical_eq_join hfits
    obtain ⟨first, behind, rfl, hfirst, hbehind⟩ := Spells.split h
    obtain ⟨second, rfl, hsecond⟩ := Spells.kept_cons.1 hbehind
    rw [hjoin]
    exact .join hk hop (fun hl => ihl _ hl first hfirst) fun hr => ihr _ hr second hsecond
  | grouping inner ih =>
    obtain ⟨opening, behind, rfl, hopening, hbehind⟩ := Spells.any_cons.1 h
    obtain ⟨rest, last, rfl, hrest, hlast⟩ := Spells.split hbehind
    obtain ⟨closing, rfl, hclosing⟩ := Spells.any_singleton.1 hlast
    exact .of_operand (readsAt_grouping hopening hclosing fun n => (ih _ hfits rest hrest).whole n hfits)
  | var name =>
    obtain ⟨rest, rfl, hrest⟩ := Spells.kept_cons.1 h
    cases hrest
    have hatom : atom? name = some (.var name) := by
      rw [atom?, show name.kind = .identifier by simpa [fits] using hfits]
    exact .of_operand (readsAt_atom hatom)
  | assign name value ih =>
    obtain ⟨behind, rfl, hbehind⟩ := Spells.kept_cons.1 h
    obtain ⟨equals, rest, rfl, hequals, hrest⟩ := Spells.any_cons.1 hbehind
    simp only [fits, Bool.and_eq_true, decide_eq_true_eq] at hfits
    -- an assignment has no business on a tier of operators
    refine ⟨?_, ?_, ?_⟩
    · intro n h0
      simp [fits, assignmentTier] at h0
    · intro n k hk hk6
      simp only [fits, Bool.and_eq_true, decide_eq_true_eq] at hk
      have htier : 7 ≤ k + 1 := hk.1.1
      omega
    · intro n _
      exact readsWhole_assign hfits.1.2 hequals (fun m => (ih _ hfits.2 rest hrest).whole m hfits.2) n

/-- an expression that is closed by the token behind it -/
theorem expression_run {e : Expr} {tokens : List Token} (hfits : e.fits assignmentTier = true)
    (h : Spells e.spelling tokens) {t : Token} (ht : t.kind = .rightParen ∨ t.kind = .semicolon) (rest : List Token)
    (n : Nat) :
    ((withRoom n).expression.run (tokens ++ t :: rest)).Becomes (e.nesting + 1 ≤ n) (.done e (t :: rest) []) :=
  becomes_nested Level.assignment rfl fun m _ =>
    (e.readable _ hfits tokens h).whole m hfits _ (closesExpr_of_kind ht rest)

/-! ## First tokens -/

def TokenKind.beginsExpr : TokenKind → Bool
  | .bang | .minus | .leftParen | .identifier | .string _ | .number _ | .kwTrue | .kwFalse => true
  | _ => false

theorem Expr.first_token {e : Expr} {tier : Nat} (hfits : e.fits tier = true) {tokens : List Token}
    (h : Spells e.spelling tokens) : ∃ t rest, tokens = t :: rest ∧ t.kind.beginsExpr = true := by
  induction e generalizing tier tokens with
  | literal value =>
    obtain ⟨t, rest, ht, -, rfl⟩ := List.forall₂_cons_left_iff.1 h
    refine ⟨t, rest, rfl, ?_⟩
    rcases value with - | (- | -) | x | text
    · cases ht
    all_goals
      change t.kind = _ at ht
      rw [ht]
      rfl
  | unary operator operand ih =>
    obtain ⟨rest, rfl, -⟩ := Spells.kept_cons.1 h
    simp only [fits, Bool.and_eq_true, Bool.or_eq_true, decide_eq_true_eq] at hfits
    refine ⟨operator, rest, rfl, ?_⟩
    rcases hfits.1 with hkind | hkind <;> rw [hkind] <;> rfl
  | binary left operator right ihl ihr =>
    obtain ⟨k, -, -, hl, -⟩ := fits_binary.1 hfits
    obtain ⟨first, second, rfl, hfirst, -⟩ := Spells.split h
    obtain ⟨t, rest, rfl, ht⟩ := ihl hl hfirst
    exact ⟨t, rest ++ second, rfl, ht⟩
  | logical left operator right ihl ihr =>
    obtain ⟨k, -, -, hl, -⟩ := fits_logical.1 hfits
    obtain ⟨first, second, rfl, hfirst, -⟩ := Spells.split h
    obtain ⟨t, rest, rfl, ht⟩ := ihl hl hfirst
    exact ⟨t, rest ++ second, rfl, ht⟩
  | grouping inner ih =>
    obtain ⟨t, rest, rfl, ht, -⟩ := Spells.any_cons.1 h
    exact ⟨t, rest, rfl, by rw [ht]; rfl⟩
  | var name =>
    obtain ⟨rest, rfl, -⟩ := Spells.kept_cons.1 h
    have hname : name.kind = .identifier := by simpa [fits] using hfits
    exact ⟨name, rest, rfl, by rw [hname]; rfl⟩
  | assign name value ih =>
    obtain ⟨rest, rfl, -⟩ := Spells.kept_cons.1 h
    simp only [fits, Bool.and_eq_true, decide_eq_true_eq] at hfits
    exact ⟨name, rest, rfl, by rw [hfits.1.2]; rfl⟩

/-- a statement begins neither with `else` nor with a closing brace, and only a declaration begins with `var` -/
theorem Stmt.first_token {s : Stmt} (hs : s.canonical = true) {tokens : List Token} (h : Spells s.spelling tokens) :
    ∃ t rest, tokens = t :: rest ∧ t.kind ≠ .kwElse ∧ t.kind ≠ .rightBrace ∧
      (s.isDeclaration = false → t.kind ≠ .kwVar) := by
  have hkeyword : ∀ (kind : TokenKind) (marks : List Mark), Spells (.any kind :: marks) tokens →
      kind ≠ .kwElse ∧ kind ≠ .rightBrace ∧ (s.isDeclaration = false → kind ≠ .kwVar) →
      ∃ t rest, tokens = t :: rest ∧ t.kind ≠ .kwElse ∧ t.kind ≠ .rightBrace ∧
        (s.isDeclaration = false → t.kind ≠ .kwVar) := by
    intro kind marks hmarks hkind
    obtain ⟨t, rest, rfl, rfl, -⟩ := Spells.any_cons.1 hmarks
    exact ⟨t, rest, rfl, hkind⟩
  match s with
  | .expression e =>
    obtain ⟨first, second, rfl, hfirst, -⟩ := Spells.split h
    obtain ⟨t, rest, rfl, ht⟩ := Expr.first_token hs hfirst
    have hother : ∀ kind : TokenKind, kind.beginsExpr = false → t.kind ≠ kind := by
      rintro kind hkind rfl
      exact Bool.false_ne_true (hkind.symm.trans ht)
    exact ⟨t, rest ++ second, rfl, hother _ rfl, hother _ rfl, fun _ => hother _ rfl⟩
  | .print e => exact hkeyword .kwPrint _ h ⟨by decide, by decide, fun _ => by decide⟩
  | .declare name none => exact hkeyword .kwVar _ h ⟨by decide, by decide, nofun⟩
  | .declare name (some e) => exact hkeyword .kwVar _ h ⟨by decide, by decide, nofun⟩
  | .assign name value => cases hs
  | .block body => exact hkeyword .leftBrace _ h ⟨by decide, by decide, fun _ => by decide⟩
  | .branch condition yes no => exact hkeyword .kwIf _ h ⟨by decide, by decide, fun _ => by decide⟩
  | .skip => cases hs

/-! ## Statements -/

def NoElse (rest : List Token) : Prop := ∀ t ∈ rest.head?, t.kind ≠ .kwElse

/-- with room for `n` levels, every canonical statement that is no declaration is read back -/
def CommandsAt (n : Nat) : Prop :=
  ∀ s tokens rest, s.canonical = true → s.isDeclaration = false → Spells s.spelling tokens →
    (s.endsOpen = true → NoElse rest) →
    ((withRoom n).command.run (tokens ++ rest)).Becomes (s.nesting ≤ n) (.done s rest [])

/-- with room for `n` levels, every canonical statement is read back -/
def DeclaresAt (n : Nat) : Prop :=
  ∀ s tokens rest, s.canonical = true → Spells s.spelling tokens → (s.endsOpen = true → NoElse rest) →
    ((withRoom n).declared.run (tokens ++ rest)).Becomes (s.nesting ≤ n) (.done s rest [])

/-- neither a statement nor what follows behind the last one begins with `else` -/
theorem noElse_append {body : List Stmt} (hbody : Stmt.canonicalAll body = true) {tokens rest : List Token}
    (h : Spells (Stmt.spellingAll body) tokens) (hrest : NoElse rest) : NoElse (tokens ++ rest) := by
  cases body with
  | nil =>
    cases h
    exact hrest
  | cons s later =>
    simp only [Stmt.canonicalAll, Bool.and_eq_true] at hbody
    obtain ⟨first, second, rfl, hfirst, -⟩ := Spells.split h
    obtain ⟨t, behind, rfl, ht, -⟩ := Stmt.first_token hbody.1 hfirst
    rintro u ⟨⟩
    exact ht

/-- statements in a row are read back one by one -/
theorem DeclaresAt.sequence {n : Nat} (hn : DeclaresAt n) {closes : TokenKind → Bool}
    (hcloses : ∀ kind, closes kind = true → kind = .rightBrace) {body : List Stmt}
    (hbody : Stmt.canonicalAll body = true) {tokens rest : List Token} (h : Spells (Stmt.spellingAll body) tokens)
    (hrest : ∀ t ∈ rest.head?, closes t.kind = true) :
    (Scriptlet.sequence (withRoom n).declared closes (tokens ++ rest)).Becomes
      (Stmt.nestingAll body ≤ n) body rest := by
  induction body generalizing tokens with
  | nil =>
    cases h
    exact ⟨fun _ => sequence_closed hrest, fun hn => absurd (Nat.zero_le n) hn⟩
  | cons s later ih =>
    simp only [Stmt.canonicalAll, Bool.and_eq_true] at hbody
    obtain ⟨first, second, rfl, hfirst, hsecond⟩ := Spells.split h
    have helse : NoElse rest := fun t ht hbad => by
      have hbrace := hcloses _ (hrest t ht)
      rw [hbad] at hbrace
      cases hbrace
    have hs := hn s first (second ++ rest) hbody.1 hfirst fun _ => noElse_append hbody.2 hsecond helse
    obtain ⟨t, behind, rfl, -, hbrace, -⟩ := Stmt.first_token hbody.1 hfirst
    have hopen : closes t.kind = false := by
      by_contra hbad
      exact hbrace (hcloses _ (by simpa using hbad))
    have hall := sequence_cons hopen hs (ih hbody.2 hsecond)
    rw [List.append_assoc, Stmt.nestingAll, Nat.max_le]
    exact hall

theorem run_bare {t : Token} (ht : t.kind.beginsExpr = true) (inside : Level) (behind : List Token) :
    inside.command.run (t :: behind) = inside.bare.run (t :: behind) := by
  have hother : ∀ kind : TokenKind, kind.beginsExpr = false → decide (t.kind = kind) = false := by
    intro kind hkind
    refine decide_eq_false fun hbad => ?_
    rw [hbad, hkind] at ht
    cases ht
  have hreserved : isReserved t.kind = false := by
    unfold isReserved
    split <;> rename_i hkind <;> first | (rw [hkind] at ht; cases ht) | rfl
  rw [command, Rule.run_after_no (hother .kwIf rfl), Rule.run_after_no (hother .kwPrint rfl),
    Rule.run_after_no (hother .leftBrace rfl), Rule.run_refuse_no hreserved]

/-- a conditional is read as its condition and then its branches are -/
theorem becomes_conditional {inside : Level} {condition : Expr} {opening closing : Token}
    {first second rest : List Token} {s : Stmt} {fits fits' : Prop}
    (hopening : opening.kind = .leftParen) (hclosing : closing.kind = .rightParen)
    (hcondition : (inside.expression.run (first ++ closing :: second)).Becomes fits
      (.done condition (closing :: second) []))
    (hbranches : ((inside.statement.followed (· = .kwElse) (fun yes _ => inside.statement.map (.branch condition yes))
      (fun yes => .branch condition yes .skip)).run second).Becomes fits' (.done s rest [])) :
    (inside.conditional.run (opening :: (first ++ closing :: second))).Becomes (fits ∧ fits') (.done s rest []) := by
  have hrun : ((inside.expression.left (.expect .rightParen .expectParenAfterCondition)).run
    (first ++ closing :: second)).Becomes fits (.done condition second []) := Rule.becomes_left hcondition hclosing
  simpa [conditional, Rule.right, Rule.bind, Rule.run_expect hopening] using hrun.andThen hbranches

/-- a branch is read by the level inside -/
theorem statement_run {n : Nat} (hcommands : ∀ m, n = m + 1 → CommandsAt m) {s : Stmt} (hs : s.canonical = true)
    (hplain : s.isDeclaration = false) {tokens rest : List Token} (h : Spells s.spelling tokens)
    (hopen : s.endsOpen = true → NoElse rest) :
    ((withRoom n).statement.run (tokens ++ rest)).Becomes (s.nesting + 1 ≤ n) (.done s rest []) :=
  becomes_nested Level.statement rfl fun m hm => hcommands m hm s tokens rest hs hplain h hopen

/-- One level more: branches and blocks are read by the level inside. -/
theorem commandsAt_of_inside {n : Nat} (hcommands : ∀ m, n = m + 1 → CommandsAt m)
    (hdeclares : ∀ m, n = m + 1 → DeclaresAt m) : CommandsAt n := by
  intro s tokens rest hs hplain h hopen
  match s with
  | .expression e =>
    obtain ⟨first, last, rfl, hfirst, hlast⟩ := Spells.split h
    obtain ⟨semicolon, rfl, hsemicolon⟩ := Spells.any_singleton.1 hlast
    have he := expression_run hs hfirst (.inr hsemicolon) rest n
    obtain ⟨t, behind, rfl, ht⟩ := Expr.first_token hs hfirst
    rw [List.append_assoc, List.cons_append, List.cons_append, run_bare ht]
    exact Rule.becomes_map (Rule.becomes_left he hsemicolon)
  | .print e =>
    obtain ⟨keyword, behind, rfl, hkeyword, hbehind⟩ := Spells.any_cons.1 h
    obtain ⟨first, last, rfl, hfirst, hlast⟩ := Spells.split hbehind
    obtain ⟨semicolon, rfl, hsemicolon⟩ := Spells.any_singleton.1 hlast
    rw [List.cons_append, List.append_assoc, command, Rule.run_after_no (by rw [hkeyword]; rfl),
      Rule.run_after_yes (by rw [hkeyword]; rfl)]
    exact Rule.becomes_map (Rule.becomes_left (expression_run hs hfirst (.inr hsemicolon) rest n) hsemicolon)
  | .declare name initial => cases hplain
  | .assign name value => cases hs
  | .block body =>
    obtain ⟨opening, behind, rfl, hopening, hbehind⟩ := Spells.any_cons.1 h
    obtain ⟨first, last, rfl, hfirst, hlast⟩ := Spells.split hbehind
    obtain ⟨closing, rfl, hclosing⟩ := Spells.any_singleton.1 hlast
    rw [List.cons_append, List.append_assoc, command, Rule.run_after_no (by rw [hopening]; rfl),
      Rule.run_after_no (by rw [hopening]; rfl), Rule.run_after_yes (by rw [hopening]; rfl)]
    refine Rule.becomes_map (becomes_nested Level.block rfl fun m hm => becomes_block ?_ hclosing)
    refine (hdeclares m hm).sequence (fun kind hkind => of_decide_eq_true hkind) hs hfirst fun t ht => ?_
    cases ht
    exact decide_eq_true hclosing
  | .branch condition yes no =>
    simp only [Stmt.canonical, Bool.and_eq_true, Bool.or_eq_true, Bool.not_eq_true'] at hs
    obtain ⟨⟨hfits, hyes, hyesPlain⟩, hno⟩ := hs
    obtain ⟨keyword, behind, rfl, hkeyword, hbehind⟩ := Spells.any_cons.1 h
    obtain ⟨opening, behind, rfl, hopening, hbehind⟩ := Spells.any_cons.1 hbehind
    obtain ⟨first, behind, rfl, hfirst, hbehind⟩ := Spells.split hbehind
    obtain ⟨closing, behind, rfl, hclosing, hbehind⟩ := Spells.any_cons.1 hbehind
    obtain ⟨second, third, rfl, hsecond, hthird⟩ := Spells.split hbehind
    rw [List.cons_append, command, Rule.run_after_yes (by rw [hkeyword]; rfl), List.cons_append, List.append_assoc,
      List.cons_append, List.append_assoc]
    have hcondition := expression_run hfits hfirst (.inl hclosing) (second ++ (third ++ rest)) n
    cases hskip : no.isSkip with
    | true =>
      obtain rfl : no = .skip := by
        cases no <;> first | rfl | cases hskip
      cases hthird
      have hthen := statement_run hcommands hyes hyesPlain hsecond fun _ => hopen rfl
      have hrest : ∀ t ∈ rest.head?, decide (t.kind = .kwElse) = false := fun t ht => decide_eq_false (hopen rfl t ht)
      refine (becomes_conditional hopening hclosing hcondition (Rule.becomes_plain hthen hrest)).congr ?_
      simp only [Stmt.nesting]
      omega
    | false =>
      rw [hskip, if_neg Bool.false_ne_true] at hthird
      obtain ⟨⟨hno, hnoPlain⟩, hclosed⟩ := hno.resolve_left (by simp [hskip])
      obtain ⟨mark, fourth, rfl, hmark, hfourth⟩ := Spells.any_cons.1 hthird
      have hfree : yes.endsOpen = true → NoElse (mark :: (fourth ++ rest)) :=
        fun hbad => absurd (hclosed.symm.trans hbad) Bool.false_ne_true
      have hthen := statement_run hcommands hyes hyesPlain hsecond hfree
      have helse := statement_run hcommands hno hnoPlain hfourth fun hbad => hopen (by simp [Stmt.endsOpen, hbad])
      refine (becomes_conditional hopening hclosing hcondition
        (Rule.becomes_followed hthen (decide_eq_true hmark) (Rule.becomes_map helse))).congr ?_
      simp only [Stmt.nesting]
      omega
  | .skip => cases hs

theorem name_run {name : Token} (h : name.kind = .identifier) (rest : List Token) (n : Nat) :
    ((Rule.expect .identifier .expectName).run (name :: rest)).Becomes (0 ≤ n) (.done name rest []) :=
  Rule.run_expect h ▸ .refl (Nat.zero_le n) _

theorem declaresAt_of_commandsAt {n : Nat} (hn : CommandsAt n) : DeclaresAt n := by
  intro s tokens rest hs h hopen
  cases hplain : s.isDeclaration with
  | false =>
    have hrun := hn s tokens rest hs hplain h hopen
    obtain ⟨t, behind, rfl, -, -, hvar⟩ := Stmt.first_token hs h
    rwa [List.cons_append, declared, Rule.run_after_no (decide_eq_false (hvar hplain))]
  | true =>
    match s with
    | .declare name none =>
      obtain ⟨keyword, behind, rfl, hkeyword, hbehind⟩ := Spells.any_cons.1 h
      obtain ⟨last, rfl, hlast⟩ := Spells.kept_cons.1 hbehind
      obtain ⟨semicolon, rfl, hsemicolon⟩ := Spells.any_singleton.1 hlast
      have hname : name.kind = .identifier := by simpa [Stmt.canonical] using hs
      have hfree : ∀ t ∈ (semicolon :: rest).head?, decide (t.kind = .equal) = false := by simp [hsemicolon]
      rw [List.cons_append, declared, Rule.run_after_yes (decide_eq_true hkeyword)]
      exact Rule.becomes_left (Rule.becomes_plain (name_run hname _ n) hfree) hsemicolon
    | .declare name (some e) =>
      obtain ⟨keyword, behind, rfl, hkeyword, hbehind⟩ := Spells.any_cons.1 h
      obtain ⟨initial, rfl, hinitial⟩ := Spells.kept_cons.1 hbehind
      obtain ⟨equals, value, rfl, hequals, hvalue⟩ := Spells.any_cons.1 hinitial
      obtain ⟨first, last, rfl, hfirst, hlast⟩ := Spells.split hvalue
      obtain ⟨semicolon, rfl, hsemicolon⟩ := Spells.any_singleton.1 hlast
      simp only [Stmt.canonical, Bool.and_eq_true, decide_eq_true_eq] at hs
      have he := expression_run hs.2 hfirst (.inr hsemicolon) rest n
      rw [List.cons_append, declared, Rule.run_after_yes (decide_eq_true hkeyword), List.cons_append, List.cons_append,
        List.append_assoc]
      refine .congr (Rule.becomes_left ?_ hsemicolon) (and_iff_right (Nat.zero_le n))
      exact Rule.becomes_followed (name_run hs.1 _ n) (decide_eq_true hequals) (Rule.becomes_map he)

theorem commandsAt (n : Nat) : CommandsAt n := by
  induction n with
  | zero => exact commandsAt_of_inside nofun nofun
  | succ n ih =>
    refine commandsAt_of_inside (fun m hm => ?_) fun m hm => ?_ <;> cases hm
    · exact ih
    · exact declaresAt_of_commandsAt ih

/-! ## Programs -/

/-- A program is read back from every text that spells it, if it keeps to the nesting limit; otherwise too much nesting
is the first fault. -/
theorem Parsing.sequence_spelled {program : Program} (hprogram : Stmt.canonicalAll program = true) {tokens : List Token}
    (h : Spells (Stmt.spellingAll program) tokens) :
    (sequence outermost.declaration (fun _ => false) tokens).Becomes
      (Stmt.nestingAll program ≤ maxNesting) program [] := by
  have hrun : (sequence (withRoom maxNesting).declared (fun _ => false) (tokens ++ [])).Becomes
    (Stmt.nestingAll program ≤ maxNesting) program [] :=
    (declaresAt_of_commandsAt (commandsAt maxNesting)).sequence (by simp) hprogram h (by simp)
  rwa [List.append_nil] at hrun

end Scriptlet
