/-
Readings that succeed up to a depth. `o.Becomes fits o'` says that the outcome `o` is `o'` if `fits` holds, and that
otherwise the first fault of `o` is too much nesting, whether `o` recovered from it or not. Faults are only ever added
behind the ones reported before, so the first fault stays the first one through every way of composing rules: what
follows behind a construct that nests too deep does not matter any more.

- `Outcome.Becomes.andThen`: two readings in turn fit if both fit.
- `Level.becomes_nested`: one level deeper, there is room for one level less.
-/
import Scriptlet.Grammar.Level

namespace Scriptlet

/-- too much nesting is the first fault -/
def TooDeep (faults : List Fault) : Prop := ∃ unread later, faults = ⟨.tooMuchNesting, unread⟩ :: later

theorem TooDeep.append {faults : List Fault} (h : TooDeep faults) (more : List Fault) : TooDeep (faults ++ more) := by
  obtain ⟨unread, later, rfl⟩ := h
  exact ⟨unread, later ++ more, rfl⟩

variable {α β : Type}

namespace Outcome

/-- all faults of a reading, in the order in which they arose -/
def faults : Outcome α → List Fault
  | .done _ _ reported => reported
  | .failed fault reported => reported ++ [fault]

theorem faults_preceded (earlier : List Fault) (o : Outcome α) : (o.preceded earlier).faults = earlier ++ o.faults := by
  cases o with
  | done value rest reported => rfl
  | failed fault reported => exact List.append_assoc _ _ _

theorem faults_andThen (o : Outcome α) (next : α → List Token → Outcome β) :
    ∃ later, (o.andThen next).faults = o.faults ++ later := by
  cases o with
  | done value rest reported => exact ⟨_, faults_preceded reported (next value rest)⟩
  | failed fault reported => exact ⟨[], (List.append_nil _).symm⟩

@[simp] theorem preceded_nil (o : Outcome α) : o.preceded [] = o := by
  cases o <;> rfl

@[simp] theorem andThen_done (value : α) (rest : List Token) (next : α → List Token → Outcome β) :
    (Outcome.done value rest []).andThen next = next value rest :=
  preceded_nil _

/-- the outcome is `o'` if `fits`, and otherwise its first fault is too much nesting -/
structure Becomes (o : Outcome α) (fits : Prop) (o' : Outcome α) : Prop where
  well : fits → o = o'
  deep : ¬ fits → TooDeep o.faults

namespace Becomes

theorem refl {fits : Prop} (h : fits) (o : Outcome α) : o.Becomes fits o := ⟨fun _ => rfl, fun hn => absurd h hn⟩

theorem congr {o o' : Outcome α} {fits fits' : Prop} (h : o.Becomes fits o') (hfits : fits ↔ fits') :
    o.Becomes fits' o' := by
  rwa [← propext hfits]

theorem trans {o o' o'' : Outcome α} {fits fits' : Prop} (h : o.Becomes fits o') (h' : o'.Becomes fits' o'') :
    o.Becomes (fits ∧ fits') o'' := by
  constructor
  · rintro ⟨hf, hf'⟩
    exact (h.well hf).trans (h'.well hf')
  · intro hn
    by_cases hf : fits
    · have hn' : ¬ fits' := fun hf' => hn ⟨hf, hf'⟩
      rw [h.well hf]
      exact h'.deep hn'
    · exact h.deep hf

theorem andThen {o : Outcome α} {value : α} {rest : List Token} {fits fits' : Prop}
    {next : α → List Token → Outcome β} {o' : Outcome β} (h : o.Becomes fits (.done value rest []))
    (hnext : (next value rest).Becomes fits' o') : (o.andThen next).Becomes (fits ∧ fits') o' := by
  have hfirst : (o.andThen next).Becomes fits (next value rest) := by
    constructor
    · intro hf
      rw [h.well hf, andThen_done]
    · intro hn
      obtain ⟨later, hlater⟩ := faults_andThen o next
      rw [hlater]
      exact (h.deep hn).append later
  exact hfirst.trans hnext

/-- what is certain to follow does not change what fits -/
theorem andThen_eq {o : Outcome α} {value : α} {rest : List Token} {fits : Prop} {next : α → List Token → Outcome β}
    {o' : Outcome β} (h : o.Becomes fits (.done value rest [])) (hnext : next value rest = o') :
    (o.andThen next).Becomes fits o' := by
  have hall : (o.andThen next).Becomes (fits ∧ True) o' := h.andThen (hnext ▸ refl trivial _)
  rwa [and_true] at hall

end Becomes

end Outcome

/-! ## Rules -/

namespace Rule

theorem run_expect {kind : TokenKind} {cause : Cause} {t : Token} {rest : List Token} (h : t.kind = kind) :
    (expect kind cause).run (t :: rest) = .done t rest [] := by
  simp [expect, atom, h]

/-- a rule, and then the token that must stand behind it -/
theorem becomes_left {a : Rule α} {kind : TokenKind} {cause : Cause} {tokens rest : List Token} {t : Token} {value : α}
    {fits : Prop} (h : (a.run tokens).Becomes fits (.done value (t :: rest) [])) (ht : t.kind = kind) :
    ((a.left (expect kind cause)).run tokens).Becomes fits (.done value rest []) := by
  refine h.andThen_eq ?_
  simp [map, conclude, run_expect ht]

theorem becomes_map {a : Rule α} {f : α → β} {tokens rest : List Token} {value : α} {fits : Prop}
    (h : (a.run tokens).Becomes fits (.done value rest [])) :
    ((a.map f).run tokens).Becomes fits (.done (f value) rest []) :=
  h.andThen_eq rfl

theorem run_after_yes {p : TokenKind → Bool} {yes : Token → Rule α} {no : Rule α} {t : Token} {rest : List Token}
    (h : p t.kind = true) : (after p yes no).run (t :: rest) = (yes t).run rest := by
  simp [after, h]

theorem run_after_no {p : TokenKind → Bool} {yes : Token → Rule α} {no : Rule α} {t : Token} {rest : List Token}
    (h : p t.kind = false) : (after p yes no).run (t :: rest) = no.run (t :: rest) := by
  simp [after, h]

theorem run_refuse_no {p : TokenKind → Bool} {cause : Token → Cause} {otherwise : Rule α} {t : Token}
    {rest : List Token} (h : p t.kind = false) :
    (refuse p cause otherwise).run (t :: rest) = otherwise.run (t :: rest) := by
  simp [refuse, h]

/-- a rule behind which something follows -/
theorem becomes_followed {a : Rule α} {p : TokenKind → Bool} {more : α → List Token → Rule β} {plain : α → β}
    {tokens behind : List Token} {t : Token} {value : α} {fits fits' : Prop} {o : Outcome β}
    (h : (a.run tokens).Becomes fits (.done value (t :: behind) [])) (ht : p t.kind = true)
    (hmore : ((more value (t :: behind)).run behind).Becomes fits' o) :
    ((a.followed p more plain).run tokens).Becomes (fits ∧ fits') o := by
  refine h.andThen ?_
  simpa [ht] using hmore

/-- a rule behind which nothing follows -/
theorem becomes_plain {a : Rule α} {p : TokenKind → Bool} {more : α → List Token → Rule β} {plain : α → β}
    {tokens rest : List Token} {value : α} {fits : Prop}
    (h : (a.run tokens).Becomes fits (.done value rest [])) (hrest : ∀ t ∈ rest.head?, p t.kind = false) :
    ((a.followed p more plain).run tokens).Becomes fits (.done (plain value) rest []) := by
  refine h.andThen_eq ?_
  cases rest with
  | nil => rfl
  | cons t behind => simp [hrest t rfl]

theorem chainFrom_stop {operand : Rule Expr} {p : TokenKind → Bool} {join : Expr → Token → Expr → Expr} {left : Expr}
    {rest : List Token} (h : ∀ t ∈ rest.head?, p t.kind = false) :
    chainFrom operand p join left rest = .done left rest [] := by
  cases rest with
  | nil => rw [chainFrom]
  | cons t behind => rw [chainFrom]; simp [h t rfl]

theorem chainFrom_step {operand : Rule Expr} {p : TokenKind → Bool} {join : Expr → Token → Expr → Expr} {left : Expr}
    {operator : Token} {behind : List Token} (h : p operator.kind = true) :
    chainFrom operand p join left (operator :: behind) =
      (operand.run behind).andThen fun right rest => chainFrom operand p join (join left operator right) rest := by
  rw [chainFrom, if_pos h]
  split
  · rename_i right rest reported hright
    rw [hright]
    rfl
  · rename_i fault reported hright
    rw [hright]
    rfl

end Rule

/-! ## Sequences -/

/-- the sequence is `statements` without a fault if `fits`, and otherwise its first fault is too much nesting -/
structure Sequence.Becomes (q : Sequence) (fits : Prop) (statements : List Stmt) (rest : List Token) : Prop where
  well : fits → q = ⟨statements, rest, []⟩
  deep : ¬ fits → TooDeep q.faults

section Sequences

variable {statement : Rule Stmt} {closes : TokenKind → Bool} {t : Token} {s : Stmt} {later : List Stmt}
  {behind mid rest : List Token} {fits fits' : Prop}

theorem sequence_closed (h : ∀ t ∈ rest.head?, closes t.kind = true) :
    sequence statement closes rest = ⟨[], rest, []⟩ := by
  cases rest with
  | nil => rw [sequence]
  | cons t behind => rw [sequence, if_pos (h t rfl)]

theorem sequence_done (ht : closes t.kind = false) (h : statement.run (t :: behind) = .done s mid []) :
    sequence statement closes (t :: behind) = ⟨s :: (sequence statement closes mid).statements,
      (sequence statement closes mid).rest, (sequence statement closes mid).faults⟩ := by
  rw [sequence, if_neg (by simp [ht])]
  split
  · rename_i s' rest' reported h'
    cases h.symm.trans h'
    rfl
  · rename_i fault reported h'
    cases h.symm.trans h'

/-- the faults of a statement come before those of the statements behind it -/
theorem sequence_faults (ht : closes t.kind = false) :
    ∃ more, (sequence statement closes (t :: behind)).faults = (statement.run (t :: behind)).faults ++ more := by
  rw [sequence, if_neg (by simp [ht])]
  split
  · rename_i s rest reported h
    rw [h]
    exact ⟨_, rfl⟩
  · rename_i fault reported h
    rw [h]
    exact ⟨(sequence statement closes (synchronize fault.unread)).faults, by simp [Outcome.faults]⟩

/-- a statement and the statements behind it fit if both fit -/
theorem sequence_cons (ht : closes t.kind = false) (hs : (statement.run (t :: behind)).Becomes fits (.done s mid []))
    (hlater : (sequence statement closes mid).Becomes fits' later rest) :
    (sequence statement closes (t :: behind)).Becomes (fits ∧ fits') (s :: later) rest := by
  by_cases hf : fits
  · have hstep := sequence_done ht (hs.well hf)
    constructor
    · rintro ⟨-, hf'⟩
      rw [hstep, hlater.well hf']
    · intro hn
      have hn' : ¬ fits' := fun hf' => hn ⟨hf, hf'⟩
      rw [hstep]
      exact hlater.deep hn'
  · constructor
    · rintro ⟨hf', -⟩
      exact absurd hf' hf
    · intro _
      obtain ⟨more, hmore⟩ : ∃ more, (sequence statement closes (t :: behind)).faults =
        (statement.run (t :: behind)).faults ++ more := sequence_faults ht
      rw [hmore]
      exact (hs.deep hf).append more

/-- a block is read as its statements are, up to its closing brace -/
theorem becomes_block (hbody : (sequence statement (· = .rightBrace) behind).Becomes fits later (t :: rest))
    (ht : t.kind = .rightBrace) : ((Rule.block statement).run behind).Becomes fits (.done later rest []) := by
  constructor
  · intro hf
    simp [Rule.block, hbody.well hf, Rule.map, Rule.conclude, Rule.run_expect ht]
  · intro hn
    rw [Rule.block, Outcome.faults_preceded]
    exact (hbody.deep hn).append _

end Sequences

/-! ## Levels -/

/-- One level deeper, there is room for one level less. -/
theorem Level.becomes_nested (rule : Level → Rule α) (hfail : rule .exhausted = .fail .tooMuchNesting) {n depth : Nat}
    {tokens : List Token} {o : Outcome α}
    (h : ∀ m, n = m + 1 → ((rule (withRoom m).enclosing).run tokens).Becomes (depth ≤ m) o) :
    ((rule (withRoom n)).run tokens).Becomes (depth + 1 ≤ n) o := by
  cases n with
  | zero =>
    have hfaults : ((rule (withRoom 0)).run tokens).faults = [⟨.tooMuchNesting, tokens⟩] := by
      rw [withRoom, hfail]
      rfl
    constructor
    · intro hle
      exact absurd hle (Nat.not_succ_le_zero depth)
    · intro _
      exact ⟨tokens, [], hfaults⟩
  | succ n => exact (h n rfl).congr Nat.succ_le_succ_iff.symm

end Scriptlet
