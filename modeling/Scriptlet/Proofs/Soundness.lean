/-
Soundness of the grammar: what is read without a complaint is what stands in the text.

A tree that a rule hands over without a report is spelled by exactly the tokens that the rule has taken. For the rules
of one level this follows from the same fact about the rules of the level inside (`Level.Sound.enclosing`), and the
innermost level reads nothing; so it holds of every level (`Level.sound_withRoom`). That the tree is canonical and keeps
to the nesting limit is so whatever is reported, and is taken from `Level.forms_withRoom`. Both together are said of a
whole text by `Parsing.read_of_silent`.

- `Level.sound_withRoom`: the rules of every level.
- `Parsing.read_of_silent`: whole texts.
-/
import Scriptlet.Proofs.Postcondition
import Scriptlet.Proofs.Recovery

namespace Scriptlet

/-- what holds of every value of a rule holds of those that come without a report -/
theorem Rule.Ensures.also {α : Type} {a : Rule α} {P : α → List Token → List Token → Prop} {Q : α → List Token → Prop}
    (ha : a.Ensures P) (hyields : a.Yields Q) : a.Ensures fun value read rest => P value read rest ∧ Q value rest := by
  intro tokens value rest hrun
  obtain ⟨read, hread, hP⟩ := ha _ _ _ hrun
  exact ⟨read, hread, hP, hyields _ _ _ _ hrun⟩

/-- the statements are canonical, nest less deep than `room`, and are what the tokens spell -/
structure Stmt.AllReadFrom (body : List Stmt) (room : Nat) (read : List Token) : Prop where
  canonical : Stmt.canonicalAll body = true
  nesting : Stmt.nestingAll body < room
  spelled : Spells (Stmt.spellingAll body) read

/-- what the rules of a level read is what their values spell -/
structure Level.Sound (level : Level) : Prop where
  assignment : level.assignment.Ensures fun e read _ => Spells e.spelling read
  unary : level.unary.Ensures fun e read _ => Spells e.spelling read
  statement : level.statement.Ensures fun s read _ => Spells s.spelling read
  declaration : level.declaration.Ensures fun s read _ => Spells s.spelling read
  block : level.block.Ensures fun body read _ => ∃ first t, read = first ++ [t] ∧ t.kind = .rightBrace ∧
    Spells (Stmt.spellingAll body) first

namespace Level

theorem atom?_spelled {t : Token} {e : Expr} (h : atom? t = some e) : Spells e.spelling [t] := by
  unfold atom? at h
  split at h <;> cases h <;> rename_i hkind
  · exact .cons hkind .nil
  · exact .cons hkind .nil
  · exact .cons hkind .nil
  · exact .cons hkind .nil
  · exact .cons rfl .nil

namespace Sound

variable {inside : Level} {n : Nat} (h : inside.Sound)

include h

/-! ## Expressions -/

/-- an expression and the token behind it, which closes it -/
theorem closedBy {kind : TokenKind} {cause : Cause} : (inside.expression.left (.expect kind cause)).Ensures
    fun e read _ => Spells (e.spelling ++ [.any kind]) read :=
  h.assignment.left_expect fun _ _ _ _ he hclose => he.append (.cons hclose .nil)

theorem primary : inside.primary.Ensures fun e read _ => Spells e.spelling read := by
  refine Rule.ensures_atom (fun t e rest => atom?_spelled) (.after ?_ (Rule.ensures_fail _))
  intro t ht
  have hopen : t.kind = .leftParen := of_decide_eq_true ht
  exact .map (h.closedBy.imp fun e read rest he => .cons hopen he)

theorem signed : inside.signed.Ensures fun e read _ => Spells e.spelling read := by
  refine .after ?_ h.primary
  intro t _
  exact .map (h.unary.imp fun e read rest he => .cons rfl he)

/-- each tier is a chain over the tier below -/
theorem tier (k : Nat) : (inside.tier k).Ensures fun e read _ => Spells e.spelling read := by
  induction k with
  | zero => exact h.signed
  | succ k ih =>
    refine ih.chain (J := fun e read => Spells e.spelling read) (fun _ _ he => he) ?_
    intro left first operator right second hl _ hr
    rw [Expr.spelling_join]
    exact hl.append (.cons rfl hr)

theorem assigning : inside.assigning.Ensures fun e read _ => Spells e.spelling read := by
  have hdisjunction := h.tier 6
  rw [← disjunction_eq_tier] at hdisjunction
  refine hdisjunction.followed (fun target first t here ht => .conclude ?_) fun _ _ _ _ he => he
  refine h.assignment.imp fun value second rest hvalue hsilent htarget => ?_
  -- only a name is a target without a report
  cases target with
  | var name =>
    have hequal : t.kind = .equal := of_decide_eq_true ht
    obtain ⟨_, rfl, hnil⟩ := Spells.kept_cons.1 htarget
    cases hnil
    exact .cons rfl (.cons hequal hvalue)
  | _ => cases hsilent

/-! ## Statements -/

/-- a branch behind `else` is not missing, as it is canonical -/
theorem conditional (hforms : inside.Forms n) (t : Token) (ht : t.kind = .kwIf) :
    inside.conditional.Ensures fun s read _ => Spells s.spelling (t :: read) := by
  refine .expect_right fun paren hparen => h.closedBy.bind fun condition read => ?_
  have hhead (hcondition : Spells (condition.spelling ++ [.any .rightParen]) read) :
      Spells (.any .kwIf :: .any .leftParen :: (condition.spelling ++ [.any .rightParen])) (t :: paren :: read) :=
    .cons ht (.cons hparen hcondition)
  refine h.statement.followed (fun yes first mark here hmark => .map ?_) ?_
  · refine (h.statement.also hforms.statement).imp ?_
    rintro no second rest ⟨hno, ⟨hformed, -⟩, -⟩ hyes hcondition
    have helse : mark.kind = .kwElse := of_decide_eq_true hmark
    have hpresent : no.isSkip = false := by
      cases no with
      | skip => cases hformed.canonical
      | _ => rfl
    have hbranches : Spells (yes.spelling ++ .any .kwElse :: no.spelling) (first ++ mark :: second) :=
      hyes.append (.cons helse hno)
    simpa [Stmt.spelling, hpresent] using (hhead hcondition).append hbranches
  · intro yes first rest _ hyes hcondition
    simpa [Stmt.spelling, Stmt.isSkip] using (hhead hcondition).append hyes

theorem command (hforms : inside.Forms n) : inside.command.Ensures fun s read _ => Spells s.spelling read := by
  refine .after (fun t ht => h.conditional hforms t (of_decide_eq_true ht)) (.after (fun t ht => ?print)
    (.after (fun t ht => ?block) (.refuse (.map h.closedBy))))
  case print =>
    have hprint : t.kind = .kwPrint := of_decide_eq_true ht
    exact .map (h.closedBy.imp fun e read rest he => .cons hprint he)
  case block =>
    refine .map (h.block.imp fun body read rest hbody => ?_)
    obtain ⟨first, brace, rfl, hbrace, hbody⟩ := hbody
    have hopen : t.kind = .leftBrace := of_decide_eq_true ht
    exact .cons hopen (hbody.append (.cons hbrace .nil))

theorem declared (hforms : inside.Forms n) : inside.declared.Ensures fun s read _ => Spells s.spelling read := by
  refine .after (fun t ht => ?_) (h.command hforms)
  have hvar : t.kind = .kwVar := of_decide_eq_true ht
  refine Rule.Ensures.left_expect (P := fun s read _ => ∀ mark : Token, mark.kind = .semicolon →
    Spells s.spelling (t :: (read ++ [mark]))) ?_ fun s read mark rest hspelled hmark => hspelled mark hmark
  refine (Rule.ensures_expect _ _).followed (fun name first mark here hmark => .map ?_) ?_
  · refine h.assignment.imp fun e second rest he hname semicolon hsemicolon => ?_
    obtain ⟨rfl, -⟩ := hname
    have hequal : mark.kind = .equal := of_decide_eq_true hmark
    exact .cons hvar (.cons rfl (.cons hequal (he.append (.cons hsemicolon .nil))))
  · intro name first rest _ hname semicolon hsemicolon
    obtain ⟨rfl, -⟩ := hname
    exact .cons hvar (.cons rfl (.cons hsemicolon .nil))

/-! ## Levels -/

theorem enclosing (hforms : inside.Forms n) : inside.enclosing.Sound where
  assignment := h.assigning
  unary := h.signed
  statement := h.command hforms
  declaration := h.declared hforms
  block := .block (h.declared hforms) .nil fun _ _ _ _ hs hlater => hs.append hlater

end Sound

theorem sound_withRoom (n : Nat) : (withRoom n).Sound := by
  induction n with
  | zero =>
    exact ⟨Rule.ensures_fail _, Rule.ensures_fail _, Rule.ensures_fail _, Rule.ensures_fail _, Rule.ensures_fail _⟩
  | succ n ih => exact ih.enclosing (forms_withRoom n)

end Level

/-! ## Programs -/

namespace Parsing

/-- nothing closes a program, so it is read to its end -/
theorem rest_eq_nil (statement : Rule Stmt) (tokens : List Token) :
    (sequence statement (fun _ => false) tokens).rest = [] := by
  fun_induction sequence statement (fun _ => false) tokens with
  | case1 => rfl
  | case2 t behind hcloses => cases hcloses
  | case3 t behind hcloses s rest reported hs later ih => exact ih
  | case4 t behind hcloses fault reported hs later ih => exact ih

/-- a program read without a complaint is canonical, keeps to the limit, and is spelled by the text -/
theorem read_of_silent {tokens : List Token} (h : (ofTokens tokens).diagnostics = []) :
    Stmt.AllReadFrom (ofTokens tokens).program (maxNesting + 1) (body tokens) := by
  have hformed : ∀ s ∈ (ofTokens tokens).program, s.Formed (maxNesting + 1) := fun s => formed_of_mem_program
  have hfaults : (sequence outermost.declaration (fun _ => false) (body tokens)).faults = [] := List.map_eq_nil_iff.1 h
  obtain ⟨read, hread, hspelled⟩ :=
    Rule.sequence_ensures (Q := fun program read => Spells (Stmt.spellingAll program) read)
      (Level.sound_withRoom (maxNesting + 1)).declaration .nil
      (fun _ _ _ _ hs hlater => hs.append hlater) (body tokens) hfaults
  rw [rest_eq_nil, List.append_nil] at hread
  refine ⟨Stmt.canonicalAll_iff.2 fun s hs => (hformed s hs).canonical, ?_, hread ▸ hspelled⟩
  exact Nat.lt_succ_of_le (Stmt.nestingAll_le_iff.2 fun s hs => Nat.le_of_lt_succ (hformed s hs).nesting)

end Parsing

end Scriptlet
