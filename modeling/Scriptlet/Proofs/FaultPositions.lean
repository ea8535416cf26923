/-
At most one complaint per token. After a fault has been reported, the token to blame is dropped before reading goes on,
and an invalid target is told at an equals sign that nothing else is told at: no two faults stand at the same token.
Only at the end of the text there may be several of them. There is nothing to drop there, so each block that is still
open complains in its turn, behind the statement that broke off first; and as blocks nest to a limited depth, so many
can be open and no more.

A position is given by the number of tokens that are unread there. `Spread start stop ends faults` says that faults were
found at different positions from `start` on and before `stop`, and at most `ends` at the end of the text.

- `Level.spreads_withRoom`: the rules with room for `n` levels report at most `n` faults at the end before they fail
  there.
- `Parsing.diagnostics_apart`: whole texts.
-/
import Mathlib
import Scriptlet.Proofs.FirstFault

namespace Scriptlet

variable {α β : Type}

/-! ## Positions of faults -/

/-- the faults were found at different positions, which are counted from the end of the text -/
structure Spread (start stop ends : Nat) (faults : List Fault) : Prop where
  forward : stop ≤ start
  behind : ∀ fault ∈ faults, fault.unread.length ≤ start
  before : ∀ fault ∈ faults, stop < fault.unread.length ∨ (stop = 0 ∧ fault.unread = [])
  apart : faults.Pairwise fun fault other => fault.unread.length = other.unread.length → fault.unread = []
  atEnd : faults.countP (·.unread.isEmpty) ≤ ends

namespace Spread

variable {start mid stop ends ends' : Nat} {faults later : List Fault}

theorem nil (h : stop ≤ start) : Spread start stop ends [] := ⟨h, nofun, nofun, .nil, Nat.zero_le ends⟩

/-- a fault at a token, which is dropped -/
theorem single (cause : Cause) (t : Token) (unread : List Token) :
    Spread (unread.length + 1) unread.length 0 [⟨cause, t :: unread⟩] := by
  refine ⟨Nat.le_succ _, ?_, ?_, List.pairwise_singleton _ _, ?_⟩
  · exact List.forall_mem_singleton.2 (Nat.le_refl _)
  · exact List.forall_mem_singleton.2 (.inl (Nat.lt_succ_self _))
  · simp

/-- a fault at the end -/
theorem single_end (cause : Cause) : Spread 0 0 1 [⟨cause, []⟩] := by
  refine ⟨Nat.le_refl 0, ?_, ?_, List.pairwise_singleton _ _, ?_⟩
  · exact List.forall_mem_singleton.2 (Nat.le_refl 0)
  · exact List.forall_mem_singleton.2 (.inr ⟨rfl, rfl⟩)
  · simp

theorem append (h : Spread start mid ends faults) (h' : Spread mid stop ends' later) :
    Spread start stop (ends + ends') (faults ++ later) := by
  refine ⟨h'.forward.trans h.forward, ?_, ?_, ?_, ?_⟩
  · refine List.forall_mem_append.2 ⟨h.behind, fun fault hfault => ?_⟩
    exact (h'.behind fault hfault).trans h.forward
  · refine List.forall_mem_append.2 ⟨fun fault hfault => ?_, h'.before⟩
    rcases h.before fault hfault with hlt | ⟨hmid, hend⟩
    · exact .inl (Nat.lt_of_le_of_lt h'.forward hlt)
    · exact .inr ⟨Nat.le_zero.1 (hmid ▸ h'.forward), hend⟩
  · refine List.pairwise_append.2 ⟨h.apart, h'.apart, ?_⟩
    intro fault hfault other hother hsame
    have hother := h'.behind other hother
    rcases h.before fault hfault with hlt | ⟨-, hend⟩
    · omega
    · exact hend
  · rw [List.countP_append]
    exact Nat.add_le_add h.atEnd h'.atEnd

/-- the order in which faults are told does not matter -/
theorem perm (h : Spread start stop ends faults) (hperm : faults.Perm later) : Spread start stop ends later := by
  refine ⟨h.forward, ?_, ?_, ?_, ?_⟩
  · exact fun fault hfault => h.behind fault (hperm.mem_iff.2 hfault)
  · exact fun fault hfault => h.before fault (hperm.mem_iff.2 hfault)
  · refine hperm.pairwise h.apart ?_
    intro fault other hother hsame
    rw [hother hsame.symm] at hsame
    exact List.length_eq_zero_iff.1 hsame
  · rw [← hperm.countP_eq]
    exact h.atEnd

theorem mono (h : Spread start stop ends faults) (hends : ends ≤ ends') : Spread start stop ends' faults :=
  ⟨h.forward, h.behind, h.before, h.apart, h.atEnd.trans hends⟩

/-- before a token there is no fault at the end -/
theorem of_pos (h : Spread start stop ends faults) (hstop : 0 < stop) : Spread start stop 0 faults := by
  refine ⟨h.forward, h.behind, h.before, h.apart, Nat.le_of_eq (List.countP_eq_zero.2 ?_)⟩
  intro fault hfault hend
  rw [List.isEmpty_iff] at hend
  rcases h.before fault hfault with hlt | ⟨hzero, -⟩
  · rw [hend] at hlt
    exact Nat.not_lt_zero stop hlt
  · omega

/-- a way without faults, then another one -/
theorem earlier (h : Spread mid stop ends faults) (hmid : mid ≤ start) : Spread start stop ends faults := by
  have hwhole : Spread start stop (0 + ends) ([] ++ faults) := (nil hmid).append h
  rwa [Nat.zero_add] at hwhole

end Spread

/-! ## Outcomes -/

namespace Outcome

/-- the faults reported stand apart; at the end, there are at most `ends` before one that stops reading, and none if
reading ended well -/
def Spreads (ends start : Nat) : Outcome α → Prop
  | .done _ rest reported => Spread start rest.length 0 reported
  | .failed fault reported => Spread start fault.unread.length ends reported

namespace Spreads

variable {start mid ends ends' : Nat} {o : Outcome α}

theorem preceded (h : o.Spreads ends mid) {earlier : List Fault} (hearlier : Spread start mid 0 earlier) :
    (o.preceded earlier).Spreads ends start := by
  cases o with
  | done value rest reported => exact hearlier.append h
  | failed fault reported =>
    have hall := hearlier.append h
    rwa [Nat.zero_add] at hall

theorem andThen {next : α → List Token → Outcome β} (h : o.Spreads ends start)
    (hnext : ∀ value rest, (next value rest).Spreads ends rest.length) : (o.andThen next).Spreads ends start := by
  cases o with
  | done value rest reported => exact (hnext value rest).preceded h
  | failed fault reported => exact h

theorem earlier (h : o.Spreads ends mid) (hmid : mid ≤ start) : o.Spreads ends start := by
  cases o with
  | done value rest reported => exact Spread.earlier h hmid
  | failed fault reported => exact Spread.earlier h hmid

theorem mono (h : o.Spreads ends start) (hends : ends ≤ ends') : o.Spreads ends' start := by
  cases o with
  | done value rest reported => exact h
  | failed fault reported => exact Spread.mono h hends

end Spreads

end Outcome

/-! ## Rules -/

/-- whatever the rule reads, the faults it reports stand apart -/
def Rule.Spreads (ends : Nat) (a : Rule α) : Prop := ∀ tokens, (a.run tokens).Spreads ends tokens.length

namespace Rule

variable {ends ends' : Nat}

theorem spreads_fail (cause : Cause) : (fail cause : Rule α).Spreads ends := fun _ => .nil (Nat.le_refl _)

theorem Spreads.atom {f : Token → Option α} {otherwise : Rule α} (ho : otherwise.Spreads ends) :
    (atom f otherwise).Spreads ends := by
  intro tokens
  cases tokens with
  | nil => exact ho []
  | cons t rest =>
    simp only [Rule.atom]
    split
    · exact .nil (Nat.le_succ _)
    · exact ho (t :: rest)

theorem Spreads.mono {a : Rule α} (ha : a.Spreads ends) (hends : ends ≤ ends') : a.Spreads ends' :=
  fun tokens => (ha tokens).mono hends

theorem Spreads.bind {a : Rule α} {f : α → Rule β} (ha : a.Spreads ends) (hf : ∀ value, (f value).Spreads ends) :
    (a.bind f).Spreads ends :=
  fun tokens => (ha tokens).andThen fun value rest => hf value rest

theorem Spreads.map {a : Rule α} (ha : a.Spreads ends) (f : α → β) : (a.map f).Spreads ends :=
  fun tokens => (ha tokens).andThen fun _ _ => .nil (Nat.le_refl _)

theorem Spreads.after {p : TokenKind → Bool} {yes : Token → Rule α} {no : Rule α} (hyes : ∀ t, (yes t).Spreads ends)
    (hno : no.Spreads ends) : (after p yes no).Spreads ends := by
  intro tokens
  cases tokens with
  | nil => exact hno []
  | cons t rest =>
    simp only [Rule.after]
    split_ifs
    · exact (hyes t rest).earlier (Nat.le_succ _)
    · exact hno (t :: rest)

theorem Spreads.refuse {p : TokenKind → Bool} {cause : Token → Cause} {otherwise : Rule α}
    (ho : otherwise.Spreads ends) :
    (refuse p cause otherwise).Spreads ends := by
  intro tokens
  cases tokens with
  | nil => exact ho []
  | cons t rest =>
    simp only [Rule.refuse]
    split_ifs
    · exact .nil (Nat.le_refl _)
    · exact ho (t :: rest)

/-- what follows behind a token may look back at that token, so it is judged from there -/
theorem Spreads.followed {a : Rule α} {p : TokenKind → Bool} {more : α → List Token → Rule β} {plain : α → β}
    (ha : a.Spreads ends)
    (hmore : ∀ value t behind, ((more value (t :: behind)).run behind).Spreads ends (behind.length + 1)) :
    (a.followed p more plain).Spreads ends := by
  intro tokens
  refine (ha tokens).andThen fun value rest => ?_
  cases rest with
  | nil => exact .nil (Nat.le_refl _)
  | cons t behind =>
    dsimp only
    split_ifs
    · exact hmore value t behind
    · exact .nil (Nat.le_refl _)

section Chain

variable {operand : Rule Expr} {p : TokenKind → Bool} {join : Expr → Token → Expr → Expr}

theorem chainFrom_spreads (hoperand : operand.Spreads ends) (left : Expr) (tokens : List Token) :
    (chainFrom operand p join left tokens).Spreads ends tokens.length := by
  fun_induction chainFrom operand p join left tokens with
  | case1 left => exact .nil (Nat.le_refl _)
  | case2 left operator behind hp right rest reported hright ih =>
    have hfirst := (hoperand behind).earlier (Nat.le_succ _)
    rw [hright] at hfirst
    exact ih.preceded hfirst
  | case3 left operator behind hp fault reported hright =>
    have hfirst := (hoperand behind).earlier (Nat.le_succ _)
    rwa [hright] at hfirst
  | case4 left operator behind hp => exact .nil (Nat.le_refl _)

theorem Spreads.chain (hoperand : operand.Spreads ends) : (operand.chain p join).Spreads ends :=
  fun tokens => (hoperand tokens).andThen fun left rest => chainFrom_spreads hoperand left rest

end Chain

theorem closed_spreads (ends : Nat) : Closed fun _ => Spreads ends where
  fail _ := spreads_fail _
  atom := .atom
  bind := .bind
  map f ha := ha.map f
  after := .after
  refuse _ := .refuse
  followed ha hmore := ha.followed fun value _ behind => (hmore value behind).earlier (Nat.le_succ _)
  chain := .chain

end Rule

/-! ## Sequences -/

section Sequences

variable {statement : Rule Stmt} {closes : TokenKind → Bool} {ends : Nat}

/-- a fault at a token is left behind; with one at the end, the sequence ends -/
theorem sequence_spread (hstatement : statement.Spreads ends) (tokens : List Token) :
    Spread tokens.length (sequence statement closes tokens).rest.length (ends + 1)
      (sequence statement closes tokens).faults := by
  fun_induction sequence statement closes tokens with
  | case1 => exact .nil (Nat.le_refl _)
  | case2 t behind hcloses => exact .nil (Nat.le_refl _)
  | case3 t behind hcloses s rest reported hs later ih =>
    have hfirst := hstatement (t :: behind)
    rw [hs] at hfirst
    have hall := Spread.append hfirst ih
    rwa [Nat.zero_add] at hall
  | case4 t behind hcloses fault reported hs later ih =>
    have hfirst := hstatement (t :: behind)
    rw [hs] at hfirst
    obtain ⟨cause, unread⟩ := fault
    cases unread with
    | nil =>
      have hnothing : later = ⟨[], [], []⟩ := by
        simp only [later, synchronize]
        rw [sequence]
      rw [hnothing]
      exact Spread.append hfirst (.single_end cause)
    | cons u unread =>
      have hfirst := Spread.of_pos hfirst (Nat.succ_pos _)
      have hskipped := ih.earlier (synchronize_length u unread)
      have hall := hfirst.append ((Spread.single cause u unread).append hskipped)
      rwa [Nat.zero_add, Nat.zero_add] at hall

/-- a block that is not closed complains once more -/
theorem Rule.Spreads.block (hstatement : statement.Spreads ends) : (Rule.block statement).Spreads (ends + 1) := by
  intro tokens
  have hbody : Spread tokens.length (sequence statement (· = .rightBrace) tokens).rest.length (ends + 1)
    (sequence statement (· = .rightBrace) tokens).faults := sequence_spread hstatement tokens
  simp only [Rule.block]
  cases hrest : (sequence statement (· = .rightBrace) tokens).rest with
  | nil =>
    rw [hrest] at hbody
    have hall : Spread tokens.length 0 (ends + 1 + 0) ((sequence statement (· = .rightBrace) tokens).faults ++ []) :=
      hbody.append (.nil (Nat.le_refl 0))
    exact hall
  | cons t rest =>
    rw [hrest] at hbody
    have hbrace : ((Rule.expect .rightBrace .expectBraceAfterBlock).map
        fun _ => (sequence statement (· = .rightBrace) tokens).statements).Spreads (ends + 1) :=
      ((closed_spreads _).expect _ (by decide)).map _
    exact (hbrace (t :: rest)).preceded (hbody.of_pos (Nat.succ_pos _))

end Sequences

/-! ## Levels -/

namespace Level

/-- an assignment, seen from its equals sign: all that was found in the value stands behind it -/
theorem spreads_assignTo {a : Rule Expr} (ha : a.Spreads 0) (target : Expr) (t : Token) (behind : List Token) :
    ((a.conclude (assignTo target (t :: behind))).run behind).Spreads 0 (behind.length + 1) := by
  have hvalue := ha behind
  simp only [Rule.conclude]
  cases hrun : a.run behind with
  | failed fault reported =>
    rw [hrun] at hvalue
    exact Spread.earlier hvalue (Nat.le_succ _)
  | done value rest reported =>
    rw [hrun] at hvalue
    have hvalue : Spread behind.length rest.length 0 reported := hvalue
    cases target with
    | var name =>
      have hsilent : Spread (behind.length + 1) rest.length 0 (reported ++ []) :=
        (List.append_nil reported).symm ▸ hvalue.earlier (Nat.le_succ _)
      exact hsilent
    | _ => exact ((Spread.single .invalidTarget t behind).append hvalue).perm List.perm_append_comm

/-- with one more level, one more block may be open at the end -/
theorem closed_spreads : Closed (fun _ => Rule.Spreads 0) fun room _ => Rule.Spreads room where
  expressions := Rule.closed_spreads 0
  statements room := Rule.closed_spreads room
  assignTo hleft hvalue := hleft.followed fun target t behind => spreads_assignTo hvalue target t behind
  embed room ha := ha.mono (Nat.zero_le room)
  mono ha := ha.mono (Nat.le_succ _)
  block := .block

/-- the faults that the rules of a level report stand apart, and in expressions none is at the end -/
theorem spreads_withRoom (n : Nat) : (withRoom n).Has (fun _ => Rule.Spreads 0) fun _ => Rule.Spreads n :=
  closed_spreads.withRoom n

end Level

/-! ## Whole texts -/

namespace Parsing

/-- the tokens before the first end mark, and an end mark behind them -/
def marked (tokens : List Token) : List Token := body tokens ++ [.atEnd (endLine tokens)]

/-- where the faults in a token list stand, as indices of tokens; the end mark comes behind the last one -/
def positions (tokens : List Token) : List Nat :=
  (faults tokens).map fun fault => (body tokens).length - fault.unread.length

/-- a fault is told with the line and the location of the token at its position -/
theorem diagnostics_at_positions (tokens : List Token) :
    List.Forall₂ (fun d i => ∃ t message, (marked tokens)[i]? = some t ∧ d = .grammatical t.line t.location message)
      (ofTokens tokens).diagnostics (positions tokens) := by
  have hfound : FoundBetween (body tokens) _ (faults tokens) :=
    sequence_found (Level.orderly_withRoom (maxNesting + 1)).declaration (body tokens)
  rw [diagnostics_eq, positions, List.forall₂_map_left_iff, List.forall₂_map_right_iff, List.forall₂_same]
  intro fault hfault
  obtain ⟨read, hread⟩ := hfound.behind fault hfault
  refine ⟨fault.unread.head?.getD (.atEnd (endLine tokens)), fault.cause.message, ?_, rfl⟩
  rw [marked, ← hread, List.length_append, Nat.add_sub_cancel, List.append_assoc,
    List.getElem?_append_right (Nat.le_refl _), Nat.sub_self]
  cases fault.unread <;> rfl

theorem spread_faults (tokens : List Token) : Spread (body tokens).length
    (sequence outermost.declaration (fun _ => false) (body tokens)).rest.length (maxNesting + 1) (faults tokens) :=
  sequence_spread (Level.closed_spreads.declared (Level.spreads_withRoom maxNesting)) (body tokens)

theorem positions_apart (tokens : List Token) :
    (positions tokens).Pairwise fun i j => i = j → i = (body tokens).length := by
  have hspread := spread_faults tokens
  refine List.pairwise_map.2 (hspread.apart.imp_of_mem ?_)
  intro fault other hfault hother hapart hsame
  have hfault := hspread.behind fault hfault
  have hother := hspread.behind other hother
  rw [hapart (by omega)]
  rfl

theorem count_positions (tokens : List Token) : (positions tokens).count (body tokens).length ≤ maxNesting + 1 := by
  have hspread := spread_faults tokens
  rw [positions, List.count_eq_countP, List.countP_map]
  refine Nat.le_trans (List.countP_mono_left ?_) hspread.atEnd
  intro fault hfault hend
  have hfault := hspread.behind fault hfault
  have hend : (body tokens).length - fault.unread.length = (body tokens).length := by simpa using hend
  rw [List.isEmpty_iff, ← List.length_eq_zero_iff]
  -- in an empty text every fault stands at the end, and otherwise a token that is unread makes a difference
  omega

end Parsing

/-! ## Lines -/

section Lines

variable {lines told : List Nat} {positions : List Nat} {line k last : Nat}

/-- if no line has two tokens, a line is told as often as its token is blamed -/
theorem count_told (hlines : lines.Nodup) (h : List.Forall₂ (fun line i => lines[i]? = some line) told positions)
    (hk : lines[k]? = some line) : told.count line = positions.count k := by
  induction h with
  | nil => rfl
  | @cons first i told positions hfirst _ ih =>
    have hsame : first = line ↔ i = k := by
      constructor
      · rintro rfl
        exact (List.getElem?_inj (List.getElem?_eq_some_iff.1 hfirst).1 hlines).1 (hfirst.trans hk.symm)
      · rintro rfl
        exact Option.some.inj (hfirst.symm.trans hk)
    simp only [List.count_cons, ih, beq_iff_eq, hsame]

/-- only lines with a token are told -/
theorem mem_of_told (h : List.Forall₂ (fun line i => lines[i]? = some line) told positions) :
    ∀ line ∈ told, line ∈ lines := by
  induction h with
  | nil => exact nofun
  | cons hfirst _ ih => exact List.forall_mem_cons.2 ⟨List.mem_of_getElem? hfirst, ih⟩

/-- what may be repeated at one place only occurs once at any other -/
theorem count_le_one_of_pairwise (h : positions.Pairwise fun i j => i = j → i = last) (hk : k ≠ last) :
    positions.count k ≤ 1 := by
  induction h with
  | nil => exact Nat.zero_le 1
  | @cons i positions hi _ ih =>
    by_cases hik : i = k
    · subst hik
      have hnone : positions.count i = 0 := List.count_eq_zero.2 fun hmem => hk (hi i hmem rfl)
      simp [hnone]
    · rw [List.count_cons_of_ne (by simpa using hik)]
      exact ih

end Lines

namespace Parsing

theorem told_at_positions (tokens : List Token) :
    List.Forall₂ (fun line i => ((marked tokens).map Token.line)[i]? = some line)
      ((ofTokens tokens).diagnostics.map Diagnostic.line) (positions tokens) := by
  rw [List.forall₂_map_left_iff]
  refine (diagnostics_at_positions tokens).imp ?_
  rintro d i ⟨t, message, ht, rfl⟩
  rw [List.getElem?_map, ht]
  rfl

/-- **At most one complaint per token.** A complaint carries the line and the location of the token at which it was
found, no two of them were found at the same token, and at the end there is at most one for each level of nesting and
one more. If no line has two tokens, this can be seen from the lines alone. -/
theorem diagnostics_apart (tokens : List Token) :
    List.Forall₂ (fun d i => ∃ t message, (marked tokens)[i]? = some t ∧ d = .grammatical t.line t.location message)
      (ofTokens tokens).diagnostics (positions tokens) ∧
    ((positions tokens).Pairwise fun i j => i = j → i = (body tokens).length) ∧
    (positions tokens).count (body tokens).length ≤ maxNesting + 1 ∧
    (((marked tokens).map Token.line).Nodup →
      (∀ line, line ≠ endLine tokens → ((ofTokens tokens).diagnostics.map Diagnostic.line).count line ≤ 1) ∧
      ((ofTokens tokens).diagnostics.map Diagnostic.line).count (endLine tokens) ≤ maxNesting + 1) := by
  have hapart := positions_apart tokens
  have hcount := count_positions tokens
  have htold := told_at_positions tokens
  have hlast : ((marked tokens).map Token.line)[(body tokens).length]? = some (endLine tokens) := by
    simp [marked, Token.atEnd]
  refine ⟨diagnostics_at_positions tokens, hapart, hcount, fun hlines => ⟨?_, ?_⟩⟩
  · intro line hline
    by_cases hmem : line ∈ (marked tokens).map Token.line
    · obtain ⟨k, hk⟩ := List.mem_iff_getElem?.1 hmem
      rw [count_told hlines htold hk]
      refine count_le_one_of_pairwise hapart ?_
      rintro rfl
      exact hline (Option.some.inj (hk.symm.trans hlast))
    · have hnone : ((ofTokens tokens).diagnostics.map Diagnostic.line).count line = 0 :=
        List.count_eq_zero.2 fun hbad => hmem (mem_of_told htold line hbad)
      omega
  · rw [count_told hlines htold hlast]
    exact hcount

/-- two open blocks and an invalid target in them, each token on a line of its own -/
def openText : List Token :=
  [⟨.leftBrace, "\x7b", 1⟩, ⟨.leftBrace, "\x7b", 2⟩, ⟨.kwTrue, "true", 3⟩, ⟨.equal, "=", 4⟩, ⟨.kwTrue, "true", 5⟩,
   ⟨.semicolon, ";", 6⟩, ⟨.kwPrint, "print", 7⟩, .atEnd 8]

theorem diagnostics_apart_open :
    ((marked openText).map Token.line).Nodup ∧
    (ofTokens openText).diagnostics.map Diagnostic.line = [4, 8, 8, 8] ∧ positions openText = [3, 7, 7, 7] ∧
    (∀ line, line ≠ 8 → ((ofTokens openText).diagnostics.map Diagnostic.line).count line ≤ 1) ∧
    ((ofTokens openText).diagnostics.map Diagnostic.line).count 8 ≤ maxNesting + 1 :=
  have hlines : ((marked openText).map Token.line).Nodup := by decide +kernel
  ⟨hlines, by decide +kernel, by decide +kernel, (diagnostics_apart openText).2.2.2 hlines⟩

end Parsing

end Scriptlet
