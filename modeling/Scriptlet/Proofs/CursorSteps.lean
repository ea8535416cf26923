/-
Steps of the cursor. `Leads` is how the machine of `Cursor` is reasoned about: from every cursor at one spot, the steps
end, without a crash, with the given value at another spot. A spot is what the grammar knows of a place: the tokens
unread, the complaints so far and how many constructs are open.

To be at a spot is also to have come there properly: the cursor has been at every place up to this one and nowhere else,
in the order of the text, nothing was nested too deep, and every declaration ended behind the place where it began. So
it is enough to show that the machine gets from spot to spot.

- `Cursor.Leads.bind`: steps in turn.
- `Cursor.leads_advance`, `Cursor.leads_resume`: the next token, and what is passed over after a fault.
-/
import Scriptlet.Proofs.Cursor

namespace Scriptlet

/-- a token list around its first end mark -/
structure Tape where
  body : List Token
  mark : Token
  later : List Token
  plain : ∀ t ∈ body, t.kind ≠ .eof
  ends : mark.kind = .eof

/-- a place as the grammar knows it -/
structure Spot where
  depth : Nat
  /-- the complaints so far -/
  told : List Diagnostic
  /-- the tokens unread -/
  rest : List Token

/-- nothing is nested too deep, and no declaration ends where it began -/
def Footprint.Sound : Footprint → Prop
  | .place _ depth => depth ≤ maxNesting
  | .declared start stop => start < stop

/-- a way that has led forward all the time, place by place, to `position` -/
structure Onward (trail : List Footprint) (position : Nat) : Prop where
  sorted : trail.Pairwise fun f g => f.position ≤ g.position
  behind : ∀ f ∈ trail, f.position ≤ position
  visited : ∀ n ≤ position, ∃ depth, .place n depth ∈ trail
  sound : ∀ f ∈ trail, f.Sound

/-- one footprint more, at the same place or at the next one -/
theorem Onward.append {trail : List Footprint} {position : Nat} {f : Footprint} (h : Onward trail position)
    (hnext : f.position = position ∨ ∃ depth, f = .place (position + 1) depth) (hsound : f.Sound) :
    Onward (trail ++ [f]) f.position := by
  have hle : position ≤ f.position := by
    rcases hnext with hsame | ⟨depth, rfl⟩
    · exact Nat.le_of_eq hsame.symm
    · exact Nat.le_succ position
  refine ⟨?_, ?_, ?_, ?_⟩
  · refine List.pairwise_append.2 ⟨h.sorted, List.pairwise_singleton _ _, fun g hg f' hf' => ?_⟩
    rw [List.mem_singleton.1 hf']
    exact Nat.le_trans (h.behind g hg) hle
  · refine List.forall_mem_append.2 ⟨fun g hg => ?_, List.forall_mem_singleton.2 (Nat.le_refl _)⟩
    exact Nat.le_trans (h.behind g hg) hle
  · intro n hn
    by_cases hold : n ≤ position
    · obtain ⟨depth, hmem⟩ := h.visited n hold
      exact ⟨depth, List.mem_append_left _ hmem⟩
    · rcases hnext with hsame | ⟨depth, rfl⟩
      · exact absurd (hsame ▸ hn) hold
      · obtain rfl : n = position + 1 := Nat.le_antisymm hn (Nat.lt_of_not_le hold)
        exact ⟨depth, List.mem_append_right _ List.mem_cons_self⟩
  · exact List.forall_mem_append.2 ⟨h.sound, List.forall_mem_singleton.2 hsound⟩

namespace Cursor

open Machine (standard)

/-- the cursor is at the spot, and has only gone forward to get there -/
structure At (tape : Tape) (p : Spot) (c : Cursor) : Prop where
  tokens : c.tokens = tape.body ++ tape.mark :: tape.later
  unread : p.rest <:+ tape.body
  position : c.position + p.rest.length = tape.body.length
  depth : c.depth = p.depth
  room : p.depth ≤ maxNesting
  diagnostics : c.diagnostics = p.told
  way : Onward c.trail c.position

/-- from every cursor at `p` the steps end at `q` with the value `a`, and do not crash -/
def Leads {α : Type} (tape : Tape) (s : Steps α) (p : Spot) (a : α) (q : Spot) : Prop :=
  ∀ c, At tape p c → ∃ c', (s.run c).run = some (.ok (a, c')) ∧ At tape q c'

variable {tape : Tape} {α β : Type} {p q r : Spot} {depth : Nat} {told : List Diagnostic} {rest : List Token}

/-! ## Steps in turn -/

theorem leads_pure (a : α) (p : Spot) : Leads tape (pure a) p a p := fun c hc => ⟨c, rfl, hc⟩

theorem Leads.bind {s : Steps α} {f : α → Steps β} {a : α} {b : β} (h : Leads tape s p a q)
    (hf : Leads tape (f a) q b r) : Leads tape (s >>= f) p b r := by
  intro c hc
  obtain ⟨c', hrun, hc'⟩ := h c hc
  obtain ⟨c'', hrun', hc''⟩ := hf c' hc'
  refine ⟨c'', ?_, hc''⟩
  rw [StateT.run_bind, ExceptT.run_bind, hrun]
  exact hrun'

/-- what is known of the unread tokens may be used -/
theorem Leads.of_unread {s : Steps α} {a : α} (h : p.rest <:+ tape.body → Leads tape s p a q) : Leads tape s p a q :=
  fun c hc => h hc.unread c hc

theorem Leads.lift {s : Steps α} {f : α → Walk β} {a : α} {b : Except Diagnostic β} (h : Leads tape s p a q)
    (hf : Leads tape (f a).run q b r) : Leads tape (liftM s >>= f : Walk β).run p b r := by
  have hlift : (liftM s >>= f : Walk β).run = s >>= fun a => (f a).run := by
    rw [ExceptT.run_bind]
    simp
  rw [hlift]
  exact h.bind hf

theorem Leads.stop {w : Walk α} {f : α → Walk β} {d : Diagnostic} (h : Leads tape w.run p (.error d) q) :
    Leads tape (w >>= f).run p (.error d) q := by
  rw [ExceptT.run_bind]
  exact h.bind (leads_pure _ q)

/-! ## Single steps -/

namespace At

variable {c : Cursor}

theorem get_position (h : At tape p c) : c.tokens[c.position]? = some (p.rest.head?.getD tape.mark) := by
  obtain ⟨read, hread⟩ := h.unread
  have hposition : c.position = read.length := by
    have := h.position
    rw [← hread, List.length_append] at this
    omega
  rw [h.tokens, ← hread, hposition, List.append_assoc, List.getElem?_append_right (Nat.le_refl _), Nat.sub_self]
  cases p.rest <;> rfl

theorem get_previous {t : Token} (h : At tape p c) (hlast : t :: p.rest <:+ tape.body) :
    c.position ≠ 0 ∧ c.tokens[c.position - 1]? = some t := by
  obtain ⟨read, hread⟩ := hlast
  have hposition : c.position = read.length + 1 := by
    have := h.position
    rw [← hread, List.length_append, List.length_cons] at this
    omega
  refine ⟨by omega, ?_⟩
  rw [h.tokens, ← hread, hposition, List.append_assoc, List.getElem?_append_right (by omega)]
  simp

/-- going on to the next place, or opening and closing constructs -/
theorem put (h : At tape p c) {position : Nat} (hnext : position = c.position ∨ position = c.position + 1)
    (hunread : q.rest <:+ tape.body) (hposition : position + q.rest.length = tape.body.length) (htold : q.told = p.told)
    (hroom : q.depth ≤ maxNesting) : At tape q (c.put position q.depth) where
  tokens := h.tokens
  unread := hunread
  position := hposition
  depth := rfl
  room := hroom
  diagnostics := h.diagnostics.trans htold.symm
  way := by
    refine h.way.append (f := .place position q.depth) (hnext.imp_right ?_) hroom
    rintro rfl
    exact ⟨q.depth, rfl⟩

end At

theorem leads_peek (p : Spot) : Leads tape peek p (p.rest.head?.getD tape.mark) p := by
  intro c hc
  refine ⟨c, ?_, hc⟩
  simp [peek, hc.get_position]

theorem leads_previous {t : Token} (hlast : t :: p.rest <:+ tape.body) : Leads tape previous p t p := by
  intro c hc
  obtain ⟨hpositive, htoken⟩ := hc.get_previous hlast
  refine ⟨c, ?_, hc⟩
  simp [previous, hpositive, htoken]

theorem leads_isAtEnd (p : Spot) :
    Leads tape isAtEnd p (decide ((p.rest.head?.getD tape.mark).kind = .eof)) p :=
  (leads_peek p).bind (leads_pure _ p)

theorem leads_isAtEnd_nil : Leads tape isAtEnd ⟨depth, told, []⟩ true ⟨depth, told, []⟩ := by
  have hstep : Leads tape isAtEnd ⟨depth, told, []⟩ _ _ := leads_isAtEnd _
  simpa [tape.ends] using hstep

theorem leads_isAtEnd_cons {t : Token} :
    Leads tape isAtEnd ⟨depth, told, t :: rest⟩ false ⟨depth, told, t :: rest⟩ := by
  refine .of_unread fun hunread => ?_
  have ht : t.kind ≠ .eof := tape.plain t (hunread.subset List.mem_cons_self)
  have hstep : Leads tape isAtEnd ⟨depth, told, t :: rest⟩ _ _ := leads_isAtEnd _
  simpa [ht] using hstep

theorem leads_check_nil (k : TokenKind → Bool) :
    Leads tape (check k) ⟨depth, told, []⟩ false ⟨depth, told, []⟩ :=
  leads_isAtEnd_nil.bind (leads_pure _ _)

theorem leads_check_cons (k : TokenKind → Bool) (t : Token) :
    Leads tape (check k) ⟨depth, told, t :: rest⟩ (k t.kind) ⟨depth, told, t :: rest⟩ :=
  leads_isAtEnd_cons.bind ((leads_peek _).bind (leads_pure _ _))

theorem leads_check_of_eq {k : TokenKind → Bool} {t : Token} {b : Bool} (h : k t.kind = b) :
    Leads tape (check k) ⟨depth, told, t :: rest⟩ b ⟨depth, told, t :: rest⟩ :=
  h ▸ leads_check_cons k t

theorem leads_move (t : Token) :
    Leads tape (modify fun c => c.put (c.position + 1) c.depth) ⟨depth, told, t :: rest⟩ () ⟨depth, told, rest⟩ := by
  intro c hc
  refine ⟨c.put (c.position + 1) c.depth, rfl, ?_⟩
  have hposition : c.position + (rest.length + 1) = tape.body.length := hc.position
  rw [hc.depth]
  refine hc.put (q := ⟨depth, told, rest⟩) (.inr rfl) ((List.suffix_cons t rest).trans hc.unread) ?_ rfl hc.room
  show c.position + 1 + rest.length = tape.body.length
  omega

theorem leads_advance (t : Token) : Leads tape advance ⟨depth, told, t :: rest⟩ t ⟨depth, told, rest⟩ := by
  refine .of_unread fun hunread => ?_
  exact leads_isAtEnd_cons.bind ((leads_move t).bind (leads_previous hunread))

/-- at the end the cursor stays where it is -/
theorem leads_advance_end {t : Token} (hlast : [t] <:+ tape.body) :
    Leads tape advance ⟨depth, told, []⟩ t ⟨depth, told, []⟩ :=
  leads_isAtEnd_nil.bind (leads_previous hlast)

theorem leads_accept_nil {k : TokenKind → Bool} :
    Leads tape (accept k) ⟨depth, told, []⟩ false ⟨depth, told, []⟩ :=
  (leads_check_nil k).bind (leads_pure _ _)

theorem leads_accept_yes {k : TokenKind → Bool} {t : Token} (h : k t.kind = true) :
    Leads tape (accept k) ⟨depth, told, t :: rest⟩ true ⟨depth, told, rest⟩ :=
  (leads_check_of_eq h).bind ((leads_advance t).bind (leads_pure _ _))

theorem leads_accept_no {k : TokenKind → Bool} {t : Token} (h : k t.kind = false) :
    Leads tape (accept k) ⟨depth, told, t :: rest⟩ false ⟨depth, told, t :: rest⟩ :=
  (leads_check_of_eq h).bind (leads_pure _ _)

theorem leads_report (d : Diagnostic) :
    Leads tape (report d) ⟨depth, told, rest⟩ () ⟨depth, told ++ [d], rest⟩ := by
  intro c hc
  refine ⟨{ c with diagnostics := c.diagnostics ++ [d] }, rfl, ?_⟩
  exact { hc with diagnostics := congrArg (· ++ [d]) hc.diagnostics }

theorem leads_nesting (p : Spot) : Leads tape nesting p p.depth p := by
  intro c hc
  refine ⟨c, ?_, hc⟩
  rw [← hc.depth]
  rfl

theorem leads_here (p : Spot) : Leads tape here p (tape.body.length - p.rest.length) p := by
  intro c hc
  refine ⟨c, ?_, hc⟩
  rw [← hc.position, Nat.add_sub_cancel]
  rfl

theorem leads_record {start : Nat} (h : start + rest.length < tape.body.length) :
    Leads tape (record start) ⟨depth, told, rest⟩ () ⟨depth, told, rest⟩ := by
  intro c hc
  refine ⟨{ c with trail := c.trail ++ [.declared start c.position] }, rfl, ?_⟩
  have hposition : c.position + rest.length = tape.body.length := hc.position
  have hsound : start < c.position := by omega
  exact { hc with way := hc.way.append (f := .declared start c.position) (.inl rfl) hsound }

theorem leads_enter (h : depth < maxNesting) :
    Leads tape enter ⟨depth, told, rest⟩ () ⟨depth + 1, told, rest⟩ := by
  intro c hc
  refine ⟨c.put c.position (c.depth + 1), rfl, ?_⟩
  rw [hc.depth]
  exact hc.put (q := ⟨depth + 1, told, rest⟩) (.inl rfl) hc.unread hc.position rfl h

theorem leads_leave : Leads tape leave ⟨depth + 1, told, rest⟩ () ⟨depth, told, rest⟩ := by
  intro c hc
  refine ⟨c.put c.position depth, ?_, ?_⟩
  · have hdepth : c.depth = depth + 1 := hc.depth
    simp [leave, hdepth]
  · exact hc.put (q := ⟨depth, told, rest⟩) (.inl rfl) hc.unread hc.position rfl (Nat.le_of_succ_le hc.room)

/-- `t` was read last -/
theorem leads_skip {t : Token} (hlast : t :: rest <:+ tape.body) :
    Leads tape standard.skip ⟨depth, told, rest⟩ () ⟨depth, told, synchronize (t :: rest)⟩ := by
  induction rest generalizing t with
  | nil =>
    have hsynchronize : synchronize [t] = [] := by simp [synchronize]
    rw [Machine.skip, hsynchronize]
    exact leads_isAtEnd_nil.bind (leads_pure _ _)
  | cons u behind ih =>
    rw [Machine.skip, synchronize]
    refine leads_isAtEnd_cons.bind ((leads_previous hlast).bind ?_)
    by_cases hsemicolon : t.kind = .semicolon
    · rw [if_pos hsemicolon, if_pos hsemicolon]
      exact leads_pure _ _
    · rw [if_neg hsemicolon, if_neg hsemicolon]
      refine (leads_peek _).bind ?_
      dsimp only [List.head?_cons, Option.getD_some]
      by_cases hbegins : u.kind.beginsStatement = true
      · have hresumes : standard.resumes u.kind = true := hbegins
        rw [if_pos hbegins, if_pos hresumes]
        exact leads_pure _ _
      · have hresumes : ¬ standard.resumes u.kind = true := hbegins
        rw [if_neg hbegins, if_neg hresumes]
        exact (leads_advance u).bind (ih ((List.suffix_cons t _).trans hlast))

/-- recovery passes over what the grammar drops; something must have been read already or be left to read -/
theorem leads_resume (h : tape.body ≠ []) :
    Leads tape standard.resume ⟨depth, told, rest⟩ () ⟨depth, told, synchronize rest⟩ := by
  refine .of_unread fun hunread => ?_
  cases rest with
  | nil =>
    obtain ⟨t, hlast⟩ : ∃ t, [t] <:+ tape.body :=
      ⟨tape.body.getLast h, tape.body.dropLast, List.dropLast_concat_getLast h⟩
    have hsynchronize : synchronize [] = synchronize [t] := by simp [synchronize]
    rw [hsynchronize]
    exact (leads_advance_end hlast).bind (leads_skip hlast)
  | cons t rest => exact (leads_advance t).bind (leads_skip hunread)

end Cursor

end Scriptlet
