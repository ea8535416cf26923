/-
Faults are contained. A chunk is a text up to its only semicolon, in which no other statement can begin; it may be as
wrong as it likes. Whatever is wrong in it stays in it: a text behind a chunk is read as if the chunk had not been
there.

The semicolon is not part of any expression (`Phrase.no_semicolon`), so the rule for the expression in a chunk stops
before the end of the chunk, well or not, and by then what stands behind the chunk has not been looked at
(`Rule.Local.run_append`). Where reading fails, recovery drops the rest of the chunk and no more
(`Chunk.synchronize_append`).

- `Chunk.contained`: a statement that begins a chunk is read within the chunk.
- `Parsing.ofTokens_chunk`: whole texts.
-/
import Mathlib
import Scriptlet.Proofs.Viability

namespace Scriptlet

variable {α β : Type}

/-! ## Chunks -/

/-- the tokens end with their only semicolon -/
def EndsOnce (tokens : List Token) : Prop :=
  ∃ front mark, tokens = front ++ [mark] ∧ mark.kind = .semicolon ∧ ∀ t ∈ front, t.kind ≠ .semicolon

/-- a text that ends with its only semicolon, has no end mark, does not begin with a block or a conditional, and has no
token behind the first one at which a statement can begin again -/
structure Chunk (tokens : List Token) : Prop where
  closed : EndsOnce tokens
  unmarked : ∀ t ∈ tokens, t.kind ≠ .eof
  opens : ∀ t ∈ tokens.head?, t.kind ≠ .leftBrace ∧ t.kind ≠ .kwIf
  inner : ∀ t ∈ tokens.tail, t.kind.beginsStatement = false

namespace EndsOnce

variable {tokens rest : List Token} {t : Token}

theorem suffix (h : EndsOnce tokens) (hrest : rest <:+ tokens) (hne : rest ≠ []) : EndsOnce rest := by
  obtain ⟨front, mark, rfl, hmark, hfront⟩ := h
  obtain hnil | ⟨later, rfl, hlater⟩ := List.suffix_concat_iff.1 hrest
  · exact absurd hnil hne
  · exact ⟨later, mark, rfl, hmark, fun t ht => hfront t (hlater.subset ht)⟩

theorem exists_cons (h : EndsOnce tokens) : ∃ t rest, tokens = t :: rest := by
  obtain ⟨front, mark, rfl, -⟩ := h
  cases front with
  | nil => exact ⟨mark, [], rfl⟩
  | cons t front => exact ⟨t, front ++ [mark], rfl⟩

/-- nothing stands behind the semicolon -/
theorem eq_nil (h : EndsOnce (t :: rest)) (ht : t.kind = .semicolon) : rest = [] := by
  obtain ⟨front, mark, heq, -, hfront⟩ := h
  cases front with
  | nil => exact (List.cons.inj heq).2
  | cons u front =>
    rw [(List.cons.inj heq).1] at ht
    exact absurd ht (hfront u List.mem_cons_self)

/-- before the semicolon there is more to come -/
theorem tail (h : EndsOnce (t :: rest)) (ht : t.kind ≠ .semicolon) : EndsOnce rest := by
  refine h.suffix (List.suffix_cons t rest) ?_
  rintro rfl
  obtain ⟨front, mark, heq, hmark, -⟩ := h
  cases front with
  | nil =>
    rw [(List.cons.inj heq).1] at ht
    exact ht hmark
  | cons u front => simp at heq

end EndsOnce

theorem synchronize_semicolon {t : Token} (ht : t.kind = .semicolon) (rest : List Token) :
    synchronize (t :: rest) = rest := by
  cases rest <;> simp [synchronize, ht]

theorem synchronize_skip {t u : Token} (ht : t.kind ≠ .semicolon) (hu : u.kind.beginsStatement = false)
    (behind : List Token) : synchronize (t :: u :: behind) = synchronize (u :: behind) := by
  simp [synchronize, ht, hu]

namespace Chunk

variable {tokens unread : List Token}

/-- **Recovery drops the rest of a chunk and no more.** -/
theorem synchronize_append (h : Chunk tokens) (hunread : unread <:+ tokens) (hne : unread ≠ []) (more : List Token) :
    synchronize (unread ++ more) = more := by
  induction unread with
  | nil => exact absurd rfl hne
  | cons t rest ih =>
    have hends := h.closed.suffix hunread hne
    have hrest : rest <:+ tokens := (List.suffix_cons t rest).trans hunread
    by_cases ht : t.kind = .semicolon
    · obtain rfl : rest = [] := hends.eq_nil ht
      exact synchronize_semicolon ht more
    · cases rest with
      | nil =>
        obtain ⟨front, mark, heq, -⟩ := hends.tail ht
        simp at heq
      | cons u behind =>
        -- the next token has a token before it, so no statement can begin there
        have hinner : u.kind.beginsStatement = false := by
          refine h.inner u ?_
          obtain ⟨read, rfl⟩ := hunread
          cases read with
          | nil => simp
          | cons v read => simp
        rw [List.cons_append, List.cons_append, synchronize_skip ht hinner]
        exact ih hrest (List.cons_ne_nil u behind)

end Chunk

/-! ## Rules -/

/-- the rule reads the tokens to their end or fails within them, and nothing behind them makes a difference -/
inductive Rule.Contained (a : Rule α) (tokens : List Token) : Prop
  | done (value : α) (reported : List Fault)
      (hrun : ∀ more, a.run (tokens ++ more) = .done value more (reported.map (Fault.before more)))
      (hreported : ∀ fault ∈ reported, fault.unread ≠ [])
  | failed (fault : Fault) (reported : List Fault)
      (hrun : ∀ more, a.run (tokens ++ more) = .failed (fault.before more) (reported.map (Fault.before more)))
      (hreported : ∀ fault ∈ reported, fault.unread ≠ []) (hunread : fault.unread ≠ [])
      (hsuffix : fault.unread <:+ tokens)

namespace Rule

variable {a : Rule α} {tokens : List Token} {t : Token} {p : TokenKind → Bool}

theorem Contained.map (ha : a.Contained tokens) (f : α → β) : (a.map f).Contained tokens := by
  cases ha with
  | done value reported hrun hreported =>
    refine .done (f value) reported (fun more => ?_) hreported
    simp [Rule.map, Rule.conclude, hrun more, Outcome.andThen, Outcome.preceded]
  | failed fault reported hrun hreported hunread hsuffix =>
    refine .failed fault reported (fun more => ?_) hreported hunread hsuffix
    simp [Rule.map, Rule.conclude, hrun more, Outcome.andThen]

/-- a rule that does what another one does behind the first tokens -/
theorem Contained.of_run {b : Rule α} {later : List Token} (h : b.Contained later) (hlater : later <:+ tokens)
    (hsame : ∀ more, a.run (tokens ++ more) = b.run (later ++ more)) : a.Contained tokens := by
  cases h with
  | done value reported hrun hreported =>
    exact .done value reported (fun more => (hsame more).trans (hrun more)) hreported
  | failed fault reported hrun hreported hunread hsuffix =>
    exact .failed fault reported (fun more => (hsame more).trans (hrun more)) hreported hunread (hsuffix.trans hlater)

theorem Contained.after_yes {yes : Token → Rule α} {no : Rule α} (h : (yes t).Contained tokens) (ht : p t.kind = true) :
    (after p yes no).Contained (t :: tokens) :=
  h.of_run (List.suffix_cons t tokens) fun _ => run_after_yes ht

theorem Contained.after_no {yes : Token → Rule α} {no : Rule α} (h : no.Contained (t :: tokens))
    (ht : p t.kind = false) :
    (after p yes no).Contained (t :: tokens) :=
  h.of_run (List.suffix_refl _) fun _ => run_after_no ht

theorem Contained.refuse {cause : Token → Cause} {otherwise : Rule α} (h : otherwise.Contained (t :: tokens)) :
    (refuse p cause otherwise).Contained (t :: tokens) := by
  by_cases ht : p t.kind = true
  · refine .failed ⟨cause t, t :: tokens⟩ [] (fun more => ?_) nofun (List.cons_ne_nil _ _) (List.suffix_refl _)
    simp [Rule.refuse, ht, Fault.before]
  · exact h.of_run (List.suffix_refl _) fun _ => run_refuse_no (by simpa using ht)

/-- a rule that never reads a semicolon, and then the semicolon that must stand behind it -/
theorem contained_left {L : Language Token} (hlocal : a.Local) (hreports : a.Orderly (· = .invalidTarget))
    (hspeaks : a.Speaks L) (hL : ∀ word ∈ L, ∀ t ∈ word, t.kind ≠ .semicolon) (htokens : EndsOnce tokens)
    (cause : Cause) :
    (a.left (expect .semicolon cause)).Contained tokens := by
  have hbegins := hspeaks.begins tokens
  rw [hreports.strict_run] at hbegins
  obtain ⟨read, more, hread, hword⟩ := hbegins.exists_read
  -- the semicolon at the end is not read
  have hstop : (a.run tokens).stop ≠ [] := by
    intro hend
    obtain ⟨front, mark, rfl, hmark, -⟩ := htokens
    rw [hend, List.append_nil] at hread
    exact hL _ hword mark (List.mem_append_left more (hread ▸ List.mem_concat_self)) hmark
  have hsuffix : (a.run tokens).stop <:+ tokens := ⟨read, hread.symm⟩
  have hreported : ∀ fault ∈ (a.run tokens).reported, fault.unread ≠ [] := by
    intro fault hfault hend
    have hbefore := (hreports tokens).found.before fault hfault
    rw [hend] at hbefore
    exact hstop (List.suffix_nil.1 hbefore)
  have hkept := hlocal.run_append hreports hstop
  cases hrun : a.run tokens with
  | failed fault reported =>
    rw [hrun] at hstop hsuffix hreported hkept
    refine .failed fault reported (fun more => ?_) hreported hstop hsuffix
    simp [Rule.left, Rule.bind, hkept more, Outcome.before, Outcome.andThen]
  | done value rest reported =>
    rw [hrun] at hstop hsuffix hreported hkept
    have hends := htokens.suffix hsuffix hstop
    obtain ⟨t, behind, rfl⟩ := List.exists_cons_of_ne_nil hstop
    by_cases ht : t.kind = .semicolon
    · obtain rfl : behind = [] := hends.eq_nil ht
      refine .done value reported (fun more => ?_) hreported
      simp [Rule.left, Rule.bind, hkept more, Outcome.before, Outcome.andThen, Rule.map, Rule.conclude, run_expect ht,
        Outcome.preceded]
    · refine .failed ⟨cause, t :: behind⟩ reported (fun more => ?_) hreported hstop hsuffix
      simp [Rule.left, Rule.bind, hkept more, Outcome.before, Outcome.andThen, Rule.map, Rule.conclude, Rule.expect,
        Rule.atom, Rule.fail, ht, Outcome.preceded, Fault.before]

end Rule

/-! ## Statements -/

namespace Level

variable {n : Nat} {tokens : List Token}

theorem contained_expression (h : EndsOnce tokens) (cause : Cause) :
    ((withRoom n).expression.left (.expect .semicolon cause)).Contained tokens :=
  Rule.contained_left (local_withRoom n).assignment (orderly_withRoom n).assignment (speaks_withRoom n).assignment
    (fun _ hword => Phrase.no_semicolon hword rfl) h cause

theorem contained_declaring (h : EndsOnce tokens) : (withRoom n).declaring.Contained tokens := by
  rw [declaring_eq]
  have hlocal : (withRoom n).binding.Local := closed_local.binding (n := n) (local_withRoom n)
  have hreports : (withRoom n).binding.Orderly (· = .invalidTarget) :=
    closed_orderly.binding (n := n) (orderly_withRoom n)
  refine Rule.contained_left hlocal hreports (speaks_withRoom n).binding ?_ h _
  intro word hword
  obtain ⟨name, more, rfl, hname, hmore⟩ := mem_oneOf_mul.1 hword
  refine List.forall_mem_cons.2 ⟨ne_semicolon_of_kind (of_decide_eq_true hname) (by decide), ?_⟩
  obtain hnone | hmore := hmore
  · obtain rfl : more = [] := hnone
    exact nofun
  · obtain ⟨equal, value, rfl, hequal, hvalue⟩ := mem_oneOf_mul.1 hmore
    exact List.forall_mem_cons.2
      ⟨ne_semicolon_of_kind (of_decide_eq_true hequal) (by decide), Phrase.no_semicolon hvalue rfl⟩

end Level

open Level

/-- **A statement that begins a chunk is read within the chunk**, whatever stands behind. -/
theorem Chunk.contained {tokens : List Token} (h : Chunk tokens) (n : Nat) :
    (withRoom n).declared.Contained tokens := by
  obtain ⟨t, rest, rfl⟩ := h.closed.exists_cons
  obtain ⟨hbrace, hif⟩ := h.opens t rfl
  have htail : ∀ {kind}, t.kind = kind → kind ≠ .semicolon → EndsOnce rest :=
    fun hkind hne => h.closed.tail (ne_semicolon_of_kind hkind hne)
  by_cases hvar : t.kind = .kwVar
  · exact (contained_declaring (htail hvar (by decide))).after_yes (decide_eq_true hvar)
  by_cases hprint : t.kind = .kwPrint
  · have hprinting : (withRoom n).printing.Contained rest := (contained_expression (htail hprint (by decide)) _).map _
    exact ((hprinting.after_yes (decide_eq_true hprint)).after_no (decide_eq_false hif)).after_no (decide_eq_false hvar)
  · have hbare : (withRoom n).bare.Contained (t :: rest) := (contained_expression h.closed _).map _
    refine .after_no (.after_no (.after_no (.after_no hbare.refuse ?_) ?_) ?_) (decide_eq_false hvar)
    · exact decide_eq_false hbrace
    · exact decide_eq_false hprint
    · exact decide_eq_false hif

/-- statements and faults, and then those of a sequence -/
def Sequence.preceded (statements : List Stmt) (faults : List Fault) (q : Sequence) : Sequence :=
  ⟨statements ++ q.statements, q.rest, faults ++ q.faults⟩

/-- the statements and the faults of a chunk come before those of what stands behind it -/
theorem Chunk.sequence_append {tokens : List Token} (h : Chunk tokens) {statement : Rule Stmt}
    (hstatement : statement.Contained tokens) :
    ∃ (statements : List Stmt) (faults : List Fault), (∀ fault ∈ faults, fault.unread ≠ []) ∧
      ∀ more, sequence statement (fun _ => false) (tokens ++ more) =
        (sequence statement (fun _ => false) more).preceded statements (faults.map (Fault.before more)) := by
  obtain ⟨t, rest, rfl⟩ := h.closed.exists_cons
  cases hstatement with
  | done s reported hrun hreported =>
    refine ⟨[s], reported, hreported, fun more => ?_⟩
    rw [List.cons_append, sequence_next rfl, ← List.cons_append, hrun]
    rfl
  | failed fault reported hrun hreported hunread hsuffix =>
    refine ⟨[], reported ++ [fault], List.forall_mem_append.2 ⟨hreported, List.forall_mem_singleton.2 hunread⟩, ?_⟩
    intro more
    have hsync : synchronize (fault.before more).unread = more := h.synchronize_append hsuffix hunread more
    rw [List.cons_append, sequence_next rfl, ← List.cons_append, hrun]
    simp [hsync, Sequence.preceded]

/-! ## Whole texts -/

/-- a fault at a token is told in the same way, whatever stands behind -/
theorem Fault.diagnostic_before {fault : Fault} (h : fault.unread ≠ []) (more more' : List Token)
    (endLine endLine' : Nat) :
    (fault.before more).diagnostic endLine = (fault.before more').diagnostic endLine' := by
  obtain ⟨cause, unread⟩ := fault
  obtain ⟨t, rest, rfl⟩ := List.exists_cons_of_ne_nil h
  rfl

namespace Parsing

variable {tokens : List Token}

theorem body_append (h : ∀ t ∈ tokens, t.kind ≠ .eof) (rest : List Token) :
    body (tokens ++ rest) = tokens ++ body rest :=
  List.takeWhile_append_of_pos (by simpa using h)

theorem endLine_append (h : ∀ t ∈ tokens, t.kind ≠ .eof) {rest : List Token} (hrest : rest ≠ []) :
    endLine (tokens ++ rest) = endLine rest := by
  have hnone : tokens.find? (·.kind = .eof) = none := List.find?_eq_none.2 (by simpa using h)
  obtain ⟨last, hlast⟩ : ∃ last, rest.getLast? = some last := ⟨_, List.getLast?_eq_some_getLast hrest⟩
  rw [endLine, endLine, List.find?_append, hnone, Option.none_or, List.getLast?_append, hlast, Option.some_or]

theorem faults_nil : faults [] = [] := by
  rw [faults, body, List.takeWhile_nil, sequence]

theorem program_nil : (ofTokens []).program = [] := by
  rw [ofTokens, body, List.takeWhile_nil, sequence]

/-- what is told of a text is told in the same way if other tokens stand in front of it -/
theorem told_append (h : ∀ t ∈ tokens, t.kind ≠ .eof) (rest : List Token) :
    (faults rest).map (Fault.diagnostic (endLine (tokens ++ rest))) = (ofTokens rest).diagnostics := by
  rw [diagnostics_eq]
  by_cases hrest : rest = []
  · rw [hrest, faults_nil, List.map_nil, List.map_nil]
  · rw [endLine_append h hrest]

/-- what a chunk adds to a text does not depend on the text behind it -/
theorem ofTokens_append_of_chunk {chunk : List Token} (h : Chunk chunk) :
    ∃ (statements : Program) (told : List Diagnostic), ∀ rest,
      (ofTokens (chunk ++ rest)).program = statements ++ (ofTokens rest).program ∧
      (ofTokens (chunk ++ rest)).diagnostics = told ++ (ofTokens rest).diagnostics := by
  obtain ⟨statements, faults, hfaults, hread⟩ := h.sequence_append (h.contained maxNesting)
  refine ⟨statements, (faults.map (Fault.before [])).map (Fault.diagnostic 0), fun rest => ?_⟩
  have hread : sequence outermost.declaration (fun _ => false) (body (chunk ++ rest)) =
      (sequence outermost.declaration (fun _ => false) (body rest)).preceded statements
        (faults.map (Fault.before (body rest))) := by
    rw [body_append h.unmarked]
    exact hread (body rest)
  have htold : (faults.map (Fault.before (body rest))).map (Fault.diagnostic (endLine (chunk ++ rest))) =
      (faults.map (Fault.before [])).map (Fault.diagnostic 0) := by
    simp only [List.map_map]
    exact List.map_congr_left fun fault hfault => Fault.diagnostic_before (hfaults fault hfault) _ _ _ _
  constructor
  · exact congrArg Sequence.statements hread
  · rw [diagnostics_eq, Parsing.faults, hread, Sequence.preceded, List.map_append, htold]
    exact congrArg _ (told_append h.unmarked rest)

/-- **Faults are contained.** A text that begins with a chunk is read as the chunk alone and then as the rest alone. -/
theorem ofTokens_chunk {chunk : List Token} (h : Chunk chunk) (rest : List Token) :
    (ofTokens (chunk ++ rest)).program = (ofTokens chunk).program ++ (ofTokens rest).program ∧
    (ofTokens (chunk ++ rest)).diagnostics = (ofTokens chunk).diagnostics ++ (ofTokens rest).diagnostics := by
  obtain ⟨statements, told, happend⟩ := ofTokens_append_of_chunk h
  obtain ⟨hprogram, hdiagnostics⟩ := happend []
  rw [List.append_nil, program_nil, List.append_nil] at hprogram
  rw [List.append_nil, diagnostics_eq [], faults_nil, List.map_nil, List.append_nil] at hdiagnostics
  rw [hprogram, hdiagnostics]
  exact happend rest

/-- `a + = ({ a;`, which is wrong in more than one place -/
def brokenChunk : List Token :=
  let name := sampleName "a"
  [name, sampleToken .plus "+", sampleToken .equal "=", sampleToken .leftParen "(", sampleToken .leftBrace "\x7b", name,
   sampleToken .semicolon ";"]

/-- a broken chunk leaves a broken block behind it alone -/
theorem ofTokens_chunk_broken :
    let rest : List Token := [sampleToken .leftBrace "\x7b", sampleToken .kwVar "var", .atEnd 2]
    Chunk brokenChunk ∧ (ofTokens brokenChunk).diagnostics.length = 1 ∧ (ofTokens rest).diagnostics.length = 2 ∧
    (ofTokens (brokenChunk ++ rest)).program = (ofTokens brokenChunk).program ++ (ofTokens rest).program ∧
    (ofTokens (brokenChunk ++ rest)).diagnostics =
      (ofTokens brokenChunk).diagnostics ++ (ofTokens rest).diagnostics := by
  have hchunk : Chunk brokenChunk := by
    refine ⟨⟨brokenChunk.dropLast, sampleToken .semicolon ";", rfl, rfl, ?_⟩, ?_, ?_, ?_⟩ <;> decide
  exact ⟨hchunk, by decide +kernel, by decide +kernel, ofTokens_chunk hchunk _⟩

end Parsing

end Scriptlet
