/-
Places in the buffer. The machine of `ByteCursor` reads its buffer at places that it does not check: a byte where the
cursor is, and stretches between places that it has noted down. A read that is not within the buffer is a crash, so
steps that end without one have read nothing outside (`runs_here_iff`, `runs_slice_iff`). What keeps the reads inside
are understandings between the steps. A byte is gone over only where there is one; behind the end of the buffer a zero
byte is seen, which no class of bytes that is passed over holds; and the place one behind the end is taken with the end
mark, where nothing is read any more.

`Further` is what steps inside of a segment may do to the cursor, `Gains` is what rounds and calls may do. Neither rests
on the tables that a machine is set up with, so all is shown for any tables.

- `Lexicon.gains_round`: a round ends without a crash, and further on than it began.
- `Lexicon.indices_in_range`: where any calls lead to, and how many items they hand out.
-/
import Scriptlet.Proofs.Delivery

namespace Scriptlet

namespace ByteCursor

variable {α β : Type} {c c' c'' : ByteCursor}

theorem Runs.unique {s : ByteSteps α} {a a' : α} (h : Runs s c a c') (h' : Runs s c a' c'') : a = a' ∧ c' = c'' := by
  have hsame := h.symm.trans h'
  simpa using hsame

/-! ## Reads -/

/-- a byte is read where there is one -/
theorem runs_here_iff {b : UInt8} : Runs here c b c' ↔ c.buffer[c.position]? = some b ∧ c' = c := by
  cases hbyte : c.buffer[c.position]? <;> simp [Runs, here, hbyte, eq_comm]

/-- a stretch is read that lies within the buffer -/
theorem runs_slice_iff {i j : Nat} {text : Bytes} : Runs (slice i j) c text c' ↔
    (i ≤ j ∧ j ≤ c.buffer.length) ∧ text = (c.buffer.drop i).take (j - i) ∧ c' = c := by
  by_cases hwithin : i ≤ j ∧ j ≤ c.buffer.length <;> simp [Runs, slice, hwithin, eq_comm]

def advanced (c : ByteCursor) : ByteCursor := { c with position := c.position + 1 }

theorem runs_advance_of_lt (h : c.position < c.buffer.length) : ∃ b, Runs advance c b c.advanced := by
  have hread : Runs here c c.buffer[c.position] c := runs_here_iff.2 ⟨List.getElem?_eq_getElem h, rfl⟩
  exact ⟨_, hread.bind rfl⟩

theorem runs_lexeme_of_le {i j : Nat} (hij : i ≤ j) (hj : j ≤ c.buffer.length) : ∃ text, Runs (lexeme i j) c text c :=
  ⟨_, (runs_slice_iff.2 ⟨⟨hij, hj⟩, rfl, rfl⟩).bind (runs_pure _ c)⟩

/-! ## Inside of a segment -/

/-- `c'` is `c` further on in the segment at hand, and not behind the end of the buffer -/
structure Further (c c' : ByteCursor) : Prop where
  buffer : c'.buffer = c.buffer
  start : c'.start = c.start
  position : c.position ≤ c'.position
  within : c'.position ≤ c'.buffer.length

theorem Further.refl (h : c.position ≤ c.buffer.length) : Further c c := ⟨rfl, rfl, Nat.le_refl _, h⟩

theorem Further.trans (h : Further c c') (h' : Further c' c'') : Further c c'' :=
  ⟨h'.buffer.trans h.buffer, h'.start.trans h.start, h.position.trans h'.position, h'.within⟩

theorem further_past {text more : Bytes} (hc : c.position ≤ c.buffer.length) (h : c.ahead = text ++ more) :
    Further c (c.past text) := by
  have hlength := congrArg List.length h
  simp only [ahead, List.length_drop, List.length_append] at hlength
  refine ⟨rfl, rfl, Nat.le_add_right _ _, ?_⟩
  simp only [past]
  omega

/-- the cursor is behind the first byte of the segment at hand -/
structure Amid (c : ByteCursor) : Prop where
  start : c.start < c.position
  within : c.position ≤ c.buffer.length

theorem Amid.further (h : Amid c) (h' : Further c c') : Amid c' := by
  refine ⟨?_, h'.within⟩
  rw [h'.start]
  exact Nat.lt_of_lt_of_le h.start h'.position

/-- the cursor behind the first byte of the segment that begins at it -/
def opened (c : ByteCursor) : ByteCursor := advanced { c with start := c.position, pending := none }

theorem amid_opened (h : c.position < c.buffer.length) : Amid c.opened := ⟨Nat.lt_succ_self _, h⟩

/-- the steps end without a crash, further on in the segment at hand -/
def Goes (s : ByteSteps α) (c : ByteCursor) : Prop := ∃ a c', Runs s c a c' ∧ Further c c'

theorem Goes.bind {s : ByteSteps α} {f : α → ByteSteps β} (h : Goes s c)
    (hf : ∀ a c', Further c c' → Goes (f a) c') : Goes (s >>= f) c := by
  obtain ⟨a, c', hs, hfurther⟩ := h
  obtain ⟨r, c'', hlater, hfurther'⟩ := hf a c' hfurther
  exact ⟨r, c'', hs.bind hlater, hfurther.trans hfurther'⟩

theorem goes_pure (a : α) (h : c.position ≤ c.buffer.length) : Goes (pure a) c := ⟨a, c, runs_pure a c, .refl h⟩

theorem goes_found (kind : TokenKind) (h : c.position ≤ c.buffer.length) : Goes (found kind) c :=
  ⟨_, _, runs_found kind c, rfl, rfl, Nat.le_refl _, h⟩

theorem goes_complain (cause : LexicalFault) (h : c.position ≤ c.buffer.length) : Goes (complain cause) c :=
  ⟨_, _, runs_complain cause c, .refl h⟩

theorem goes_newLine (h : c.position ≤ c.buffer.length) : Goes newLine c :=
  ⟨_, _, runs_modify _ c, rfl, rfl, Nat.le_refl _, h⟩

theorem goes_accept {e : UInt8} (he : e ≠ byte '\n') (h : c.position ≤ c.buffer.length) : Goes (accept e) c := by
  cases hahead : c.ahead with
  | nil => exact ⟨_, _, runs_accept_nil hahead e, .refl h⟩
  | cons b rest =>
    by_cases hb : b = e
    · subst hb
      exact ⟨_, _, runs_accept_yes hahead he, further_past h hahead⟩
    · exact ⟨_, _, runs_accept_no hahead hb, .refl h⟩

theorem goes_skipComment (h : c.position ≤ c.buffer.length) : Goes skipComment c :=
  ⟨_, _, runs_skipComment c h, further_past h List.takeWhile_append_dropWhile.symm⟩

/-- steps of which the ones are taken at the end of the buffer, and the others before it -/
theorem goes_atEnd {yes no : ByteSteps α} (hyes : c.buffer.length ≤ c.position → Goes yes c)
    (hno : c.position < c.buffer.length → Goes no c) : Goes (do if ← isAtEnd then yes else no) c := by
  by_cases hend : c.buffer.length ≤ c.position
  · obtain ⟨a, c', hrun, hfurther⟩ := hyes hend
    exact ⟨a, c', (runs_isAtEnd_nil (ahead_eq_nil.2 hend)).bind hrun, hfurther⟩
  · obtain ⟨a, c', hrun, hfurther⟩ := hno (Nat.lt_of_not_le hend)
    have hbefore : Runs isAtEnd c false c := by simp [Runs, isAtEnd, hend]
    exact ⟨a, c', hbefore.bind hrun, hfurther⟩

/-- the byte at the cursor is there, and other steps follow behind it -/
theorem runs_advance_bind {f : UInt8 → ByteSteps α} (h : c.position < c.buffer.length)
    (hf : ∀ b, Goes (f b) c.advanced) : ∃ a c', Runs (advance >>= f) c a c' ∧ Further c.advanced c' := by
  obtain ⟨b, hfirst⟩ := runs_advance_of_lt h
  obtain ⟨a, c', hlater, hfurther⟩ := hf b
  exact ⟨a, c', hfirst.bind hlater, hfurther⟩

/-- behind the quote that closes a string, what is between its quotes is a stretch of the buffer, perhaps an
empty one -/
theorem content_within (h : Amid c) (hclosed : c.position < c.buffer.length) : ∃ q, Runs advance c q c.advanced ∧
    c.advanced.start + 1 ≤ c.advanced.position - 1 ∧ c.advanced.position - 1 ≤ c.advanced.buffer.length := by
  obtain ⟨q, hquote⟩ := runs_advance_of_lt hclosed
  exact ⟨q, hquote, h.start, h.within⟩

/-! ## From item to item -/

/-- the segment at hand does not begin behind the cursor, which is at most one behind the end of the buffer -/
structure InRange (c : ByteCursor) : Prop where
  start : c.start ≤ c.position
  position : c.position ≤ c.buffer.length + 1

/-- `c'` is `c` at least so many places further on in the same buffer -/
structure Gains (places : Nat) (c c' : ByteCursor) : Prop where
  buffer : c'.buffer = c.buffer
  position : c.position + places ≤ c'.position
  inRange : InRange c'

variable {n k : Nat}

theorem Gains.refl (h : InRange c) : Gains 0 c c := ⟨rfl, Nat.le_refl _, h⟩

theorem Gains.trans (h : Gains n c c') (h' : Gains k c' c'') : Gains (n + k) c c'' := by
  refine ⟨h'.buffer.trans h.buffer, ?_, h'.inRange⟩
  calc c.position + (n + k)
    _ = c.position + n + k := (Nat.add_assoc _ _ _).symm
    _ ≤ c'.position + k := Nat.add_le_add_right h.position k
    _ ≤ c''.position := h'.position

theorem Gains.mono (h : Gains n c c') (hle : k ≤ n) : Gains k c c' :=
  ⟨h.buffer, (Nat.add_le_add_left hle _).trans h.position, h.inRange⟩

/-- no more places are gained than there are -/
theorem Gains.le (h : Gains n c c') : c.position + n ≤ c.buffer.length + 1 := by
  have hposition := h.inRange.position
  rw [h.buffer] at hposition
  exact h.position.trans hposition

/-- the end mark takes the place behind the end of the buffer -/
theorem gains_advanced (h : InRange c) (hend : c.position = c.buffer.length) : Gains 1 c c.advanced :=
  ⟨rfl, Nat.le_refl _, h.start.trans (Nat.le_succ _), Nat.succ_le_succ hend.le⟩

theorem inRange_loaded (source : Source) : InRange (loaded source) := ⟨Nat.le_refl _, Nat.zero_le _⟩

end ByteCursor

open ByteCursor

namespace Lexicon

variable {c : ByteCursor}

/-! ## Segments -/

/-- the zero byte that is seen behind the end of the buffer is not passed over -/
theorem goes_pass (m : Lexicon) {p : UInt8 → Bool} (hzero : p 0 = false) (hline : p (byte '\n') = false)
    (h : c.position ≤ c.buffer.length) : Goes (m.pass p) c :=
  ⟨_, _, runs_pass m hzero hline c, further_past h List.takeWhile_append_dropWhile.symm⟩

theorem goes_passQuoted (m : Lexicon) (h : c.position ≤ c.buffer.length) : Goes m.passQuoted c :=
  ⟨_, _, runs_passQuoted m c, further_past h List.takeWhile_append_dropWhile.symm⟩

theorem goes_operator (short long : TokenKind) (h : c.position ≤ c.buffer.length) :
    Goes (do if ← accept (byte '=') then found long else found short) c := by
  refine (goes_accept (by decide) h).bind fun prolonged c₁ hequals => ?_
  cases prolonged with
  | false => exact goes_found short hequals.within
  | true => exact goes_found long hequals.within

theorem goes_slash (h : c.position ≤ c.buffer.length) : Goes (do
      if ← accept (byte '/') then
        skipComment
        return .ok ()
      else found .slash) c := by
  refine (goes_accept (by decide) h).bind fun comment c₁ hslash => ?_
  cases comment with
  | false => exact goes_found .slash hslash.within
  | true => exact (goes_skipComment hslash.within).bind fun _ c₂ hskipped => goes_pure _ hskipped.within

theorem goes_string (m : Lexicon) (h : Amid c) : Goes m.string c := by
  refine (goes_passQuoted m h.within).bind fun _ c₁ hpassed => goes_atEnd (fun _ => ?_) (fun hclosed => ?_)
  · exact goes_complain .unterminatedString hpassed.within
  · obtain ⟨q, hquote, hfirst, hlast⟩ := content_within (h.further hpassed) hclosed
    obtain ⟨text, hlexeme⟩ := runs_lexeme_of_le hfirst hlast
    refine ⟨_, _, hquote.bind ((runs_get _).bind ((runs_before rfl).bind (hlexeme.bind (runs_found _ _)))), ?_⟩
    exact ⟨rfl, rfl, Nat.le_succ _, hclosed⟩

/-- the bytes gone over since the segment began -/
theorem goes_numeral (h : Amid c) : Goes (do
    let c ← get
    let text ← lexeme c.start c.position
    found (.number ((Numeral.read? text.toList).getD 0))) c := by
  obtain ⟨text, hlexeme⟩ := runs_lexeme_of_le h.start.le h.within
  obtain ⟨a, c', hfound, hfurther⟩ := goes_found (.number ((Numeral.read? text.toList).getD 0)) h.within
  exact ⟨a, c', (runs_get c).bind (hlexeme.bind hfound), hfurther⟩

theorem goes_number (m : Lexicon) (h : Amid c) : Goes m.number c := by
  have hdigits : ∀ {c : ByteCursor}, c.position ≤ c.buffer.length → Goes (m.pass Bytes.isDigit) c :=
    goes_pass m (by decide) (by decide)
  refine (hdigits h.within).bind fun _ c₁ hwhole =>
    (goes_accept (by decide) hwhole.within).bind fun point c₂ hpoint => ?_
  have hamid : Amid c₂ := (h.further hwhole).further hpoint
  cases point with
  | false => exact goes_numeral hamid
  | true => exact (hdigits hamid.within).bind fun _ c₃ hfraction => goes_numeral (hamid.further hfraction)

theorem goes_word (m : Lexicon) (h : Amid c) : Goes m.word c := by
  refine (goes_pass m (by decide) (by decide) h.within).bind fun _ c₁ hpassed => ?_
  have hamid : Amid c₁ := h.further hpassed
  have hslice : Runs (slice c₁.start c₁.position) c₁ _ c₁ :=
    runs_slice_iff.2 ⟨⟨hamid.start.le, hamid.within⟩, rfl, rfl⟩
  obtain ⟨a, c', hfound, hfurther⟩ := goes_found _ hamid.within
  exact ⟨a, c', (runs_get c₁).bind (hslice.bind hfound), hfurther⟩

/-- the first byte is there to be gone over, and whatever it is the segment goes on behind it -/
theorem goes_segment (m : Lexicon) (h : c.position < c.buffer.length) (hstart : c.start = c.position) :
    ∃ result c', Runs m.segment c result c' ∧ Further c.advanced c' := by
  have hamid : Amid c.advanced := ⟨by simp [advanced, hstart], h⟩
  refine runs_advance_bind h fun b => ?_
  split
  · exact goes_found _ hamid.within
  · exact goes_operator _ _ hamid.within
  · split_ifs
    · exact goes_pure _ hamid.within
    · exact (goes_newLine hamid.within).bind fun _ c₁ hcounted => goes_pure _ hcounted.within
    · exact goes_slash hamid.within
    · exact goes_string m hamid
    · exact goes_number m hamid
    · exact goes_word m hamid
    · exact goes_complain _ hamid.within

/-! ## Rounds -/

/-- **A round moves on.** Where there is a byte, a round ends without a crash, behind that byte and within the
buffer. -/
theorem gains_round (m : Lexicon) (h : c.position < c.buffer.length) :
    ∃ item c', Runs m.round c item c' ∧ Gains 1 c c' ∧ c'.position ≤ c'.buffer.length := by
  obtain ⟨result, c₁, hsegment, hfurther⟩ := goes_segment m (c := { c with start := c.position, pending := none }) h rfl
  have hamid : Amid c₁ := (amid_opened h).further hfurther
  have hrange : InRange c₁ := ⟨hamid.start.le, hamid.within.trans (Nat.le_succ _)⟩
  have hgains : Gains 1 c c₁ := ⟨hfurther.buffer, hfurther.position, hrange⟩
  cases result with
  | error d => exact ⟨_, c₁, (runs_modify _ c).bind (hsegment.bind (runs_pure _ _)), hgains, hamid.within⟩
  | ok found =>
    cases hpending : c₁.pending with
    | none =>
      refine ⟨none, c₁, (runs_modify _ c).bind (hsegment.bind ((runs_get c₁).bind ?_)), hgains, hamid.within⟩
      rw [hpending]
      exact runs_pure _ _
    | some kind =>
      obtain ⟨text, hlexeme⟩ := runs_lexeme_of_le (c := { c₁ with pending := none }) hrange.start hamid.within
      refine ⟨some (.token ⟨kind, text, c₁.line⟩), { c₁ with pending := none },
        (runs_modify _ c).bind (hsegment.bind ((runs_get c₁).bind ?_)),
        ⟨hgains.buffer, hgains.position, hrange.start, hrange.position⟩, hamid.within⟩
      rw [hpending]
      exact (runs_set _ _).bind (hlexeme.bind (runs_pure _ _))

/-- each item costs the cursor a place at least -/
theorem gains_next (m : Lexicon) (h : InRange c) :
    ∃ item c', Runs m.next c item c' ∧ Gains item.toList.length c c' := by
  -- the rounds come to an end because each leaves less of the buffer ahead
  induction hleft : c.buffer.length - c.position using Nat.strong_induction_on generalizing c with
  | _ left ih =>
    rcases Nat.lt_trichotomy c.position c.buffer.length with hahead | hend | hended
    · obtain ⟨item, c₁, hround, hgains, -⟩ := gains_round m hahead
      cases item with
      | some item => exact ⟨some item, c₁, runs_next_ahead hahead hround (runs_pure _ _), hgains⟩
      | none =>
        have hless : c₁.buffer.length - c₁.position < left := by
          have hposition := hgains.position
          rw [hgains.buffer]
          omega
        obtain ⟨item, c₂, hnext, hlater⟩ := ih _ hless hgains.inRange rfl
        exact ⟨item, c₂, runs_next_ahead hahead hround hnext, (hgains.trans hlater).mono (Nat.le_add_left _ _)⟩
    · exact ⟨_, _, runs_next_end m hend, gains_advanced h hend⟩
    · exact ⟨none, c, runs_next_ended m hended, .refl h⟩

theorem gains_collect (m : Lexicon) (h : InRange c) (handed : List Item) :
    ∃ items c', Runs (m.collect handed) c (handed ++ items) c' ∧ Gains items.length c c' := by
  -- each item leaves fewer places, the one behind the end included
  induction hleft : c.buffer.length + 1 - c.position using Nat.strong_induction_on generalizing c handed with
  | _ left ih =>
    rw [collect]
    obtain ⟨item, c₁, hnext, hgains⟩ := gains_next m h
    cases item with
    | none =>
      refine ⟨[], c₁, hnext.bind ?_, hgains⟩
      rw [List.append_nil]
      exact runs_pure _ _
    | some item =>
      have hless : c₁.buffer.length + 1 - c₁.position < left := by
        have hposition : c.position + 1 ≤ c₁.position := hgains.position
        have hplace : c.position + 1 ≤ c.buffer.length + 1 := hgains.le
        rw [hgains.buffer]
        omega
      obtain ⟨items, c₂, hlater, hmore⟩ := ih _ hless hgains.inRange (handed ++ [item]) rfl
      rw [List.append_assoc] at hlater
      refine ⟨item :: items, c₂, hnext.bind hlater, ?_⟩
      rw [List.length_cons, Nat.add_comm]
      exact hgains.trans hmore

end Lexicon

/-! ## Calls -/

namespace Delivery

variable {d : Delivery} {c c' : ByteCursor}

/-- what has been delivered came out of the buffer of the cursor, and each item has cost it a place at least -/
structure Fits (d : Delivery) (c : ByteCursor) : Prop where
  inRange : InRange c
  bytes : d.bytes = c.buffer
  handed : d.handed.length ≤ c.position

theorem fits_loaded (source : Source) : Fits ⟨source.content, []⟩ (loaded source) :=
  ⟨inRange_loaded source, rfl, Nat.zero_le _⟩

theorem Fits.item (h : Fits d c) {item : Option Item} (hgains : Gains item.toList.length c c') :
    Fits (d.after (.next, .item item)) c' := by
  have hbytes : d.bytes = c'.buffer := h.bytes.trans hgains.buffer.symm
  have hhanded : d.handed.length + item.toList.length ≤ c'.position :=
    (Nat.add_le_add_right h.handed _).trans hgains.position
  cases item with
  | none => exact ⟨hgains.inRange, hbytes, hhanded⟩
  | some item => exact ⟨hgains.inRange, hbytes, by simpa [after] using hhanded⟩

/-- every call is answered without a crash -/
theorem Fits.answer (h : Fits d c) (m : Lexicon) (call : StreamCall) :
    ∃ answer c', Runs (m.answer call) c answer c' ∧ Fits (d.after (call, answer)) c' := by
  cases call with
  | load source =>
    refine ⟨if source.broken then .unreadable else .loaded, loaded source, (runs_load source c).bind ?_,
      fits_loaded source⟩
    cases source.broken <;> exact runs_pure _ _
  | next =>
    obtain ⟨item, c', hnext, hgains⟩ := m.gains_next h.inRange
    exact ⟨.item item, c', hnext.bind (runs_pure _ _), h.item hgains⟩
  | scan source =>
    have hload := runs_load source c
    cases hbroken : source.broken with
    | true =>
      rw [hbroken] at hload
      have hscan : Runs (m.scan source) c (.error .unreadable) (loaded source) := hload.bind (runs_pure _ _)
      exact ⟨.unreadable, loaded source, hscan.bind (runs_pure _ _), fits_loaded source⟩
    | false =>
      rw [hbroken] at hload
      obtain ⟨items, c', hcollect, hgains⟩ := m.gains_collect (inRange_loaded source) []
      have hscan : Runs (m.scan source) c (.ok items) c' := hload.bind (hcollect.bind (runs_pure _ _))
      refine ⟨.scanned items, c', hscan.bind (runs_pure _ _), hgains.inRange, hgains.buffer.symm, ?_⟩
      exact (Nat.zero_add items.length).ge.trans hgains.position

end Delivery

namespace Lexicon

/-- what calls may lead to, with what they have delivered since a source was last taken up. The machine is new, whatever
line it counts from; the cursor is where a call leaves it, or a round in the course of one. -/
inductive Reached (m : Lexicon) : Delivery → ByteCursor → Prop where
  | first (line : Nat) : Reached m ⟨[], []⟩ ⟨[], 0, 0, line, none⟩
  | call {d : Delivery} {c c' : ByteCursor} {call : StreamCall} {answer : StreamAnswer} (h : Reached m d c)
    (hcall : Runs (m.answer call) c answer c') : Reached m (d.after (call, answer)) c'
  | round {d : Delivery} {c c' : ByteCursor} {item : Option Item} (h : Reached m d c)
    (hahead : c.position < c.buffer.length) (hround : Runs m.round c item c') :
    Reached m (d.after (.next, .item item)) c'

variable {m : Lexicon} {d : Delivery} {c : ByteCursor}

theorem Reached.fits (h : m.Reached d c) : d.Fits c := by
  induction h with
  | first line => exact ⟨⟨Nat.le_refl _, Nat.zero_le _⟩, rfl, Nat.zero_le _⟩
  | @call d c c' call answer _ hcall ih =>
    obtain ⟨answer', c'', hanswer, hfits⟩ := ih.answer m call
    obtain ⟨rfl, rfl⟩ := hcall.unique hanswer
    exact hfits
  | @round d c c' item _ hahead hround ih =>
    obtain ⟨item', c'', hround', hgains, -⟩ := gains_round m hahead
    obtain ⟨rfl, rfl⟩ := hround.unique hround'
    have hplace : item.toList.length ≤ 1 := by cases item <;> simp
    exact ih.item (hgains.mono hplace)

/-- **Places stay in range, and the cursor moves on.** Whatever a machine has been called for, and whether or not the
sources could be read to their end:

- the segment at hand does not begin behind the cursor, which is at most one behind the end of the buffer;
- every further call is answered without a crash, so that no byte and no stretch is read outside of the buffer; with the
  tables of the language, the answer is that of a token stream over the bytes ahead;
- where there is a byte, a round takes the cursor on, within the buffer; and if the byte opens a string that is closed,
  the place behind the first quote is not behind the place before the second, and both are in the buffer;
- at the end of the buffer, the end mark takes the cursor on by one;
- what has been handed out since a source was taken up are no more items than the buffer has bytes, and one. -/
theorem indices_in_range (h : m.Reached d c) :
    (c.start ≤ c.position ∧ c.position ≤ c.buffer.length + 1) ∧
    (∀ call, ∃ answer c', Runs (m.answer call) c answer c' ∧
      (m = standard → answer = (c.stream.answer call).1 ∧ c'.stream = (c.stream.answer call).2)) ∧
    (c.position < c.buffer.length →
      (∃ item c', Runs m.round c item c' ∧ c'.buffer = c.buffer ∧ c.position < c'.position ∧
        c'.position ≤ c'.buffer.length) ∧
      ∃ c₁, Runs m.passQuoted c.opened () c₁ ∧ (c₁.position < c₁.buffer.length → ∃ q c₂, Runs advance c₁ q c₂ ∧
        c₂.start + 1 ≤ c₂.position - 1 ∧ c₂.position - 1 ≤ c₂.buffer.length)) ∧
    (c.position = c.buffer.length →
      Runs m.next c (some (.token (.atEnd c.line))) { c with position := c.position + 1 }) ∧
    d.bytes = c.buffer ∧ d.handed.length ≤ c.buffer.length + 1 := by
  have hfits := h.fits
  have hrange := hfits.inRange
  refine ⟨⟨hrange.start, hrange.position⟩, fun call => ?_, fun hahead => ⟨?_, ?_⟩, runs_next_end m, hfits.bytes,
    hfits.handed.trans hrange.position⟩
  · obtain ⟨answer, c', hanswer, -⟩ := hfits.answer m call
    refine ⟨answer, c', hanswer, ?_⟩
    rintro rfl
    obtain ⟨c'', hanswer', hstream⟩ := runs_answer c call
    obtain ⟨rfl, rfl⟩ := hanswer.unique hanswer'
    exact ⟨rfl, hstream⟩
  · obtain ⟨item, c', hround, hgains, hwithin⟩ := gains_round m hahead
    exact ⟨item, c', hround, hgains.buffer, hgains.position, hwithin⟩
  · have hamid := amid_opened hahead
    obtain ⟨_, c₁, hpassed, hfurther⟩ := goes_passQuoted m hamid.within
    refine ⟨c₁, hpassed, fun hclosed => ?_⟩
    obtain ⟨q, hquote, hcontent⟩ := content_within (hamid.further hfurther) hclosed
    exact ⟨q, _, hquote, hcontent⟩

/-- a slash and a string that holds nothing, behind which reading failed -/
def slashThenString : Source := ⟨Utf8.encode "/\"\"", true⟩

theorem reached_slashThenString : standard.Reached ⟨slashThenString.content, [.token ⟨.slash, "/", 1⟩]⟩
    ⟨slashThenString.content, 0, 1, 1, none⟩ := by
  have hload : Runs (standard.answer (.load slashThenString)) new .unreadable (loaded slashThenString) := rfl
  have hahead : (loaded slashThenString).ahead = byte '/' :: [byte '"', byte '"'] := by decide
  have hitem : (Segment.cut (byte '/') [byte '"', byte '"']).item? 1 = some (.token ⟨.slash, "/", 1⟩) := by cbv
  have hround := runs_round hahead
  exact .round (.call (.first 1) hload) (by decide) (hitem ▸ hround)

theorem indices_in_range_slashThenString :
    let c : ByteCursor := ⟨slashThenString.content, 0, 1, 1, none⟩
    let d : Delivery := ⟨slashThenString.content, [.token ⟨.slash, "/", 1⟩]⟩
    standard.Reached d c ∧ (c.start ≤ c.position ∧ c.position ≤ c.buffer.length + 1) ∧
    (∀ call, ∃ answer c', Runs (standard.answer call) c answer c' ∧
      answer = (c.stream.answer call).1 ∧ c'.stream = (c.stream.answer call).2) ∧
    (∃ item c', Runs standard.round c item c' ∧ c'.buffer = c.buffer ∧ c.position < c'.position ∧
      c'.position ≤ c'.buffer.length) ∧
    Runs standard.passQuoted c.opened () c.opened ∧ (∃ q c₂, Runs advance c.opened q c₂ ∧
      c₂.start + 1 ≤ c₂.position - 1 ∧ c₂.position - 1 ≤ c₂.buffer.length) ∧
    d.bytes = c.buffer ∧ d.handed.length ≤ c.buffer.length + 1 := by
  intro c d
  have hreached : standard.Reached d c := reached_slashThenString
  obtain ⟨hplaces, hcalls, hahead, -, hdelivered⟩ := indices_in_range hreached
  obtain ⟨hround, c₁, hpassed, hcontent⟩ := hahead (by decide)
  -- the second quote is next to the first
  have hstays : Runs standard.passQuoted c.opened () c.opened := runs_passQuoted standard c.opened
  obtain ⟨-, rfl⟩ := hpassed.unique hstays
  refine ⟨hreached, hplaces, fun call => ?_, hround, hpassed, hcontent (by decide), hdelivered⟩
  obtain ⟨answer, c', hanswer, hstream⟩ := hcalls call
  exact ⟨answer, c', hanswer, hstream rfl⟩

end Lexicon

end Scriptlet
