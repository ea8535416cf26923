/-
Steps of the byte cursor. `Runs` is how the machine of `ByteCursor` is reasoned about: from a given cursor the steps
end, without a crash, with a given value and a given cursor. Where the cursor is, is said by what it has gone over:
`c.past text` is the cursor behind `text`, on the line on which `text` ends, and a step is known to lead there by the
bytes ahead.

The loops are shown to end by induction on the bytes ahead. A segment that the machine goes over is the one that is cut
from these bytes (`Lexicon.runs_round`), so the cursor moves through its buffer as a token stream uses up its source.

- `Lexicon.runs_next`, `Lexicon.runs_collect`: the machine hands out what a token stream over the bytes ahead hands out.
-/
import Scriptlet.Proofs.ByteCursor
import Scriptlet.Proofs.LongestMatch

namespace Scriptlet

namespace ByteCursor

/-- the steps end, without a crash, with the value `a` and the cursor `c'` -/
def Runs {α : Type} (s : ByteSteps α) (c : ByteCursor) (a : α) (c' : ByteCursor) : Prop :=
  (s.run c).run = some (.ok (a, c'))

variable {α β : Type} {c c' c'' : ByteCursor} {b : UInt8} {rest : Bytes}

theorem runs_pure (a : α) (c : ByteCursor) : Runs (pure a) c a c := rfl

theorem runs_get (c : ByteCursor) : Runs get c c c := rfl

theorem runs_set (c c' : ByteCursor) : Runs (set c') c ⟨⟩ c' := rfl

theorem runs_modify (f : ByteCursor → ByteCursor) (c : ByteCursor) : Runs (modify f) c ⟨⟩ (f c) := rfl

theorem Runs.bind {s : ByteSteps α} {f : α → ByteSteps β} {a : α} {r : β} (h : Runs s c a c')
    (hf : Runs (f a) c' r c'') :
    Runs (s >>= f) c r c'' := by
  unfold Runs at *
  rw [StateT.run_bind, ExceptT.run_bind, h]
  exact hf

/-! ## Places -/

def ahead (c : ByteCursor) : Bytes := c.buffer.drop c.position

/-- the cursor behind a text, on the line on which the text ends -/
def past (c : ByteCursor) (text : Bytes) : ByteCursor :=
  { c with position := c.position + text.length, line := c.line + Bytes.lineFeeds text }

theorem past_nil (c : ByteCursor) : c.past [] = c := rfl

theorem past_append (c : ByteCursor) (first second : Bytes) :
    (c.past first).past second = c.past (first ++ second) := by
  simp [past, Bytes.lineFeeds_append, Nat.add_assoc]

theorem ahead_past {text more : Bytes} (h : c.ahead = text ++ more) : (c.past text).ahead = more := by
  calc (c.past text).ahead
    _ = c.ahead.drop text.length := by simp [past, ahead, List.drop_drop]
    _ = more := by rw [h, List.drop_left]

theorem get_position (h : c.ahead = b :: rest) : c.buffer[c.position]? = some b := by
  rw [← List.head?_drop]
  unfold ahead at h
  rw [h]
  rfl

theorem position_lt (h : c.ahead = b :: rest) : c.position < c.buffer.length := by
  obtain ⟨hlt, -⟩ := List.getElem?_eq_some_iff.1 (get_position h)
  exact hlt

theorem ahead_eq_nil : c.ahead = [] ↔ c.buffer.length ≤ c.position := by
  simp [ahead]

/-! ## Single steps -/

theorem runs_isAtEnd_nil (h : c.ahead = []) : Runs isAtEnd c true c := by
  have hend : c.buffer.length ≤ c.position := ahead_eq_nil.1 h
  simp [Runs, isAtEnd, hend]

theorem runs_isAtEnd_cons (h : c.ahead = b :: rest) : Runs isAtEnd c false c := by
  have hlt := position_lt h
  simp [Runs, isAtEnd, hlt]

theorem runs_here (h : c.ahead = b :: rest) : Runs here c b c := by
  simp [Runs, here, get_position h]

/-- a byte that is not the end of a line -/
theorem runs_advance (h : c.ahead = b :: rest) (hb : b ≠ byte '\n') : Runs advance c b (c.past [b]) := by
  have hcursor : c.past [b] = { c with position := c.position + 1 } := by
    simp [past, Bytes.lineFeeds, List.count_cons_of_ne hb]
  rw [hcursor]
  exact (runs_here h).bind rfl

/-- the end of a line, which is counted afterwards -/
theorem runs_advance_lineFeed (h : c.ahead = byte '\n' :: rest) {f : UInt8 → ByteSteps α} {a : α}
    (hf : Runs (f (byte '\n')) { c with position := c.position + 1 } a c') : Runs (advance >>= f) c a c' :=
  Runs.bind ((runs_here h).bind rfl) hf

theorem runs_newLine (c : ByteCursor) :
    Runs newLine { c with position := c.position + 1 } () (c.past [byte '\n']) := rfl

theorem runs_peek_nil (h : c.ahead = []) : Runs peek c 0 c := (runs_isAtEnd_nil h).bind (runs_pure 0 c)

theorem runs_peek_cons (h : c.ahead = b :: rest) : Runs peek c b c := (runs_isAtEnd_cons h).bind (runs_here h)

theorem runs_accept_nil (h : c.ahead = []) (e : UInt8) : Runs (accept e) c false c :=
  (runs_isAtEnd_nil h).bind (runs_pure false c)

theorem runs_accept_yes (h : c.ahead = b :: rest) (hb : b ≠ byte '\n') : Runs (accept b) c true (c.past [b]) := by
  refine (runs_isAtEnd_cons h).bind ((runs_peek_cons h).bind ?_)
  rw [if_pos rfl]
  exact (runs_advance h hb).bind (runs_pure true _)

theorem runs_accept_no (h : c.ahead = b :: rest) {e : UInt8} (hb : b ≠ e) : Runs (accept e) c false c := by
  refine (runs_isAtEnd_cons h).bind ((runs_peek_cons h).bind ?_)
  rw [if_neg hb]
  exact runs_pure false c

/-- a stretch of the buffer is the text that stands there -/
theorem runs_slice {i j : Nat} {text more : Bytes} (h : c.buffer.drop i = text ++ more) (hi : i ≤ c.buffer.length)
    (hj : j = i + text.length) : Runs (slice i j) c text c := by
  have hlength : j ≤ c.buffer.length := by
    have hdrop := congrArg List.length h
    simp only [List.length_drop, List.length_append] at hdrop
    omega
  subst hj
  simp [Runs, slice, h, hlength]

theorem runs_lexeme {i j : Nat} {text more : Bytes} (h : c.buffer.drop i = text ++ more) (hi : i ≤ c.buffer.length)
    (hj : j = i + text.length) : Runs (lexeme i j) c (Utf8.decode text) c :=
  (runs_slice h hi hj).bind (runs_pure _ c)

theorem runs_before {i j : Nat} (h : i = j + 1) : Runs (before i) c j c := by
  subst h
  rfl

theorem runs_found (kind : TokenKind) (c : ByteCursor) :
    Runs (found kind) c (.ok ()) { c with pending := some kind } := rfl

theorem runs_complain (cause : LexicalFault) (c : ByteCursor) :
    Runs (complain cause) c (.error (.lexical c.line cause.message)) c := rfl

/-- a text on one line is as far as the first end of a line, or all there is -/
theorem findIdx?_lineFeed (rest : Bytes) :
    (rest.findIdx? (· = byte '\n')).getD rest.length = (rest.takeWhile (· != byte '\n')).length := by
  induction rest with
  | nil => rfl
  | cons b rest ih =>
    rw [List.findIdx?_cons]
    by_cases hb : b = byte '\n'
    · simp [hb]
    · rw [List.takeWhile_cons_of_pos (by simpa using hb)]
      simp only [hb, decide_false, Bool.false_eq_true, if_false, List.length_cons, ← ih]
      cases rest.findIdx? (· = byte '\n') <;> rfl

theorem lineFeeds_takeWhile {p : UInt8 → Bool} (hp : p (byte '\n') = false) (rest : Bytes) :
    Bytes.lineFeeds (rest.takeWhile p) = 0 := by
  refine List.count_eq_zero.2 fun hmem => ?_
  rw [List.mem_takeWhile_imp hmem] at hp
  cases hp

theorem runs_skipComment (c : ByteCursor) (h : c.position ≤ c.buffer.length) :
    Runs skipComment c () (c.past (c.ahead.takeWhile (· != byte '\n'))) := by
  have hlength : c.buffer.length - c.position = c.ahead.length := by simp [ahead]
  have hcursor : c.past (c.ahead.takeWhile (· != byte '\n')) =
      { c with position := c.position + (c.ahead.findIdx? (· = byte '\n')).getD c.ahead.length } := by
    rw [past, findIdx?_lineFeed, lineFeeds_takeWhile (by decide)]
    rfl
  have hslice : Runs (slice c.position c.buffer.length) c c.ahead c :=
    runs_slice (List.append_nil c.ahead).symm h (by omega)
  refine (runs_get c).bind (hslice.bind ?_)
  rw [hcursor]
  cases c.ahead.findIdx? (· = byte '\n') with
  | some n => rfl
  | none =>
    have hend : c.position + c.ahead.length = c.buffer.length := by omega
    simp only [Option.getD_none, hend]
    rfl

end ByteCursor

open ByteCursor

namespace Lexicon

/-! ## Loops -/

theorem runs_pass (m : Lexicon) {p : UInt8 → Bool} (hzero : p 0 = false) (hline : p (byte '\n') = false)
    (c : ByteCursor) : Runs (m.pass p) c () (c.past (c.ahead.takeWhile p)) := by
  induction hrest : c.ahead generalizing c with
  | nil =>
    rw [pass]
    refine (runs_peek_nil hrest).bind ?_
    rw [hzero]
    exact runs_pure () c
  | cons b rest ih =>
    rw [pass]
    refine (runs_peek_cons hrest).bind ?_
    by_cases hb : p b = true
    · have hplain : b ≠ byte '\n' := by
        rintro rfl
        rw [hb] at hline
        cases hline
      have hlater := ih (c.past [b]) (ahead_past hrest)
      rw [past_append] at hlater
      rw [if_pos hb, List.takeWhile_cons_of_pos hb]
      exact (runs_advance hrest hplain).bind hlater
    · rw [if_neg hb, List.takeWhile_cons_of_neg hb]
      exact runs_pure () c

theorem runs_passQuoted (m : Lexicon) (c : ByteCursor) :
    Runs m.passQuoted c () (c.past (c.ahead.takeWhile (· != byte '"'))) := by
  induction hrest : c.ahead generalizing c with
  | nil =>
    rw [passQuoted]
    exact (runs_isAtEnd_nil hrest).bind (runs_pure () c)
  | cons b rest ih =>
    rw [passQuoted]
    refine (runs_isAtEnd_cons hrest).bind ((runs_peek_cons hrest).bind ?_)
    by_cases hquote : b = byte '"'
    · rw [if_pos hquote, List.takeWhile_cons_of_neg (by simpa using hquote)]
      exact runs_pure () c
    · have hlater := ih (c.past [b]) (ahead_past hrest)
      rw [past_append] at hlater
      rw [if_neg hquote, List.takeWhile_cons_of_pos (by simpa using hquote)]
      by_cases hline : b = byte '\n'
      · subst hline
        refine runs_advance_lineFeed hrest ?_
        rw [if_pos rfl]
        exact (runs_newLine c).bind hlater
      · refine (runs_advance hrest hline).bind ?_
        rw [if_neg hline]
        exact hlater

/-! ## Segments -/

/-- what the machine says of a segment that ends on the given line -/
def verdict (piece : Piece) (line : Nat) : Except Diagnostic Unit :=
  match piece with
  | .fault cause => .error (.lexical line cause.message)
  | _ => .ok ()

def kind? : Piece → Option TokenKind
  | .token kind => some kind
  | _ => none

/-- from `c` the machine goes over the segment `s`, and keeps the kind of a token -/
def Cuts (m : ByteSteps (Except Diagnostic Unit)) (c : ByteCursor) (read : Bytes) (s : Segment) : Prop :=
  Runs m (c.past read) (verdict s.piece (c.past s.text).line) { c.past s.text with pending := kind? s.piece }

variable {c : ByteCursor} {b : UInt8} {rest : Bytes}

/-- the cursor is where a segment begins -/
structure Begins (c : ByteCursor) (b : UInt8) (rest : Bytes) : Prop where
  ahead : c.ahead = b :: rest
  start : c.start = c.position
  pending : c.pending = none

theorem Begins.buffer (h : Begins c b rest) {text more : Bytes} (hcover : text ++ more = b :: rest) :
    c.buffer.drop c.start = text ++ more := by
  rw [h.start, hcover]
  exact h.ahead

theorem Begins.start_le (h : Begins c b rest) : c.start ≤ c.buffer.length := by
  rw [h.start]
  exact Nat.le_of_lt (position_lt h.ahead)

theorem Begins.past_le (h : Begins c b rest) {text more : Bytes} (hcover : text ++ more = b :: rest) :
    (c.past text).position ≤ c.buffer.length := by
  have hlength := congrArg List.length (h.buffer hcover)
  have hstart := h.start_le
  simp only [List.length_drop, List.length_append] at hlength
  simp only [past, ← h.start]
  omega

/-- the bytes gone over since the segment began -/
theorem Begins.runs_slice (h : Begins c b rest) {text more : Bytes} (hcover : text ++ more = b :: rest) :
    Runs (slice c.start (c.past text).position) (c.past text) text (c.past text) := by
  refine ByteCursor.runs_slice (h.buffer hcover) h.start_le ?_
  rw [h.start]
  rfl

theorem Begins.runs_lexeme (h : Begins c b rest) {text more : Bytes} (hcover : text ++ more = b :: rest) :
    Runs (lexeme c.start (c.past text).position) (c.past text) (Utf8.decode text) (c.past text) :=
  (h.runs_slice hcover).bind (runs_pure _ _)

/-- the kind is kept where the segment ends -/
theorem cuts_found (kind : TokenKind) (c : ByteCursor) (text more : Bytes) :
    Cuts (found kind) c text ⟨.token kind, text, more⟩ := runs_found kind _

theorem cuts_operator (h : Begins c b rest) (short long : TokenKind) :
    Cuts (do if ← accept (byte '=') then found long else found short) c [b] (Segment.operator short long b rest) := by
  have hahead : (c.past [b]).ahead = rest := ahead_past h.ahead
  cases rest with
  | nil => exact (runs_accept_nil hahead _).bind (runs_found short _)
  | cons e rest =>
    simp only [Segment.operator]
    split_ifs with he
    · subst he
      refine (runs_accept_yes hahead (by decide)).bind ?_
      rw [past_append]
      exact runs_found long _
    · exact (runs_accept_no hahead he).bind (runs_found short _)

/-- a segment that is passed over -/
theorem cuts_blank (h : Begins c b rest) (text more : Bytes) : Cuts (pure (.ok ())) c text ⟨.blank, text, more⟩ := by
  have hcursor : ({ c.past text with pending := none } : ByteCursor) = c.past text := by
    rw [past, h.pending]
  show Runs _ _ _ ({ c.past text with pending := none } : ByteCursor)
  rw [hcursor]
  exact runs_pure _ _

/-- a segment that is complained about where it ends -/
theorem cuts_fault (h : Begins c b rest) (cause : LexicalFault) (text more : Bytes) :
    Cuts (complain cause) c text ⟨.fault cause, text, more⟩ := by
  have hcursor : ({ c.past text with pending := none } : ByteCursor) = c.past text := by
    rw [past, h.pending]
  show Runs _ _ _ ({ c.past text with pending := none } : ByteCursor)
  rw [hcursor]
  exact runs_complain cause _

theorem cuts_slash (h : Begins c b rest) : Cuts (do
      if ← accept (byte '/') then
        skipComment
        return .ok ()
      else found .slash) c [b] (Segment.slash b rest) := by
  have hahead : (c.past [b]).ahead = rest := ahead_past h.ahead
  cases rest with
  | nil => exact (runs_accept_nil hahead _).bind (runs_found .slash _)
  | cons e rest =>
    simp only [Segment.slash]
    split_ifs with he
    · subst he
      have hbehind : (c.past [b, byte '/']).ahead = rest := ahead_past h.ahead
      have hcover : [b, byte '/'] ++ rest = b :: byte '/' :: rest := rfl
      have hcomment := runs_skipComment (c.past [b, byte '/']) (h.past_le hcover)
      rw [hbehind, past_append] at hcomment
      refine (runs_accept_yes hahead (by decide)).bind ?_
      rw [past_append]
      exact hcomment.bind (cuts_blank h _ _)
    · exact (runs_accept_no hahead he).bind (runs_found .slash _)

theorem cuts_quoted (m : Lexicon) (h : Begins c b rest) : Cuts m.string c [b] (Segment.quoted b rest) := by
  have hwhole : rest.takeWhile (· != byte '"') ++ rest.dropWhile (· != byte '"') = rest :=
    List.takeWhile_append_dropWhile
  have hbehind : (c.past [b]).ahead = rest := ahead_past h.ahead
  have hpass := runs_passQuoted m (c.past [b])
  rw [hbehind, past_append] at hpass
  refine hpass.bind ?_
  have hahead : (c.past ([b] ++ rest.takeWhile (· != byte '"'))).ahead = rest.dropWhile (· != byte '"') := by
    refine ahead_past ?_
    rw [h.ahead, List.append_assoc, hwhole]
    rfl
  simp only [Segment.quoted]
  cases hrest : rest.dropWhile (· != byte '"') with
  | nil =>
    rw [hrest] at hahead
    refine (runs_isAtEnd_nil hahead).bind ?_
    rw [hrest, List.append_nil] at hwhole
    rw [hwhole]
    exact cuts_fault h .unterminatedString (b :: rest) []
  | cons q after =>
    rw [hrest] at hahead
    have hquote : q = byte '"' := by
      have hstop := List.head?_dropWhile_not (· != byte '"') rest
      rw [hrest] at hstop
      simpa using hstop
    refine (runs_isAtEnd_cons hahead).bind ((runs_advance hahead (by rw [hquote]; decide)).bind ?_)
    rw [past_append]
    -- the content lies between the two quotes
    have hcontent : c.buffer.drop (c.start + 1) = rest.takeWhile (· != byte '"') ++ q :: after := by
      have hbegin : c.buffer.drop c.start = [b] ++ rest := h.buffer rfl
      rw [← List.drop_drop, hbegin, ← hrest, hwhole]
      rfl
    have hstart : c.start + 1 ≤ c.buffer.length := by
      rw [h.start]
      exact position_lt h.ahead
    have hlexeme := runs_lexeme (c := c.past ([b] ++ rest.takeWhile (· != byte '"') ++ [q])) hcontent hstart rfl
    refine (runs_get _).bind ((runs_before ?_).bind (hlexeme.bind ?_))
    · simp only [past, h.start, List.length_append, List.length_cons, List.length_nil]
      omega
    · exact cuts_found _ c _ after

/-- the number that the cursor has gone over -/
theorem cuts_numeral (h : Begins c b rest) {text more : Bytes} (hcover : text ++ more = b :: rest) : Cuts (do
      let c ← get
      let text ← lexeme c.start c.position
      found (.number ((Numeral.read? text.toList).getD 0))) c text ⟨Segment.numeral text, text, more⟩ := by
  refine (runs_get _).bind ((h.runs_lexeme hcover).bind ?_)
  rw [Utf8.decode, String.toList_ofList]
  exact cuts_found _ c text more

theorem cuts_number (m : Lexicon) (h : Begins c b rest) : Cuts m.number c [b] (Segment.number b rest) := by
  have hwhole : rest.takeWhile Bytes.isDigit ++ rest.dropWhile Bytes.isDigit = rest := List.takeWhile_append_dropWhile
  have hbehind : (c.past [b]).ahead = rest := ahead_past h.ahead
  have hpass := runs_pass m (p := Bytes.isDigit) (by decide) (by decide) (c.past [b])
  rw [hbehind, past_append] at hpass
  refine hpass.bind ?_
  have hcover : [b] ++ rest.takeWhile Bytes.isDigit ++ rest.dropWhile Bytes.isDigit = b :: rest := by
    rw [List.append_assoc, hwhole]
    rfl
  have hahead : (c.past ([b] ++ rest.takeWhile Bytes.isDigit)).ahead = rest.dropWhile Bytes.isDigit :=
    ahead_past (h.ahead.trans hcover.symm)
  simp only [Segment.number]
  cases hrest : rest.dropWhile Bytes.isDigit with
  | nil =>
    rw [hrest] at hahead hcover
    exact (runs_accept_nil hahead _).bind (cuts_numeral h hcover)
  | cons e after =>
    rw [hrest] at hahead hcover
    simp only
    split_ifs with hpoint
    · subst hpoint
      have hafter : (c.past ([b] ++ rest.takeWhile Bytes.isDigit ++ [byte '.'])).ahead = after := by
        refine ahead_past ?_
        rw [h.ahead, ← hcover, List.append_assoc _ [byte '.']]
        rfl
      have hfraction := runs_pass m (p := Bytes.isDigit) (by decide) (by decide)
        (c.past ([b] ++ rest.takeWhile Bytes.isDigit ++ [byte '.']))
      rw [hafter, past_append] at hfraction
      refine (runs_accept_yes hahead (by decide)).bind ?_
      rw [past_append]
      refine hfraction.bind ?_
      have htext : [b] ++ rest.takeWhile Bytes.isDigit ++ [byte '.'] ++ after.takeWhile Bytes.isDigit =
          b :: rest.takeWhile Bytes.isDigit ++ byte '.' :: after.takeWhile Bytes.isDigit := by simp
      rw [htext]
      refine cuts_numeral h ?_
      calc
        b :: rest.takeWhile Bytes.isDigit ++ byte '.' :: after.takeWhile Bytes.isDigit ++
            after.dropWhile Bytes.isDigit
        _ = [b] ++ rest.takeWhile Bytes.isDigit ++
            byte '.' :: (after.takeWhile Bytes.isDigit ++ after.dropWhile Bytes.isDigit) := by simp
        _ = b :: rest := by rw [List.takeWhile_append_dropWhile, hcover]
    · exact (runs_accept_no hahead hpoint).bind (cuts_numeral h hcover)

/-- a word is looked up by its bytes -/
theorem keyword?_standard {text : Bytes} (h : ∀ e ∈ text, Bytes.isWord e = true) :
    (standard.keyword? text).getD .identifier = TokenKind.ofWord (Utf8.decode text) := by
  have htext : Utf8.encode (Utf8.decode text) = text := Utf8.encode_decode fun e he => isAscii_of_isWord e (h e he)
  have hsame : ∀ word, Utf8.encode word = text ↔ word = Utf8.decode text := by
    intro word
    constructor
    · rintro rfl
      exact (Utf8.decode_encode word).symm
    · rintro rfl
      exact htext
  have hlookup : ∀ entries : List (String × TokenKind),
      (entries.find? fun entry => Utf8.encode entry.1 = text).map Prod.snd = entries.lookup (Utf8.decode text) := by
    intro entries
    induction entries with
    | nil => rfl
    | cons entry entries ih =>
      obtain ⟨word, kind⟩ := entry
      by_cases hword : word = Utf8.decode text
      · simp [hsame, hword]
      · rw [List.lookup_cons, beq_false_of_ne (Ne.symm hword), ← ih]
        simp [hsame, hword]
  rw [TokenKind.ofWord, ← hlookup]
  rfl

theorem cuts_word (h : Begins c b rest) (hb : Bytes.isLetter b = true) :
    Cuts standard.word c [b] (Segment.spanning Segment.wordPiece Bytes.isWord b rest) := by
  have hwhole : rest.takeWhile Bytes.isWord ++ rest.dropWhile Bytes.isWord = rest := List.takeWhile_append_dropWhile
  have hbehind : (c.past [b]).ahead = rest := ahead_past h.ahead
  have hpass := runs_pass standard (p := Bytes.isWord) (by decide) (by decide) (c.past [b])
  rw [hbehind, past_append] at hpass
  have hletters : ∀ e ∈ b :: rest.takeWhile Bytes.isWord, Bytes.isWord e = true :=
    List.forall_mem_cons.2 ⟨isWord_of_isLetter hb, fun e he => List.mem_takeWhile_imp he⟩
  have hcover : b :: rest.takeWhile Bytes.isWord ++ rest.dropWhile Bytes.isWord = b :: rest := by
    rw [List.cons_append, hwhole]
  refine hpass.bind ((runs_get _).bind ((h.runs_slice hcover).bind ?_))
  rw [keyword?_standard hletters]
  exact cuts_found _ c _ _

/-- the machine goes over the segment that is cut from the bytes ahead -/
theorem cuts_segment (h : Begins c b rest) : Cuts standard.segment c [] (Segment.cut b rest) := by
  rw [Cuts, past_nil, segment]
  by_cases hline : b = byte '\n'
  · subst hline
    refine runs_advance_lineFeed h.ahead ?_
    exact (runs_newLine c).bind (cuts_blank h [byte '\n'] rest)
  · refine (runs_advance h.ahead hline).bind ?_
    rw [← Cuts, Segment.cut]
    simp only [standard]
    cases hpunctuator : Segment.punctuator? b with
    | some kind => exact cuts_found kind c [b] rest
    | none =>
      cases hoperator : Segment.operator? b with
      | some kinds => exact cuts_operator h kinds.1 kinds.2
      | none =>
        have hblank : (b = byte ' ' ∨ b = byte '\r' ∨ b = byte '\t') ↔ Segment.isBlank b = true := by
          simp [Segment.isBlank, hline, or_assoc]
        simp only [hblank, if_neg hline]
        split_ifs with hspace hslash hquote hdigit hletter
        · exact cuts_blank h [b] rest
        · exact cuts_slash h
        · exact cuts_quoted _ h
        · exact cuts_number _ h
        · exact cuts_word h hletter
        · exact cuts_fault h .unexpectedCharacter [b] rest

/-! ## Items -/

def behind (c : ByteCursor) (s : Segment) : ByteCursor := { c.past s.text with start := c.position, pending := none }

theorem ahead_behind (h : c.ahead = b :: rest) : (behind c (Segment.cut b rest)).ahead = (Segment.cut b rest).rest :=
  ahead_past (h.trans (Segment.cut_text_append_rest b rest).symm)

/-- **One round of the machine** hands over the item of the segment that is cut from the bytes ahead, and goes behind
it. -/
theorem runs_round (h : c.ahead = b :: rest) : Runs standard.round c
    ((Segment.cut b rest).item? (c.line + Bytes.lineFeeds (Segment.cut b rest).text))
    (behind c (Segment.cut b rest)) := by
  have hcover := Segment.cut_text_append_rest b rest
  have hbegins : Begins { c with start := c.position, pending := none } b rest := ⟨h, rfl, rfl⟩
  refine (runs_modify _ c).bind ((cuts_segment hbegins).bind ?_)
  rw [behind, Segment.item?]
  cases hpiece : (Segment.cut b rest).piece with
  | blank => exact (runs_get _).bind (runs_pure _ _)
  | fault cause => exact runs_pure _ _
  | token kind =>
    refine (runs_get _).bind ((runs_set _ _).bind ?_)
    exact (hbegins.runs_lexeme hcover).bind (runs_pure _ _)

end Lexicon

/-- what the machine has still to hand out -/
def ByteCursor.stream (c : ByteCursor) : TokenStream := ⟨c.ahead, c.line, decide (c.buffer.length < c.position)⟩

theorem ByteCursor.stream_eq_open {c : ByteCursor} {source : Bytes} {line : Nat} :
    c.stream = ⟨source, line, false⟩ ↔ c.ahead = source ∧ c.line = line ∧ c.position ≤ c.buffer.length := by
  simp [stream]

/-- the machine when a source has been taken up -/
def ByteCursor.loaded (source : Source) : ByteCursor := ⟨source.content, 0, 0, 1, none⟩

theorem ByteCursor.stream_loaded (source : Source) : (loaded source).stream = .load source := rfl

/-- whatever the machine held, it is at the beginning of what arrived -/
theorem ByteCursor.runs_load (source : Source) (c : ByteCursor) :
    Runs (load source) c (if source.broken then .error .unreadable else .ok ()) (loaded source) := by
  refine (runs_set c _).bind ((runs_modify _ _).bind ?_)
  cases source.broken <;> exact runs_pure _ _

namespace Lexicon

theorem stream_behind {c : ByteCursor} {b : UInt8} {rest : Bytes} (h : c.ahead = b :: rest) :
    (behind c (Segment.cut b rest)).stream =
      ⟨(Segment.cut b rest).rest, c.line + Bytes.lineFeeds (Segment.cut b rest).text, false⟩ := by
  have hbegins : Begins { c with start := c.position, pending := none } b rest := ⟨h, rfl, rfl⟩
  exact stream_eq_open.2 ⟨ahead_behind h, rfl, hbegins.past_le (Segment.cut_text_append_rest b rest)⟩

/-- where there is a byte, a round is made, and another one unless the round has an item -/
theorem runs_next_ahead {m : Lexicon} {c c' c'' : ByteCursor} {item item' : Option Item}
    (h : c.position < c.buffer.length) (hround : Runs m.round c item c')
    (hlater : Runs (match item with | some item => return some item | none => m.next) c' item' c'') :
    Runs m.next c item' c'' := by
  rw [next]
  refine (runs_get c).bind ?_
  rw [if_neg (Nat.not_lt.2 h.le), if_neg h.ne]
  exact hround.bind hlater

theorem runs_next_end (m : Lexicon) {c : ByteCursor} (h : c.position = c.buffer.length) :
    Runs m.next c (some (.token (.atEnd c.line))) { c with position := c.position + 1 } := by
  rw [next]
  refine (runs_get c).bind ?_
  rw [if_neg (Nat.not_lt.2 h.le), if_pos h]
  exact (runs_set _ _).bind (runs_pure _ _)

theorem runs_next_ended (m : Lexicon) {c : ByteCursor} (h : c.buffer.length < c.position) : Runs m.next c none c := by
  rw [next]
  refine (runs_get c).bind ?_
  rw [if_pos h]
  exact runs_pure _ _

theorem runs_nextFrom (source : Bytes) (line : Nat) : ∀ c : ByteCursor, c.stream = ⟨source, line, false⟩ →
    ∃ c', Runs standard.next c (some (TokenStream.nextFrom source line).1) c' ∧
      c'.stream = (TokenStream.nextFrom source line).2 := by
  fun_induction TokenStream.nextFrom source line with
  | case1 line =>
    intro c hc
    obtain ⟨hahead, rfl, hle⟩ := stream_eq_open.1 hc
    have hend : c.position = c.buffer.length := Nat.le_antisymm hle (ahead_eq_nil.1 hahead)
    refine ⟨_, runs_next_end _ hend, ?_⟩
    simp [stream, ahead, hend]
  | case2 b rest line segment line' item hitem =>
    intro c hc
    obtain ⟨hahead, rfl, -⟩ := stream_eq_open.1 hc
    have hround := runs_round hahead
    rw [hitem] at hround
    exact ⟨behind c segment, runs_next_ahead (position_lt hahead) hround (runs_pure _ _), stream_behind hahead⟩
  | case3 b rest line segment line' hitem ih =>
    intro c hc
    obtain ⟨hahead, rfl, -⟩ := stream_eq_open.1 hc
    have hround := runs_round hahead
    rw [hitem] at hround
    obtain ⟨c', hnext, hc'⟩ := ih (behind c segment) (stream_behind hahead)
    exact ⟨c', runs_next_ahead (position_lt hahead) hround hnext, hc'⟩

/-- **The machine hands out what a stream hands out**: from every cursor, the next item is that of the bytes ahead, and
so is all that comes after it. -/
theorem runs_next (c : ByteCursor) : ∃ c', Runs standard.next c (c.stream.next.map Prod.fst) c' ∧
    c'.stream = (c.stream.next.map Prod.snd).getD c.stream := by
  by_cases hended : c.buffer.length < c.position
  · have hnone : c.stream.next = none := by simp [stream, TokenStream.next, hended]
    rw [hnone]
    exact ⟨c, runs_next_ended _ hended, rfl⟩
  · have hopen : c.stream = ⟨c.ahead, c.line, false⟩ := stream_eq_open.2 ⟨rfl, rfl, Nat.not_lt.1 hended⟩
    obtain ⟨c', hnext, hc'⟩ := runs_nextFrom c.ahead c.line c hopen
    rw [hopen]
    exact ⟨c', hnext, hc'⟩

theorem runs_collect (s : TokenStream) : ∀ (c : ByteCursor) (handed : List Item), c.stream = s →
    ∃ c', Runs (standard.collect handed) c (handed ++ s.drain.1) c' ∧ c'.stream = s.drain.2 := by
  fun_induction TokenStream.drain s with
  | case1 s hnone =>
    intro c handed hc
    subst hc
    obtain ⟨c', hnext, hc'⟩ := runs_next c
    rw [hnone] at hnext hc'
    refine ⟨c', ?_, hc'⟩
    rw [collect, List.append_nil]
    exact hnext.bind (runs_pure _ _)
  | case2 s item t hnext later ih =>
    intro c handed hc
    subst hc
    obtain ⟨c', hstep, hc'⟩ := runs_next c
    rw [hnext] at hstep hc'
    obtain ⟨c'', hlater, hc''⟩ := ih c' (handed ++ [item]) hc'
    refine ⟨c'', ?_, hc''⟩
    rw [List.append_assoc, List.singleton_append] at hlater
    rw [collect]
    exact hstep.bind hlater

/-- all items of what is taken up, whether or not it was read to its end -/
theorem runs_load_collect (source : Source) (c : ByteCursor) : ∃ c',
    Runs (load source >>= fun _ => standard.collect []) c (TokenStream.load source).drain.1 c' := by
  obtain ⟨c', hcollect, -⟩ := runs_collect (.load source) (loaded source) [] (stream_loaded source)
  exact ⟨c', (runs_load source c).bind hcollect⟩

end Lexicon

end Scriptlet
