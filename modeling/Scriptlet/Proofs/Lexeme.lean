/-
Lexical classes. `Lexeme text piece` says that the bytes `text` are a word of the lexical language and what they stand
for. The classes are given by their texts alone, without regard to what stands behind them; which part of a source is
cut off is then decided by length: it is the longest prefix that is a lexeme.

- `Segment.lexeme_or_fault`: what is cut off is a lexeme or a fault.
- `Lexeme.outrun`: no lexeme that the source begins with is longer than what is cut off, and one of the same length
  stands for the same.
-/
import Mathlib.Data.List.TakeWhile
import Scriptlet.Proofs.Octets
import Scriptlet.Token.Segment

namespace Scriptlet

def punctuators : List (Char × TokenKind) :=
  [('(', .leftParen), (')', .rightParen), ('\x7b', .leftBrace), ('\x7d', .rightBrace), (',', .comma), ('-', .minus),
   ('+', .plus), (';', .semicolon), ('*', .star)]

/-- the operators that may have to be told from longer ones -/
def operators : List (List Char × TokenKind) :=
  [(['!'], .bang), (['!', '='], .bangEqual), (['='], .equal), (['=', '='], .equalEqual), (['<'], .less),
   (['<', '='], .lessEqual), (['>'], .greater), (['>', '='], .greaterEqual), (['/'], .slash)]

/-- the words of the lexical language, and what they stand for -/
inductive Lexeme : Bytes → Piece → Prop where
  /-- a space, a tabulator or the end of a line -/
  | blank {b : UInt8} (h : b = byte ' ' ∨ b = byte '\r' ∨ b = byte '\t' ∨ b = byte '\n') : Lexeme [b] .blank
  /-- two slashes and more, on one line -/
  | comment {body : Bytes} (h : ∀ b ∈ body, b ≠ byte '\n') : Lexeme (byte '/' :: byte '/' :: body) .blank
  | punctuator {c : Char} {kind : TokenKind} (h : (c, kind) ∈ punctuators) : Lexeme [byte c] (.token kind)
  | operator {text : List Char} {kind : TokenKind} (h : (text, kind) ∈ operators) :
    Lexeme (text.map byte) (.token kind)
  /-- quotes around anything but a quote -/
  | string {body : Bytes} (h : ∀ b ∈ body, b ≠ byte '"') :
    Lexeme (byte '"' :: (body ++ [byte '"'])) (.token (.string (Utf8.decode body)))
  | whole {b : UInt8} {digits : Bytes} (hb : Bytes.isDigit b = true) (h : ∀ c ∈ digits, Bytes.isDigit c = true) :
    Lexeme (b :: digits) (Segment.numeral (b :: digits))
  /-- digits, a point, and any number of digits -/
  | decimal {b : UInt8} {digits fraction : Bytes} (hb : Bytes.isDigit b = true)
    (h : ∀ c ∈ digits, Bytes.isDigit c = true) (hfraction : ∀ c ∈ fraction, Bytes.isDigit c = true) :
    Lexeme (b :: (digits ++ byte '.' :: fraction)) (Segment.numeral (b :: (digits ++ byte '.' :: fraction)))
  | keyword {word : String} {kind : TokenKind} (h : (word, kind) ∈ TokenKind.keywords) :
    Lexeme (Utf8.encode word) (.token kind)
  /-- a letter and then letters and digits, unless they are a keyword -/
  | identifier {b : UInt8} {rest : Bytes} (hb : Bytes.isLetter b = true) (h : ∀ c ∈ rest, Bytes.isWord c = true)
    (hword : ∀ word kind, (word, kind) ∈ TokenKind.keywords → b :: rest ≠ Utf8.encode word) :
    Lexeme (b :: rest) (.token .identifier)

namespace Segment

/-! ## What the first byte decides -/

theorem cut_blank {b : UInt8} (h : b = byte ' ' ∨ b = byte '\r' ∨ b = byte '\t' ∨ b = byte '\n') (rest : Bytes) :
    cut b rest = single .blank b rest := by
  rcases h with rfl | rfl | rfl | rfl <;> rfl

theorem cut_punctuator {c : Char} {kind : TokenKind} (h : (c, kind) ∈ punctuators) (rest : Bytes) :
    cut (byte c) rest = single (.token kind) (byte c) rest := by
  simp only [punctuators, List.mem_cons, Prod.mk.injEq, List.not_mem_nil, or_false] at h
  rcases h with ⟨rfl, rfl⟩ | ⟨rfl, rfl⟩ | ⟨rfl, rfl⟩ | ⟨rfl, rfl⟩ | ⟨rfl, rfl⟩ | ⟨rfl, rfl⟩ | ⟨rfl, rfl⟩ | ⟨rfl, rfl⟩ |
    ⟨rfl, rfl⟩ <;> rfl

theorem cut_quote (rest : Bytes) : cut (byte '"') rest = quoted (byte '"') rest := rfl

theorem digit_first : ∀ b : UInt8, Bytes.isDigit b = true →
    punctuator? b = none ∧ operator? b = none ∧ isBlank b = false ∧ b ≠ byte '/' ∧ b ≠ byte '"' :=
  forall_byte (by decide +kernel)

theorem letter_first : ∀ b : UInt8, Bytes.isLetter b = true →
    punctuator? b = none ∧ operator? b = none ∧ isBlank b = false ∧ b ≠ byte '/' ∧ b ≠ byte '"' ∧
      Bytes.isDigit b = false :=
  forall_byte (by decide +kernel)

theorem cut_digit {b : UInt8} (h : Bytes.isDigit b = true) (rest : Bytes) : cut b rest = number b rest := by
  obtain ⟨hp, ho, hblank, hslash, hquote⟩ := digit_first b h
  simp [cut, hp, ho, hblank, hslash, hquote, h]

theorem cut_letter {b : UInt8} (h : Bytes.isLetter b = true) (rest : Bytes) :
    cut b rest = spanning wordPiece Bytes.isWord b rest := by
  obtain ⟨hp, ho, hblank, hslash, hquote, hdigit⟩ := letter_first b h
  simp [cut, hp, ho, hblank, hslash, hquote, hdigit, h]

theorem punctuator?_mem : ∀ b : UInt8, ∀ kind ∈ punctuator? b,
    byte (Char.ofUInt8 b) = b ∧ (Char.ofUInt8 b, kind) ∈ punctuators :=
  forall_byte (by decide +kernel)

theorem operator?_mem : ∀ b : UInt8, ∀ kinds ∈ operator? b, byte (Char.ofUInt8 b) = b ∧
    ([Char.ofUInt8 b], kinds.1) ∈ operators ∧ ([Char.ofUInt8 b, '='], kinds.2) ∈ operators :=
  forall_byte (by decide +kernel)

/-! ## What is cut off -/

theorem operator_lexeme {b : UInt8} {short long : TokenKind} (hshort : Lexeme [b] (.token short))
    (hlong : Lexeme [b, byte '='] (.token long)) (rest : Bytes) :
    Lexeme (operator short long b rest).text (operator short long b rest).piece := by
  cases rest with
  | nil => exact hshort
  | cons c rest =>
    simp only [operator]
    split
    · rename_i hc
      rw [hc]
      exact hlong
    · exact hshort

theorem slash_lexeme (rest : Bytes) : Lexeme (slash (byte '/') rest).text (slash (byte '/') rest).piece := by
  have hslash : Lexeme [byte '/'] (.token .slash) := .operator (show (['/'], _) ∈ operators by decide)
  cases rest with
  | nil => exact hslash
  | cons c rest =>
    simp only [slash]
    split
    · rename_i hc
      rw [hc]
      exact .comment fun b hb => by simpa using List.mem_takeWhile_imp hb
    · exact hslash

theorem number_lexeme {b : UInt8} (hb : Bytes.isDigit b = true) (rest : Bytes) :
    Lexeme (number b rest).text (number b rest).piece := by
  have hdigits : ∀ c ∈ rest.takeWhile Bytes.isDigit, Bytes.isDigit c = true := fun c hc => List.mem_takeWhile_imp hc
  simp only [number]
  split
  · exact .whole hb hdigits
  · rename_i c after _
    split
    · rename_i hc
      rw [hc]
      exact .decimal hb hdigits fun d hd => List.mem_takeWhile_imp hd
    · exact .whole hb hdigits

theorem quoted_lexeme (rest : Bytes) : quoted (byte '"') rest = ⟨.fault .unterminatedString, byte '"' :: rest, []⟩ ∨
    Lexeme (quoted (byte '"') rest).text (quoted (byte '"') rest).piece := by
  have hbody : ∀ b ∈ rest.takeWhile (· != byte '"'), b ≠ byte '"' := fun b hb => by
    simpa using List.mem_takeWhile_imp hb
  simp only [quoted]
  split
  · exact .inl rfl
  · rename_i q after hq
    have hclose : q = byte '"' := by
      have hstop := List.head?_dropWhile_not (· != byte '"') rest
      rw [hq] at hstop
      simpa using hstop
    rw [hclose]
    exact .inr (.string hbody)

end Segment

/-! ## Words -/

theorem isAscii_of_isWord : ∀ b : UInt8, Bytes.isWord b = true → Utf8.isAscii b = true :=
  forall_byte (by decide +kernel)

theorem isWord_of_isLetter {b : UInt8} (h : Bytes.isLetter b = true) : Bytes.isWord b = true := by
  simp [Bytes.isWord, h]

theorem ofWord_keyword {word : String} {kind : TokenKind} (h : (word, kind) ∈ TokenKind.keywords) :
    TokenKind.ofWord (Utf8.decode (Utf8.encode word)) = kind := by
  have hkind : ∀ entry ∈ TokenKind.keywords, TokenKind.ofWord entry.1 = entry.2 := by decide +kernel
  rw [Utf8.decode_encode]
  exact hkind _ h

theorem ofWord_identifier {text : Bytes} (h : ∀ b ∈ text, Bytes.isWord b = true)
    (hword : ∀ word kind, (word, kind) ∈ TokenKind.keywords → text ≠ Utf8.encode word) :
    TokenKind.ofWord (Utf8.decode text) = .identifier := by
  have hnone : TokenKind.keywords.lookup (Utf8.decode text) = none := by
    refine List.lookup_eq_none_iff.2 fun entry hentry => ?_
    by_contra hfound
    have hsame : Utf8.decode text = entry.1 := by simpa using hfound
    have htext := Utf8.encode_decode fun b hb => isAscii_of_isWord b (h b hb)
    exact hword entry.1 entry.2 hentry (by rw [← hsame, htext])
  rw [TokenKind.ofWord, hnone]
  rfl

namespace Segment

theorem word_lexeme {b : UInt8} (hb : Bytes.isLetter b = true) (rest : Bytes) :
    Lexeme (spanning wordPiece Bytes.isWord b rest).text (spanning wordPiece Bytes.isWord b rest).piece := by
  have hrest : ∀ c ∈ rest.takeWhile Bytes.isWord, Bytes.isWord c = true := fun c hc => List.mem_takeWhile_imp hc
  simp only [spanning, wordPiece]
  by_cases h : ∃ word kind, (word, kind) ∈ TokenKind.keywords ∧ b :: rest.takeWhile Bytes.isWord = Utf8.encode word
  · obtain ⟨word, kind, hmem, htext⟩ := h
    rw [htext, ofWord_keyword hmem]
    exact .keyword hmem
  · have hword : ∀ word kind, (word, kind) ∈ TokenKind.keywords → b :: rest.takeWhile Bytes.isWord ≠ Utf8.encode word :=
      fun word kind hmem htext => h ⟨word, kind, hmem, htext⟩
    rw [ofWord_identifier (List.forall_mem_cons.2 ⟨isWord_of_isLetter hb, hrest⟩) hword]
    exact .identifier hb hrest hword

/-- what is cut off is a lexeme, an open string with all that is left, or a byte that no lexeme begins with -/
theorem lexeme_or_fault (b : UInt8) (rest : Bytes) :
    Lexeme (cut b rest).text (cut b rest).piece ∨
    (b = byte '"' ∧ cut b rest = ⟨.fault .unterminatedString, b :: rest, []⟩) ∨
    (b ≠ byte '"' ∧ cut b rest = single (.fault .unexpectedCharacter) b rest) := by
  unfold cut
  split
  · rename_i _ kind hkind
    obtain ⟨hb, hmem⟩ := punctuator?_mem b kind hkind
    exact .inl (hb ▸ .punctuator hmem)
  · rename_i short long _ hkinds
    obtain ⟨hb, hshort, hlong⟩ := operator?_mem b _ hkinds
    rw [← hb]
    exact .inl (operator_lexeme (.operator hshort) (.operator hlong) rest)
  · split_ifs with hblank hslash hquote hdigit hletter
    · exact .inl (.blank (by simpa [isBlank, or_assoc] using hblank))
    · rw [hslash]
      exact .inl (slash_lexeme rest)
    · rw [hquote]
      rcases quoted_lexeme rest with hopen | hclosed
      · exact .inr (.inl ⟨rfl, hopen⟩)
      · exact .inl hclosed
    · exact .inl (number_lexeme hdigit rest)
    · exact .inl (word_lexeme hletter rest)
    · exact .inr (.inr ⟨hquote, rfl⟩)

/-! ## Nothing longer -/

/-- the segment is no fault, is at least as long as the text, and stands for the same if it is the text -/
structure Outruns (s : Segment) (text : Bytes) (piece : Piece) : Prop where
  sound : ∀ cause, s.piece ≠ .fault cause
  longer : text.length ≤ s.text.length
  same : s.text = text → s.piece = piece

theorem prefix_takeWhile {p : UInt8 → Bool} {text rest : Bytes} (h : ∀ b ∈ text, p b = true) (hrest : text <+: rest) :
    text <+: rest.takeWhile p := by
  obtain ⟨more, rfl⟩ := hrest
  rw [List.takeWhile_append_of_pos h]
  exact List.prefix_append _ _

theorem takeWhile_upto {α : Type} {p : α → Bool} {text rest : List α} {b : α} (h : ∀ c ∈ text, p c = true)
    (hb : p b = false) : (text ++ b :: rest).takeWhile p = text := by
  simp [List.takeWhile_append_of_pos h, hb]

theorem dropWhile_upto {α : Type} {p : α → Bool} {text rest : List α} {b : α} (h : ∀ c ∈ text, p c = true)
    (hb : p b = false) : (text ++ b :: rest).dropWhile p = b :: rest := by
  simp [List.dropWhile_append_of_pos h, hb]

theorem single_outruns (kind : TokenKind) (b : UInt8) (rest : Bytes) :
    (single (.token kind) b rest).Outruns [b] (.token kind) :=
  ⟨nofun, Nat.le_refl _, fun _ => rfl⟩

theorem operator_outruns_short (short long : TokenKind) (b : UInt8) (rest : Bytes) :
    (operator short long b rest).Outruns [b] (.token short) := by
  cases rest with
  | nil => exact single_outruns short b []
  | cons c rest =>
    simp only [operator]
    split
    · exact ⟨by simp, by simp, by simp⟩
    · exact single_outruns short b _

theorem operator_outruns_long (short long : TokenKind) (b : UInt8) {rest : Bytes} (h : [byte '='] <+: rest) :
    (operator short long b rest).Outruns [b, byte '='] (.token long) := by
  obtain ⟨more, rfl⟩ := h
  simp only [operator, List.singleton_append, if_true]
  exact ⟨by simp, Nat.le_refl _, fun _ => rfl⟩

theorem slash_outruns (rest : Bytes) : (slash (byte '/') rest).Outruns [byte '/'] (.token .slash) := by
  cases rest with
  | nil => exact single_outruns .slash _ []
  | cons c rest =>
    simp only [slash]
    split
    · exact ⟨by simp, by simp, by simp⟩
    · exact single_outruns .slash _ _

theorem comment_outruns {body rest : Bytes} (h : ∀ b ∈ body, b ≠ byte '\n') (hrest : body <+: rest) :
    (slash (byte '/') (byte '/' :: rest)).Outruns (byte '/' :: byte '/' :: body) .blank := by
  have hbody := (prefix_takeWhile (p := (· != byte '\n')) (fun b hb => by simpa using h b hb) hrest).length_le
  simp only [slash, if_true]
  exact ⟨by simp, by simpa using hbody, fun _ => rfl⟩

/-- a string ends with the first quote behind its beginning -/
theorem quoted_closed {body : Bytes} (h : ∀ b ∈ body, b ≠ byte '"') (rest : Bytes) :
    quoted (byte '"') (body ++ byte '"' :: rest) =
      ⟨.token (.string (Utf8.decode body)), byte '"' :: (body ++ [byte '"']), rest⟩ := by
  have hbody : ∀ b ∈ body, (b != byte '"') = true := fun b hb => by simpa using h b hb
  simp only [quoted, takeWhile_upto hbody (bne_self_eq_false _), dropWhile_upto hbody (bne_self_eq_false _),
    List.cons_append]

theorem quoted_outruns {body : Bytes} (h : ∀ b ∈ body, b ≠ byte '"') (rest : Bytes) :
    (quoted (byte '"') (body ++ byte '"' :: rest)).Outruns (byte '"' :: (body ++ [byte '"']))
      (.token (.string (Utf8.decode body))) := by
  rw [quoted_closed h]
  exact ⟨by simp, Nat.le_refl _, fun _ => rfl⟩

theorem number_piece (b : UInt8) (rest : Bytes) : (number b rest).piece = numeral (number b rest).text := by
  simp only [number]
  split
  · rfl
  · split <;> rfl

theorem number_outruns {b : UInt8} {rest text : Bytes} (h : text.length ≤ (number b rest).text.length) :
    (number b rest).Outruns text (numeral text) := by
  refine ⟨?_, h, fun hsame => ?_⟩
  · rw [number_piece]
    exact nofun
  · rw [number_piece, hsame]

theorem whole_outruns {b : UInt8} {digits rest : Bytes} (h : ∀ c ∈ digits, Bytes.isDigit c = true)
    (hrest : digits <+: rest) : (number b rest).Outruns (b :: digits) (numeral (b :: digits)) := by
  have hdigits := (prefix_takeWhile h hrest).length_le
  refine number_outruns ?_
  simp only [number]
  split
  · simpa using hdigits
  · split
    · simp only [List.length_cons, List.length_append]
      omega
    · simpa using hdigits

theorem decimal_outruns {b : UInt8} {digits fraction rest : Bytes} (h : ∀ c ∈ digits, Bytes.isDigit c = true)
    (hfraction : ∀ c ∈ fraction, Bytes.isDigit c = true) (hrest : fraction <+: rest) :
    (number b (digits ++ byte '.' :: rest)).Outruns (b :: (digits ++ byte '.' :: fraction))
      (numeral (b :: (digits ++ byte '.' :: fraction))) := by
  have hdigits := (prefix_takeWhile hfraction hrest).length_le
  have hpoint : Bytes.isDigit (byte '.') = false := by decide
  refine number_outruns ?_
  simp only [number, takeWhile_upto h hpoint, dropWhile_upto h hpoint, if_true]
  simpa using hdigits

theorem word_outruns {b : UInt8} {text rest : Bytes} {kind : TokenKind} (h : ∀ c ∈ text, Bytes.isWord c = true)
    (hrest : text <+: rest) (hkind : TokenKind.ofWord (Utf8.decode (b :: text)) = kind) :
    (spanning wordPiece Bytes.isWord b rest).Outruns (b :: text) (.token kind) := by
  refine ⟨nofun, ?_, fun hsame => ?_⟩
  · simpa [spanning] using (prefix_takeWhile h hrest).length_le
  · rw [spanning] at hsame ⊢
    simp only at hsame ⊢
    rw [hsame, wordPiece, hkind]

end Segment

/-- the letters of a keyword -/
theorem keyword_letters {word : String} {kind : TokenKind} (h : (word, kind) ∈ TokenKind.keywords) :
    ∃ b text, Utf8.encode word = b :: text ∧ Bytes.isLetter b = true ∧ ∀ c ∈ text, Bytes.isWord c = true := by
  simp only [TokenKind.keywords, List.mem_cons, Prod.mk.injEq, List.not_mem_nil, or_false] at h
  rcases h with ⟨rfl, rfl⟩ | ⟨rfl, rfl⟩ | ⟨rfl, rfl⟩ | ⟨rfl, rfl⟩ | ⟨rfl, rfl⟩ | ⟨rfl, rfl⟩ | ⟨rfl, rfl⟩ | ⟨rfl, rfl⟩ |
    ⟨rfl, rfl⟩ | ⟨rfl, rfl⟩ | ⟨rfl, rfl⟩ | ⟨rfl, rfl⟩ <;> exact ⟨_, _, rfl, by decide, by decide +kernel⟩

open Segment

theorem operator_outrun {text : List Char} {kind : TokenKind} (h : (text, kind) ∈ operators) {b : UInt8} {rest : Bytes}
    (hsource : text.map byte <+: b :: rest) : (cut b rest).Outruns (text.map byte) (.token kind) := by
  simp only [operators, List.mem_cons, Prod.mk.injEq, List.not_mem_nil, or_false] at h
  rcases h with ⟨rfl, rfl⟩ | ⟨rfl, rfl⟩ | ⟨rfl, rfl⟩ | ⟨rfl, rfl⟩ | ⟨rfl, rfl⟩ | ⟨rfl, rfl⟩ | ⟨rfl, rfl⟩ | ⟨rfl, rfl⟩ |
    ⟨rfl, rfl⟩ <;> obtain ⟨rfl, hrest⟩ := List.cons_prefix_cons.1 hsource
  · exact operator_outruns_short .bang .bangEqual _ rest
  · exact operator_outruns_long .bang .bangEqual _ hrest
  · exact operator_outruns_short .equal .equalEqual _ rest
  · exact operator_outruns_long .equal .equalEqual _ hrest
  · exact operator_outruns_short .less .lessEqual _ rest
  · exact operator_outruns_long .less .lessEqual _ hrest
  · exact operator_outruns_short .greater .greaterEqual _ rest
  · exact operator_outruns_long .greater .greaterEqual _ hrest
  · exact slash_outruns rest

/-- **Nothing longer could have been cut off**: whatever lexeme a source begins with, what is cut off is no fault and is
at least as long. -/
theorem Lexeme.outrun {text : Bytes} {piece : Piece} (h : Lexeme text piece) {b : UInt8} {rest : Bytes}
    (hsource : text <+: b :: rest) : (cut b rest).Outruns text piece := by
  cases h with
  | blank hb =>
    obtain ⟨rfl, -⟩ := List.cons_prefix_cons.1 hsource
    rw [cut_blank hb]
    exact ⟨nofun, Nat.le_refl _, fun _ => rfl⟩
  | comment hbody =>
    obtain ⟨rfl, hrest⟩ := List.cons_prefix_cons.1 hsource
    cases rest with
    | nil => simp at hrest
    | cons c rest =>
      obtain ⟨rfl, hbehind⟩ := List.cons_prefix_cons.1 hrest
      exact comment_outruns hbody hbehind
  | punctuator hmem =>
    obtain ⟨rfl, -⟩ := List.cons_prefix_cons.1 hsource
    rw [cut_punctuator hmem]
    exact single_outruns _ _ _
  | operator hmem => exact operator_outrun hmem hsource
  | string hbody =>
    obtain ⟨rfl, more, hrest⟩ := List.cons_prefix_cons.1 hsource
    rw [← hrest, List.append_assoc, cut_quote]
    exact quoted_outruns hbody more
  | whole hb hdigits =>
    obtain ⟨rfl, hrest⟩ := List.cons_prefix_cons.1 hsource
    rw [cut_digit hb]
    exact whole_outruns hdigits hrest
  | decimal hb hdigits hfraction =>
    obtain ⟨rfl, more, hrest⟩ := List.cons_prefix_cons.1 hsource
    rw [cut_digit hb, ← hrest, List.append_assoc]
    exact decimal_outruns hdigits hfraction (List.prefix_append _ more)
  | keyword hmem =>
    obtain ⟨c, letters, hword, hc, hletters⟩ := keyword_letters hmem
    have hkind := ofWord_keyword hmem
    rw [hword] at hsource hkind ⊢
    obtain ⟨rfl, hrest⟩ := List.cons_prefix_cons.1 hsource
    rw [cut_letter hc]
    exact word_outruns hletters hrest hkind
  | identifier hb hletters hword =>
    obtain ⟨rfl, hrest⟩ := List.cons_prefix_cons.1 hsource
    rw [cut_letter hb]
    exact word_outruns hletters hrest
      (ofWord_identifier (List.forall_mem_cons.2 ⟨isWord_of_isLetter hb, hletters⟩) hword)

/-- a string is quotes around what it stands for -/
theorem Lexeme.string_text {text : Bytes} {content : String} (h : Lexeme text (.token (.string content))) : ∃ body,
    (∀ b ∈ body, b ≠ byte '"') ∧ text = byte '"' :: (body ++ [byte '"']) ∧ content = Utf8.decode body := by
  cases h with
  | punctuator hmem => simp [punctuators] at hmem
  | operator hmem => simp [operators] at hmem
  | string hbody => exact ⟨_, hbody, rfl, rfl⟩
  | keyword hmem => simp [TokenKind.keywords] at hmem

end Scriptlet
