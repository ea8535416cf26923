/-
Tokens written out and cut again. The text of a token is enough to get the token back: if the texts of the tokens of any
source, however faulty, are written one behind the other with single spaces between them, the result has no fault and
its tokens are the same ones, on other lines perhaps.

Two things are needed. The text of a token, encoded, is a lexeme that stands for the token (`Lexeme.respelled`): for a
string this is so although the bytes need not be those of the source, since what was ill-formed has been replaced once
and for all. And a lexeme in front of a space is cut off as a whole (`Lexeme.cut_parted`), so neither does it go on into
the next one nor can the next one change it.

- `Division.respaced`: tokens whose texts stand for them, written out.
- `Lexing.ofBytes_respaced`: the tokens of any source.
-/
import Scriptlet.Proofs.Relayout

namespace Scriptlet

open Segment

/-! ## Lexemes in front of a space -/

/-- nothing comes next, or a space does -/
def Parted (more : Bytes) : Prop := ∀ b ∈ more.head?, b = byte ' '

theorem takeWhile_parted {p : UInt8 → Bool} (hp : p (byte ' ') = false) {text more : Bytes}
    (h : ∀ b ∈ text, p b = true) (hmore : Parted more) : (text ++ more).takeWhile p = text := by
  cases more with
  | nil => rw [List.append_nil, List.takeWhile_eq_self_iff.2 h]
  | cons b more =>
    obtain rfl := hmore b rfl
    exact takeWhile_upto h hp

theorem dropWhile_parted {p : UInt8 → Bool} (hp : p (byte ' ') = false) {text more : Bytes}
    (h : ∀ b ∈ text, p b = true) (hmore : Parted more) : (text ++ more).dropWhile p = more := by
  cases more with
  | nil => rw [List.append_nil, List.dropWhile_eq_nil_iff.2 h]
  | cons b more =>
    obtain rfl := hmore b rfl
    exact dropWhile_upto h hp

namespace Segment

theorem operator_parted (short long : TokenKind) (b : UInt8) {more : Bytes} (hmore : Parted more) :
    operator short long b more = single (.token short) b more := by
  cases more with
  | nil => rfl
  | cons c more =>
    obtain rfl := hmore c rfl
    rfl

theorem slash_parted (b : UInt8) {more : Bytes} (hmore : Parted more) :
    slash b more = single (.token .slash) b more := by
  cases more with
  | nil => rfl
  | cons c more =>
    obtain rfl := hmore c rfl
    rfl

theorem number_whole {b : UInt8} {digits more : Bytes} (h : ∀ c ∈ digits, Bytes.isDigit c = true)
    (hmore : Parted more) :
    number b (digits ++ more) = ⟨numeral (b :: digits), b :: digits, more⟩ := by
  simp only [number, takeWhile_parted (by decide) h hmore, dropWhile_parted (by decide) h hmore]
  cases more with
  | nil => rfl
  | cons c more =>
    obtain rfl := hmore c rfl
    rfl

theorem number_decimal {b : UInt8} {digits fraction more : Bytes} (h : ∀ c ∈ digits, Bytes.isDigit c = true)
    (hfraction : ∀ c ∈ fraction, Bytes.isDigit c = true) (hmore : Parted more) :
    number b (digits ++ byte '.' :: (fraction ++ more)) =
      ⟨numeral (b :: (digits ++ byte '.' :: fraction)), b :: (digits ++ byte '.' :: fraction), more⟩ := by
  have hpoint : Bytes.isDigit (byte '.') = false := by decide
  simp only [number, takeWhile_upto h hpoint, dropWhile_upto h hpoint, if_true,
    takeWhile_parted (by decide) hfraction hmore,
    dropWhile_parted (by decide) hfraction hmore, List.cons_append]

theorem word_parted {b : UInt8} {letters more : Bytes} {kind : TokenKind} (h : ∀ c ∈ letters, Bytes.isWord c = true)
    (hkind : TokenKind.ofWord (Utf8.decode (b :: letters)) = kind) (hmore : Parted more) :
    spanning wordPiece Bytes.isWord b (letters ++ more) = ⟨.token kind, b :: letters, more⟩ := by
  rw [spanning, takeWhile_parted (by decide) h hmore, dropWhile_parted (by decide) h hmore, wordPiece, hkind]

end Segment

/-- **A lexeme in front of a space is cut off as a whole**, and stands for the token it stands for alone. -/
theorem Lexeme.cut_parted {text more : Bytes} {kind : TokenKind} (h : Lexeme text (.token kind)) (hmore : Parted more) :
    ∃ b rest, text = b :: rest ∧ cut b (rest ++ more) = ⟨.token kind, text, more⟩ := by
  generalize hpiece : Piece.token kind = piece at h
  cases h with
  | blank hb => cases hpiece
  | comment hbody => cases hpiece
  | punctuator hmem =>
    cases hpiece
    exact ⟨_, _, rfl, cut_punctuator hmem more⟩
  | operator hmem =>
    cases hpiece
    simp only [operators, List.mem_cons, Prod.mk.injEq, List.not_mem_nil, or_false] at hmem
    rcases hmem with ⟨rfl, rfl⟩ | ⟨rfl, rfl⟩ | ⟨rfl, rfl⟩ | ⟨rfl, rfl⟩ | ⟨rfl, rfl⟩ | ⟨rfl, rfl⟩ | ⟨rfl, rfl⟩ |
      ⟨rfl, rfl⟩ | ⟨rfl, rfl⟩ <;> refine ⟨_, _, rfl, ?_⟩
    · exact operator_parted .bang .bangEqual _ hmore
    · rfl
    · exact operator_parted .equal .equalEqual _ hmore
    · rfl
    · exact operator_parted .less .lessEqual _ hmore
    · rfl
    · exact operator_parted .greater .greaterEqual _ hmore
    · rfl
    · exact slash_parted _ hmore
  | string hbody =>
    cases hpiece
    refine ⟨_, _, rfl, ?_⟩
    rw [List.append_assoc, cut_quote]
    exact quoted_closed hbody more
  | whole hb hdigits =>
    refine ⟨_, _, rfl, ?_⟩
    rw [cut_digit hb, number_whole hdigits hmore]
  | decimal hb hdigits hfraction =>
    refine ⟨_, _, rfl, ?_⟩
    rw [cut_digit hb, List.append_assoc, List.cons_append, number_decimal hdigits hfraction hmore]
  | keyword hmem =>
    cases hpiece
    obtain ⟨b, letters, hword, hb, hletters⟩ := keyword_letters hmem
    have hkind := ofWord_keyword hmem
    rw [hword] at hkind ⊢
    refine ⟨b, letters, rfl, ?_⟩
    rw [cut_letter hb, word_parted hletters hkind hmore]
  | identifier hb hletters hword =>
    cases hpiece
    have hkind := ofWord_identifier (List.forall_mem_cons.2 ⟨isWord_of_isLetter hb, hletters⟩) hword
    refine ⟨_, _, rfl, ?_⟩
    rw [cut_letter hb, word_parted hletters hkind hmore]

/-- a lexeme in front of a space, and the division of what is left -/
theorem Division.token {text more : Bytes} {kind : TokenKind} {later : List (Bytes × Piece)} (h : Division more later)
    (htext : Lexeme text (.token kind)) (hmore : Parted more) :
    Division (text ++ more) ((text, .token kind) :: later) := by
  obtain ⟨b, rest, rfl, hcut⟩ := htext.cut_parted hmore
  rw [List.cons_append, division_cons_iff, hcut]
  exact ⟨later, rfl, h⟩

/-! ## Texts of tokens -/

namespace Utf8

theorem encode_append (a b : String) : encode (a ++ b) = encode a ++ encode b := by
  simp [encode]

/-- what stands between quotes is decoded by itself, well-formed or not -/
theorem decode_quoted (body : Bytes) : decode (byte '"' :: (body ++ [byte '"'])) = "\"" ++ decode body ++ "\"" := by
  have hquote : isAscii (byte '"') = true := by decide
  have hnil : characters [] = [] := by rw [characters]
  have hbody : characters (body ++ [byte '"']) = characters body ++ ['"'] := by
    rw [characters_append hquote, characters_cons_ascii hquote, hnil]
    rfl
  apply String.toList_injective
  rw [decode, String.toList_ofList, characters_cons_ascii hquote, hbody]
  simp only [decode, String.toList_append, String.toList_ofList]
  rfl

theorem encode_decode_quoted (body : Bytes) :
    encode (decode (byte '"' :: (body ++ [byte '"']))) = byte '"' :: (encode (decode body) ++ [byte '"']) := by
  rw [decode_quoted, encode_append, encode_append]
  rfl

end Utf8

theorem Segment.punctuators_ascii : ∀ entry ∈ punctuators, Utf8.isAscii (byte entry.1) = true := by
  decide

theorem Segment.operators_ascii : ∀ entry ∈ operators, ∀ b ∈ entry.1.map byte, Utf8.isAscii b = true := by
  decide +kernel

theorem isAscii_of_isDigit : ∀ b : UInt8, Bytes.isDigit b = true → Utf8.isAscii b = true :=
  forall_byte (by decide +kernel)

/-- a token is spelled in ASCII, unless it is a string -/
theorem Lexeme.ascii_or_string {text : Bytes} {kind : TokenKind} (h : Lexeme text (.token kind)) :
    (∀ b ∈ text, Utf8.isAscii b = true) ∨ ∃ body, (∀ b ∈ body, b ≠ byte '"') ∧
      text = byte '"' :: (body ++ [byte '"']) ∧ kind = .string (Utf8.decode body) := by
  generalize hpiece : Piece.token kind = piece at h
  cases h with
  | blank hb => cases hpiece
  | comment hbody => cases hpiece
  | punctuator hmem => exact .inl (List.forall_mem_singleton.2 (punctuators_ascii _ hmem))
  | operator hmem => exact .inl (operators_ascii _ hmem)
  | string hbody =>
    cases hpiece
    exact .inr ⟨_, hbody, rfl, rfl⟩
  | whole hb hdigits =>
    refine .inl (List.forall_mem_cons.2 ⟨isAscii_of_isDigit _ hb, ?_⟩)
    exact fun c hc => isAscii_of_isDigit c (hdigits c hc)
  | decimal hb hdigits hfraction =>
    refine .inl (List.forall_mem_cons.2 ⟨isAscii_of_isDigit _ hb, List.forall_mem_append.2 ⟨?_, ?_⟩⟩)
    · exact fun c hc => isAscii_of_isDigit c (hdigits c hc)
    · exact List.forall_mem_cons.2 ⟨by decide, fun c hc => isAscii_of_isDigit c (hfraction c hc)⟩
  | keyword hmem =>
    obtain ⟨b, letters, hword, hb, hletters⟩ := keyword_letters hmem
    rw [hword]
    refine .inl (List.forall_mem_cons.2 ⟨isAscii_of_isWord b (isWord_of_isLetter hb), ?_⟩)
    exact fun c hc => isAscii_of_isWord c (hletters c hc)
  | identifier hb hletters hword =>
    refine .inl (List.forall_mem_cons.2 ⟨isAscii_of_isWord _ (isWord_of_isLetter hb), ?_⟩)
    exact fun c hc => isAscii_of_isWord c (hletters c hc)

/-- **The text of a token stands for the token**, whether or not it has the bytes of the source. -/
theorem Lexeme.respelled {text : Bytes} {kind : TokenKind} (h : Lexeme text (.token kind)) :
    Lexeme (Utf8.encode (Utf8.decode text)) (.token kind) := by
  rcases h.ascii_or_string with hascii | ⟨body, hbody, rfl, rfl⟩
  · rwa [Utf8.encode_decode hascii]
  · -- ill-formed parts of the string are replaced, and the replacement is decoded as itself
    have hclosed : ∀ b ∈ Utf8.encode (Utf8.decode body), b ≠ byte '"' := by
      rintro b hb rfl
      exact hbody _ (Utf8.mem_of_mem_encode_decode (by decide) hb) rfl
    have hstring := Lexeme.string hclosed
    rw [Utf8.decode_encode] at hstring
    rwa [Utf8.encode_decode_quoted]

/-- the text of the token stands for it -/
def Token.Spelled (t : Token) : Prop := Lexeme (Utf8.encode t.lexeme) (.token t.kind)

/-- the tokens of a source are spelled by their texts -/
theorem Division.spelled {source : Bytes} {cuts : List (Bytes × Piece)} (h : Division source cuts) (line : Nat) :
    ∀ t ∈ tokensFrom line cuts, t.Spelled := by
  induction h generalizing line with
  | nil => simp [tokensFrom]
  | @cons text rest piece later hne hdue h ih =>
    cases piece with
    | blank => exact ih _
    | fault cause => exact ih _
    | token kind => exact List.forall_mem_cons.2 ⟨hdue.lexeme_of_token.respelled, ih _⟩

/-! ## Tokens written out -/

/-- texts with single spaces between them -/
def spaced (texts : List String) : String := String.intercalate " " texts

/-- tokens that are spelled by their texts come back if these are written out -/
theorem Division.respaced (tokens : List Token) (h : ∀ t ∈ tokens, t.Spelled) :
    ∃ cuts, Division (Utf8.encode (spaced (tokens.map Token.lexeme))) cuts ∧ Faultless cuts ∧
      ∀ line, List.Forall₂ Token.SameText tokens (tokensFrom line cuts) := by
  -- the induction is on the tokens; the last one has nothing behind it and all others have a space
  induction tokens with
  | nil => exact ⟨[], .nil, nofun, fun _ => .nil⟩
  | cons t tokens ih =>
    obtain ⟨ht, htokens⟩ := List.forall_mem_cons.1 h
    obtain ⟨cuts, hcuts, hfaultless, hsame⟩ := ih htokens
    have hlexeme : t.lexeme = Utf8.decode (Utf8.encode t.lexeme) := (Utf8.decode_encode t.lexeme).symm
    cases tokens with
    | nil =>
      refine ⟨[(Utf8.encode t.lexeme, .token t.kind)], ?_, ?_, ?_⟩
      · have hdivision := Division.nil.token ht (by simp [Parted])
        rwa [List.append_nil] at hdivision
      · exact faultless_cons.2 ⟨nofun, nofun⟩
      · exact fun line => .cons ⟨rfl, hlexeme⟩ .nil
    | cons u tokens =>
      refine ⟨(Utf8.encode t.lexeme, .token t.kind) :: ([byte ' '], .blank) :: cuts, ?_, ?_, ?_⟩
      · have htext : Utf8.encode (spaced ((t :: u :: tokens).map Token.lexeme)) =
            Utf8.encode t.lexeme ++ byte ' ' :: Utf8.encode (spaced ((u :: tokens).map Token.lexeme)) := by
          simp only [spaced, List.map_cons, String.intercalate_cons_cons, Utf8.encode_append, List.append_assoc]
          rfl
        rw [htext]
        refine Division.token (division_cons_iff.2 ⟨cuts, rfl, hcuts⟩) ht ?_
        simp [Parted]
      · exact faultless_cons.2 ⟨nofun, faultless_cons.2 ⟨nofun, hfaultless⟩⟩
      · exact fun line => .cons ⟨rfl, hlexeme⟩ (hsame _)

/-- **Tokens are told by their texts.** For every source, its tokens' texts written out with single spaces between them
have no lexical fault, and their tokens are those of the source, one by one, in kind, value and text. -/
theorem Lexing.ofBytes_respaced (source : Bytes) : ∃ words again line line',
    (ofBytes source).tokens = words ++ [.atEnd line] ∧
    ofBytes (Utf8.encode (spaced (words.map Token.lexeme))) = ⟨again ++ [.atEnd line'], []⟩ ∧
    List.Forall₂ Token.SameText words again := by
  obtain ⟨cuts, hcuts⟩ := division_exists source
  obtain ⟨later, hlater, hfaultless, hsame⟩ := Division.respaced (tokensFrom 1 cuts) (hcuts.spelled 1)
  refine ⟨tokensFrom 1 cuts, tokensFrom 1 later, 1 + linesOf cuts, 1 + linesOf later, ?_, ?_, hsame 1⟩
  · rw [ofBytes_eq hcuts, tokens_itemsFrom]
  · rw [ofBytes_eq hlater, ← tokens_itemsFrom, ← diagnostics_itemsFrom.2 hfaultless]

end Scriptlet
