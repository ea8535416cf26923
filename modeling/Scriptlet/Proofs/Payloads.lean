/-
Values and texts of tokens. A string and its value are decoded from two stretches of bytes, with the quotes and without
them, and ill-formed bytes are replaced in both. The quotes are bytes of ASCII, so what is replaced up to them is the
same either way: the text of a string is its value between quotes. All other tokens are spelled in ASCII, and a number's
text is one that can be read as a number. So the value of a token can be had from its text (`TokenKind.restored`).

- `Lexing.ofBytes_conveys`: the tokens of a source tell its bytes, and tokens that agree have the same value.
-/
import Scriptlet.Proofs.Respacing

namespace Scriptlet

/-! ## Numerals -/

namespace Numeral

/-- digits, and perhaps a point with any number of digits behind it -/
inductive Form : List Char → Prop where
  | whole {digits : List Char} (hne : digits ≠ []) (h : ∀ c ∈ digits, c.isDigit = true) : Form digits
  | decimal {digits fraction : List Char} (hne : digits ≠ []) (h : ∀ c ∈ digits, c.isDigit = true)
    (hfraction : ∀ c ∈ fraction, c.isDigit = true) : Form (digits ++ '.' :: fraction)

theorem read?_whole {digits : List Char} (hne : digits ≠ []) (h : ∀ c ∈ digits, c.isDigit = true) :
    read? digits = some (Float.ofScientific (natural digits) false 0) := by
  simp only [read?, List.takeWhile_eq_self_iff.2 h, List.dropWhile_eq_nil_iff.2 h, if_neg hne]

theorem read?_decimal {digits fraction : List Char} (hne : digits ≠ []) (h : ∀ c ∈ digits, c.isDigit = true)
    (hfraction : ∀ c ∈ fraction, c.isDigit = true) : read? (digits ++ '.' :: fraction) =
      some (Float.ofScientific (natural (digits ++ fraction)) true fraction.length) := by
  have hpoint : Char.isDigit '.' = false := by decide
  simp only [read?, Segment.takeWhile_upto h hpoint, Segment.dropWhile_upto h hpoint, if_neg hne,
    List.all_eq_true.2 hfraction, decide_true, Bool.and_self, if_true]

/-- every numeral can be read, so no other value is put in its place -/
theorem Form.read?_eq {text : List Char} (h : Form text) : read? text = some ((read? text).getD 0) := by
  cases h with
  | whole hne h => rw [read?_whole hne h, Option.getD_some]
  | decimal hne h hfraction => rw [read?_decimal hne h hfraction, Option.getD_some]

end Numeral

/-! ## Texts of ASCII -/

namespace Utf8

/-- bytes of ASCII are decoded one by one -/
theorem characters_ascii {text : Bytes} (h : ∀ b ∈ text, isAscii b = true) :
    characters text = text.map fun b => Char.ofNat b.toNat := by
  induction text with
  | nil => rw [characters, List.map_nil]
  | cons b rest ih =>
    obtain ⟨hb, hrest⟩ := List.forall_mem_cons.1 h
    rw [characters_cons_ascii hb, ih hrest, List.map_cons]

theorem ofNat_ascii : ∀ b : UInt8, isAscii b = true → (Char.ofNat b.toNat).toNat < 0x80 :=
  forall_byte (by decide +kernel)

/-- what bytes of ASCII are decoded as are characters of ASCII -/
theorem ascii_decode {text : Bytes} (h : ∀ b ∈ text, isAscii b = true) :
    ∀ c ∈ (decode text).toList, c.toNat < 0x80 := by
  rw [decode, String.toList_ofList, characters_ascii h]
  exact List.forall_mem_map.2 fun b hb => ofNat_ascii b (h b hb)

end Utf8

/-! ## What the text of a token tells -/

theorem isDigit_ofNat : ∀ b : UInt8, Bytes.isDigit b = true → (Char.ofNat b.toNat).isDigit = true :=
  forall_byte (by decide +kernel)

theorem Segment.form_whole {b : UInt8} {digits : Bytes} (hb : Bytes.isDigit b = true)
    (h : ∀ c ∈ digits, Bytes.isDigit c = true) : Numeral.Form (Utf8.characters (b :: digits)) := by
  have hall : ∀ c ∈ b :: digits, Bytes.isDigit c = true := List.forall_mem_cons.2 ⟨hb, h⟩
  rw [Utf8.characters_ascii fun c hc => isAscii_of_isDigit c (hall c hc)]
  exact .whole (by simp) (List.forall_mem_map.2 fun c hc => isDigit_ofNat c (hall c hc))

theorem Segment.form_decimal {b : UInt8} {digits fraction : Bytes} (hb : Bytes.isDigit b = true)
    (h : ∀ c ∈ digits, Bytes.isDigit c = true) (hfraction : ∀ c ∈ fraction, Bytes.isDigit c = true) :
    Numeral.Form (Utf8.characters (b :: (digits ++ byte '.' :: fraction))) := by
  have hpoint : Utf8.isAscii (byte '.') = true := by decide
  have hall : ∀ c ∈ b :: digits, Bytes.isDigit c = true := List.forall_mem_cons.2 ⟨hb, h⟩
  have hdigits : ∀ c ∈ (b :: digits).map fun b => Char.ofNat b.toNat, c.isDigit = true :=
    List.forall_mem_map.2 fun c hc => isDigit_ofNat c (hall c hc)
  rw [← List.cons_append, Utf8.characters_append hpoint, Utf8.characters_cons_ascii hpoint,
    Utf8.characters_ascii fun c hc => isAscii_of_isDigit c (hall c hc),
    Utf8.characters_ascii fun c hc => isAscii_of_isDigit c (hfraction c hc)]
  exact .decimal (by simp) hdigits (List.forall_mem_map.2 fun c hc => isDigit_ofNat c (hfraction c hc))

/-- a number is spelled as a numeral, and has the value that is read from it -/
theorem Lexeme.number_text {text : Bytes} {x : Float} (h : Lexeme text (.token (.number x))) :
    Numeral.Form (Utf8.characters text) ∧ Numeral.read? (Utf8.characters text) = some x := by
  cases h with
  | punctuator hmem => simp [punctuators] at hmem
  | operator hmem => simp [operators] at hmem
  | whole hb h =>
    have hform := Segment.form_whole hb h
    exact ⟨hform, hform.read?_eq⟩
  | decimal hb h hfraction =>
    have hform := Segment.form_decimal hb h hfraction
    exact ⟨hform, hform.read?_eq⟩
  | keyword hmem => simp [TokenKind.keywords] at hmem

namespace TokenKind

theorem plain_or_valued (kind : TokenKind) :
    kind ∈ plain ∨ (∃ content, kind = .string content) ∨ ∃ x, kind = .number x := by
  cases kind with
  | string content => exact .inr (.inl ⟨content, rfl⟩)
  | number x => exact .inr (.inr ⟨x, rfl⟩)
  | _ => exact .inl (by simp [plain])

/-- the kind of a token, from its text and the shape of its kind -/
def restored (lexeme : String) : TokenKind → TokenKind
  | .string _ => .string (String.ofList lexeme.toList.tail.dropLast)
  | .number _ => .number ((Numeral.read? lexeme.toList).getD 0)
  | kind => kind

theorem restored_of_plain {kind : TokenKind} (h : kind ∈ plain) (lexeme : String) :
    kind.shape.restored lexeme = kind := by
  cases kind with
  | string content => simp [plain] at h
  | number x => simp [plain] at h
  | _ => rfl

end TokenKind

namespace Token

/-- the token tells the bytes `text` that it was cut from -/
inductive Conveys (text : Bytes) : Token → Prop where
  /-- quotes around the value, which is exact where the bytes between the quotes are those of a text -/
  | string {body : Bytes} {content : String} {line : Nat} (htext : text = byte '"' :: (body ++ [byte '"']))
    (hquote : '"' ∉ content.toList)
    (hvalid : (∃ written : String, Utf8.encode written = body) → Utf8.encode content = body) :
    Conveys text ⟨.string content, "\"" ++ content ++ "\"", line⟩
  /-- a numeral, which is read as the value -/
  | number {x : Float} {lexeme : String} {line : Nat} (hascii : ∀ c ∈ lexeme.toList, c.toNat < 0x80)
    (htext : Utf8.encode lexeme = text) (hform : Numeral.Form lexeme.toList)
    (hvalue : Numeral.read? lexeme.toList = some x) : Conveys text ⟨.number x, lexeme, line⟩
  | plain {kind : TokenKind} {lexeme : String} {line : Nat} (hkind : kind ∈ TokenKind.plain)
    (hascii : ∀ c ∈ lexeme.toList, c.toNat < 0x80) (htext : Utf8.encode lexeme = text) :
    Conveys text ⟨kind, lexeme, line⟩

theorem conveys_atEnd (line : Nat) : Conveys [] (.atEnd line) :=
  .plain (by simp [TokenKind.plain]) (by simp) (by simp [Utf8.encode])

/-- the value can be had from the text -/
theorem Conveys.restored_kind {text : Bytes} {t : Token} (h : Conveys text t) :
    t.kind.shape.restored t.lexeme = t.kind := by
  cases h with
  | @string body content line htext hquote hvalid =>
    have hinner : ("\"" ++ content ++ "\"").toList.tail.dropLast = content.toList := by simp
    simp only [TokenKind.shape, TokenKind.restored, hinner, String.ofList_toList]
  | number hascii htext hform hvalue => simp only [TokenKind.shape, TokenKind.restored, hvalue, Option.getD_some]
  | plain hkind hascii htext => exact TokenKind.restored_of_plain hkind _

/-- tokens of the same text and shape are of the same kind, with the same value -/
theorem Conveys.kind_eq_of_agrees {text text' : Bytes} {t t' : Token} (h : Conveys text t) (h' : Conveys text' t')
    (hagrees : t.agrees t' = true) : t.kind = t'.kind := by
  simp only [agrees, TokenKind.sameShape, Bool.and_eq_true, decide_eq_true_eq, beq_iff_eq] at hagrees
  obtain ⟨⟨hshape, hlexeme⟩, -⟩ := hagrees
  calc t.kind
    _ = t.kind.shape.restored t.lexeme := h.restored_kind.symm
    _ = t'.kind.shape.restored t'.lexeme := by rw [hshape, hlexeme]
    _ = t'.kind := h'.restored_kind

end Token

/-! ## Tokens of a source -/

theorem Lexeme.ascii_of_ne_string {text : Bytes} {kind : TokenKind} (h : Lexeme text (.token kind))
    (hkind : ∀ content, kind ≠ .string content) : ∀ b ∈ text, Utf8.isAscii b = true :=
  h.ascii_or_string.resolve_right fun ⟨_, _, _, hstring⟩ => hkind _ hstring

/-- the value of a string, which need not be well-formed in the source -/
theorem Lexeme.string_conveys {body : Bytes} (h : ∀ b ∈ body, b ≠ byte '"') (line : Nat) :
    Token.Conveys (byte '"' :: (body ++ [byte '"']))
      ⟨.string (Utf8.decode body), Utf8.decode (byte '"' :: (body ++ [byte '"'])), line⟩ := by
  rw [Utf8.decode_quoted]
  refine .string rfl ?_ ?_
  · -- a quote among the characters could only come from one among the bytes
    intro hmem
    rw [Utf8.decode, String.toList_ofList] at hmem
    exact h _ (Utf8.mem_of_mem_characters (b := byte '"') (by decide) hmem) rfl
  · rintro ⟨written, rfl⟩
    rw [Utf8.decode_encode]

/-- a token tells the bytes of its lexeme -/
theorem Lexeme.conveys {text : Bytes} {kind : TokenKind} (h : Lexeme text (.token kind)) (line : Nat) :
    Token.Conveys text ⟨kind, Utf8.decode text, line⟩ := by
  rcases kind.plain_or_valued with hplain | ⟨content, rfl⟩ | ⟨x, rfl⟩
  · have hascii := h.ascii_of_ne_string (by rintro content rfl; simp [TokenKind.plain] at hplain)
    exact .plain hplain (Utf8.ascii_decode hascii) (Utf8.encode_decode hascii)
  · obtain ⟨body, hbody, rfl, rfl⟩ := h.string_text
    exact string_conveys hbody line
  · have hascii := h.ascii_of_ne_string nofun
    have hchars : (Utf8.decode text).toList = Utf8.characters text := String.toList_ofList
    obtain ⟨hform, hvalue⟩ := h.number_text
    rw [← hchars] at hform hvalue
    exact .number (Utf8.ascii_decode hascii) (Utf8.encode_decode hascii) hform hvalue

def tokenTexts (cuts : List (Bytes × Piece)) : List Bytes :=
  cuts.filterMap fun
    | (text, .token _) => some text
    | _ => none

theorem Division.conveys {source : Bytes} {cuts : List (Bytes × Piece)} (h : Division source cuts) (line : Nat) :
    List.Forall₂ Token.Conveys (tokenTexts cuts) (tokensFrom line cuts) := by
  induction h generalizing line with
  | nil => exact .nil
  | @cons text rest piece later hne hdue h ih =>
    cases piece with
    | blank => exact ih _
    | fault cause => exact ih _
    | token kind => exact .cons (hdue.lexeme_of_token.conveys _) (ih _)

namespace Lexing

/-- all tokens tell the bytes of their segments, and the end mark none -/
theorem tokens_conveys {source : Bytes} {cuts : List (Bytes × Piece)} (h : Division source cuts) :
    List.Forall₂ Token.Conveys (tokenTexts cuts ++ [[]]) (ofBytes source).tokens := by
  rw [ofBytes_eq h, tokens_itemsFrom]
  exact List.rel_append (h.conveys 1) (.cons (Token.conveys_atEnd _) .nil)

theorem conveys_of_mem {source : Bytes} {t : Token} (h : t ∈ (ofBytes source).tokens) : ∃ text, t.Conveys text := by
  obtain ⟨cuts, hcuts⟩ := division_exists source
  have hall := tokens_conveys hcuts
  obtain ⟨i, hi, rfl⟩ := List.mem_iff_getElem.1 h
  have hi' : i < (tokenTexts cuts ++ [[]]).length := by
    rw [hall.length_eq]
    exact hi
  exact ⟨_, hall.get hi' hi⟩

/-- **Values are told by texts.** The tokens of a source, the end mark with no bytes among them, tell the bytes of their
segments: a string's text is its value between quotes, and a number's text is read as its value. Tokens of whatever
sources that agree are of the same kind and have the same value, though agreeing does not look at values. -/
theorem ofBytes_conveys (source : Bytes) :
    (∃ cuts, Division source cuts ∧ List.Forall₂ Token.Conveys (tokenTexts cuts ++ [[]]) (ofBytes source).tokens) ∧
    ∀ other, ∀ t ∈ (ofBytes source).tokens, ∀ t' ∈ (ofBytes other).tokens, t.agrees t' = true → t.kind = t'.kind := by
  constructor
  · obtain ⟨cuts, hcuts⟩ := division_exists source
    exact ⟨cuts, hcuts, tokens_conveys hcuts⟩
  · intro other t ht t' ht' hagrees
    obtain ⟨text, htext⟩ := conveys_of_mem ht
    obtain ⟨text', htext'⟩ := conveys_of_mem ht'
    exact htext.kind_eq_of_agrees htext' hagrees

/-- a string that breaks off in the middle of a character, and one that has the replacement character there -/
theorem ofBytes_conveys_replaced : ∃ t ∈ (ofBytes [byte '"', 0xE2, 0x82, byte '"']).tokens,
    ∃ t' ∈ (ofBytes (Utf8.encode "\"\uFFFD\"")).tokens,
      t.kind = .string "\uFFFD" ∧ t.agrees t' = true ∧ t.kind = t'.kind := by
  have hbroken : (ofBytes [byte '"', 0xE2, 0x82, byte '"']).tokens =
      [⟨.string "\uFFFD", "\"\uFFFD\"", 1⟩, .atEnd 1] := by
    cbv
  have hreplaced : (ofBytes (Utf8.encode "\"\uFFFD\"")).tokens =
      [⟨.string "\uFFFD", "\"\uFFFD\"", 1⟩, .atEnd 1] := by
    cbv
  have ht := hbroken ▸ List.mem_cons_self
  have ht' := hreplaced ▸ List.mem_cons_self
  exact ⟨_, ht, _, ht', rfl, by decide +kernel, (ofBytes_conveys _).2 _ _ ht _ ht' (by decide +kernel)⟩

end Lexing

end Scriptlet
