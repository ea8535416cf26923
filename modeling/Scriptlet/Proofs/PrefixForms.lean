/-
Prefix forms tell trees apart. Of a statement that was read from a source, the prefix form keeps everything but the
lines its tokens stood on: its words are the texts of names and operators, and of literals. What kind of token a text is
cut as depends on the text alone, so an operator's text tells the operator, and a name can be mistaken neither for a
literal nor, at the head of a list, for anything at all. Two literals are only alike if they are equal, as long as they
are no strings, which stand without quotes, and all numbers are finite.

- `Token.Spelled.kind_eq`: the text of a token tells its kind.
- `Stmt.same_of_outline`: outlines tell statements apart.
- `Stmt.prefixed_eq_iff`: the same for the texts of statements from sources.
-/
import Scriptlet.Proofs.NumeralTexts
import Scriptlet.Proofs.Outlines
import Scriptlet.Proofs.Transcript

namespace Scriptlet

/-! ## Texts of tokens -/

namespace Lexeme

variable {text : Bytes} {piece piece' : Piece} {kind : TokenKind}

theorem exists_cons (h : Lexeme text piece) : ∃ b rest, text = b :: rest := by
  cases h with
  | @operator chars kind hmem =>
    have hne : ∀ entry ∈ operators, entry.1 ≠ [] := by decide
    obtain ⟨c, rest, rfl⟩ : ∃ c rest, chars = c :: rest := List.exists_cons_of_ne_nil (hne _ hmem)
    exact ⟨byte c, rest.map byte, rfl⟩
  | keyword hmem =>
    obtain ⟨b, rest, hword, -⟩ := keyword_letters hmem
    exact ⟨b, rest, hword⟩
  | _ => exact ⟨_, _, rfl⟩

/-- what a text stands for depends on the text alone -/
theorem unique (h : Lexeme text piece) (h' : Lexeme text piece') : piece = piece' := by
  obtain ⟨b, rest, rfl⟩ := h.exists_cons
  have houtrun := h.outrun (List.prefix_refl _)
  have houtrun' := h'.outrun (List.prefix_refl _)
  have hcut : (Segment.cut b rest).text = b :: rest := by
    have hcovers := congrArg List.length (Segment.cut_text_append_rest b rest)
    have hlonger := houtrun.longer
    rw [List.length_append] at hcovers
    have hnil : (Segment.cut b rest).rest = [] := List.length_eq_zero_iff.1 (by omega)
    simpa [hnil] using Segment.cut_text_append_rest b rest
  exact (houtrun.same hcut).symm.trans (houtrun'.same hcut)

theorem inWord_of_isWord : ∀ b : UInt8, Bytes.isWord b = true → inWord (Char.ofNat b.toNat) = true :=
  forall_byte (by decide +kernel)

theorem inWord_of_isDigit (b : UInt8) (h : Bytes.isDigit b = true) : inWord (Char.ofNat b.toNat) = true :=
  inWord_of_isWord b (by simp [Bytes.isWord, h])

/-- parentheses and strings apart, no token has a space or a parenthesis in it -/
theorem bytes_inWord (h : Lexeme text (.token kind)) (hleft : kind ≠ .leftParen) (hright : kind ≠ .rightParen)
    (hstring : ∀ content, kind ≠ .string content) : ∀ b ∈ text, inWord (Char.ofNat b.toNat) = true := by
  generalize hpiece : Piece.token kind = piece at h
  cases h with
  | blank hb => cases hpiece
  | comment hbody => cases hpiece
  | @punctuator c _ hmem =>
    cases hpiece
    have hall : ∀ entry ∈ punctuators, entry.2 ≠ .leftParen → entry.2 ≠ .rightParen →
        inWord (Char.ofNat (byte entry.1).toNat) = true := by
      decide
    exact List.forall_mem_singleton.2 (hall (c, kind) hmem hleft hright)
  | @operator chars _ hmem =>
    have hall : ∀ entry ∈ operators, ∀ b ∈ entry.1.map byte, inWord (Char.ofNat b.toNat) = true := by
      decide +kernel
    exact hall (chars, _) hmem
  | string hbody => exact absurd (Piece.token.inj hpiece) (hstring _)
  | whole hb hdigits =>
    exact List.forall_mem_cons.2 ⟨inWord_of_isDigit _ hb, fun b hmem => inWord_of_isDigit b (hdigits b hmem)⟩
  | decimal hb hdigits hfraction =>
    refine List.forall_mem_cons.2 ⟨inWord_of_isDigit _ hb, List.forall_mem_append.2 ⟨fun b hmem => ?_, ?_⟩⟩
    · exact inWord_of_isDigit b (hdigits b hmem)
    · exact List.forall_mem_cons.2 ⟨by decide, fun b hmem => inWord_of_isDigit b (hfraction b hmem)⟩
  | keyword hmem =>
    obtain ⟨b, rest, hword, hb, hletters⟩ := keyword_letters hmem
    rw [hword]
    exact List.forall_mem_cons.2
      ⟨inWord_of_isWord b (isWord_of_isLetter hb), fun c hc => inWord_of_isWord c (hletters c hc)⟩
  | identifier hb hletters hword =>
    exact List.forall_mem_cons.2
      ⟨inWord_of_isWord _ (isWord_of_isLetter hb), fun c hc => inWord_of_isWord c (hletters c hc)⟩

end Lexeme

namespace Token

variable {t t' : Token}

/-- **The text of a token tells its kind.** -/
theorem Spelled.kind_eq (h : t.Spelled) (h' : t'.Spelled) (heq : t.lexeme = t'.lexeme) : t.kind = t'.kind := by
  unfold Spelled at h h'
  rw [← heq] at h'
  exact Piece.token.inj (h.unique h')

theorem Spelled.onLine_eq (h : t.Spelled) (h' : t'.Spelled) (heq : t.lexeme = t'.lexeme) (line : Nat) :
    t.onLine line = t'.onLine line :=
  (onLine_eq_iff line).2 ⟨h.kind_eq h' heq, heq⟩

theorem spelled_group : (⟨.identifier, "group", 0⟩ : Token).Spelled := by
  have hword : ∀ entry ∈ TokenKind.keywords, Utf8.encode "group" ≠ Utf8.encode entry.1 := by decide +kernel
  exact Lexeme.identifier (by decide) (by decide +kernel) fun word kind hmem => hword (word, kind) hmem

theorem spelled_equal : (⟨.equal, "=", 0⟩ : Token).Spelled := Lexeme.operator (show (['='], _) ∈ operators by decide)

theorem spelled_bool (b : Bool) :
    (⟨if b then .kwTrue else .kwFalse, if b then "true" else "false", 0⟩ : Token).Spelled := by
  cases b
  · exact Lexeme.keyword (by decide)
  · exact Lexeme.keyword (by decide)

/-- the characters of a token, from its bytes -/
theorem Spelled.toList_eq (h : t.Spelled) (hstring : ∀ content, t.kind ≠ .string content) :
    t.lexeme.toList = (Utf8.encode t.lexeme).map fun b => Char.ofNat b.toNat := by
  rw [← Utf8.characters_ascii (h.ascii_of_ne_string hstring)]
  have hdecode := congrArg String.toList (Utf8.decode_encode t.lexeme)
  rw [Utf8.decode, String.toList_ofList] at hdecode
  exact hdecode.symm

theorem Spelled.isWord (h : t.Spelled) (hleft : t.kind ≠ .leftParen) (hright : t.kind ≠ .rightParen)
    (hstring : ∀ content, t.kind ≠ .string content) : IsWord t.lexeme := by
  obtain ⟨b, rest, hcons⟩ := h.exists_cons
  unfold IsWord
  rw [h.toList_eq hstring]
  exact ⟨by simp [hcons], List.forall_mem_map.2 (h.bytes_inWord hleft hright hstring)⟩

/-- names and operators are words -/
theorem Spelled.isWord_of_kept (h : t.Spelled) (hkind : t.kind = .identifier ∨ (t.kind = .bang ∨ t.kind = .minus) ∨
    t.kind.binaryTier? ≠ none ∨ t.kind.logicalTier? ≠ none) : IsWord t.lexeme := by
  refine h.isWord ?_ ?_ fun content => ?_
  all_goals
    intro heq
    simp [heq, TokenKind.binaryTier?, TokenKind.logicalTier?] at hkind

theorem char_of_isLetter : ∀ b : UInt8, Bytes.isLetter b = true →
    (Char.ofNat b.toNat).isDigit = false ∧ Char.ofNat b.toNat ≠ '-' :=
  forall_byte (by decide +kernel)

/-- a name begins neither like a number nor like a sign -/
theorem Spelled.first_of_identifier (h : t.Spelled) (hkind : t.kind = .identifier) :
    ∃ c rest, t.lexeme.toList = c :: rest ∧ c.isDigit = false ∧ c ≠ '-' := by
  have hchars := h.toList_eq (by rw [hkind]; exact nofun)
  unfold Spelled at h
  rw [hkind] at h
  generalize Utf8.encode t.lexeme = text at h hchars
  cases h with
  | punctuator hmem => simp [punctuators] at hmem
  | operator hmem => simp [operators] at hmem
  | keyword hmem => simp [TokenKind.keywords] at hmem
  | @identifier b rest hb hletters hword =>
    exact ⟨_, _, hchars, char_of_isLetter b hb⟩

end Token

/-! ## Literals -/

/-- is the literal no string, and finite if it is a number -/
def Value.Plain : Value → Prop
  | .string _ => False
  | .number x => x.isFinite = true
  | _ => True

namespace Numeral

theorem inWord_of_isDigit {c : Char} (h : c.isDigit = true) : inWord c = true := by
  have hne : ∀ other : Char, other.isDigit = false → c ≠ other := by
    rintro other hother rfl
    rw [h] at hother
    cases hother
  simp [inWord, hne ' ' (by decide), hne '(' (by decide), hne ')' (by decide)]

theorem Form.inWord {text : List Char} (h : Form text) : ∀ c ∈ text, inWord c = true := by
  cases h with
  | whole hne h => exact fun c hc => inWord_of_isDigit (h c hc)
  | decimal hne h hfraction =>
    refine List.forall_mem_append.2 ⟨fun c hc => inWord_of_isDigit (h c hc), List.forall_mem_cons.2 ⟨by decide, ?_⟩⟩
    exact fun c hc => inWord_of_isDigit (hfraction c hc)

/-- the text of a finite number is a word that begins with a digit or a sign -/
theorem isWord_full {x : Float} (h : x.isFinite = true) :
    IsWord (full x) ∧ ∃ c rest, (full x).toList = c :: rest ∧ (c.isDigit = true ∨ c = '-') := by
  obtain ⟨mantissa, shift, hmagnitude⟩ := exists_magnitude_of_isFinite h
  obtain ⟨body, htext, hform, -⟩ := full_eq hmagnitude
  obtain ⟨c, rest, hcons, hdigit⟩ := hform.exists_cons
  rw [htext, sign]
  split_ifs
  · have hlist : ("-" ++ body).toList = '-' :: body.toList := by simp
    rw [IsWord, hlist]
    exact ⟨⟨List.cons_ne_nil _ _, List.forall_mem_cons.2 ⟨by decide, hform.inWord⟩⟩, _, _, rfl, .inr rfl⟩
  · rw [String.empty_append]
    exact ⟨⟨by simp [hcons], hform.inWord⟩, c, rest, hcons, .inl hdigit⟩

end Numeral

namespace Value

variable {v v' : Value}

theorem isWord_prefixed (h : v.Plain) : IsWord v.prefixed := by
  cases v with
  | nil => decide +kernel
  | bool b => cases b <;> decide +kernel
  | number x => exact (Numeral.isWord_full h).1
  | string text => exact h.elim

/-- no number has the text of a truth value -/
theorem full_ne_bool {x : Float} (h : x.isFinite = true) (b : Bool) :
    Numeral.full x ≠ if b then "true" else "false" := by
  obtain ⟨-, c, rest, hcons, hfirst⟩ := Numeral.isWord_full h
  intro heq
  rw [heq] at hcons
  cases b <;> cases hcons <;> exact absurd hfirst (by decide)

/-- literals are told by their texts -/
theorem prefixed_injective (h : v.Plain) (h' : v'.Plain) (hnil : v ≠ .nil) (hnil' : v' ≠ .nil)
    (heq : v.prefixed = v'.prefixed) : v = v' := by
  cases v with
  | nil => exact absurd rfl hnil
  | string text => exact h.elim
  | bool b =>
    cases v' with
    | nil => exact absurd rfl hnil'
    | string text => exact h'.elim
    | bool b' => cases b <;> cases b' <;> first | rfl | exact absurd heq (by decide)
    | number x => exact absurd heq.symm (full_ne_bool h' b)
  | number x =>
    cases v' with
    | nil => exact absurd rfl hnil'
    | string text => exact h'.elim
    | bool b' => exact absurd heq (full_ne_bool h b')
    | number y => rw [Numeral.full_injective h h' heq]

/-- no literal has the text of a name -/
theorem prefixed_ne_name {name : Token} (h : v.Plain) (hnil : v ≠ .nil) (hname : name.Spelled)
    (hkind : name.kind = .identifier) : v.prefixed ≠ name.lexeme := by
  cases v with
  | nil => exact absurd rfl hnil
  | string text => exact h.elim
  | bool b =>
    intro heq
    have hbool := (Token.spelled_bool b).kind_eq hname heq
    rw [hkind] at hbool
    cases b <;> cases hbool
  | number x =>
    obtain ⟨-, c, rest, hcons, hfirst⟩ := Numeral.isWord_full h
    obtain ⟨c', rest', hcons', hdigit, hminus⟩ := hname.first_of_identifier hkind
    intro heq
    rw [← heq] at hcons'
    cases hcons.symm.trans hcons'
    rcases hfirst with hfirst | hfirst
    · rw [hdigit] at hfirst
      cases hfirst
    · exact hminus hfirst

end Value

/-! ## Expressions -/

namespace Expr

def literals : Expr → List Value
  | .literal value => [value]
  | .unary _ operand => operand.literals
  | .binary left _ right => left.literals ++ right.literals
  | .logical left _ right => left.literals ++ right.literals
  | .grouping inner => inner.literals
  | .var _ => []
  | .assign _ value => value.literals

/-- the expression could have been read from a source, and its literals can be told apart -/
def Legible : Expr → Prop
  | .literal value => value.Plain ∧ value ≠ .nil
  | .unary operator operand => (operator.Spelled ∧ (operator.kind = .bang ∨ operator.kind = .minus)) ∧ operand.Legible
  | .binary left operator right =>
    (operator.Spelled ∧ operator.kind.binaryTier? ≠ none) ∧ left.Legible ∧ right.Legible
  | .logical left operator right =>
    (operator.Spelled ∧ operator.kind.logicalTier? ≠ none) ∧ left.Legible ∧ right.Legible
  | .grouping inner => inner.Legible
  | .var name => name.Spelled ∧ name.kind = .identifier
  | .assign name value => (name.Spelled ∧ name.kind = .identifier) ∧ value.Legible

theorem legible_of_fits {e : Expr} {tier : Nat} (hfits : e.fits tier = true)
    (hspelled : ∀ t, .kept t ∈ e.spelling → t.Spelled) (hliterals : ∀ v ∈ e.literals, v.Plain) : e.Legible := by
  induction e generalizing tier with
  | literal value => exact ⟨hliterals value (by simp [literals]), by simpa [fits] using hfits⟩
  | unary operator operand ih =>
    simp only [fits, Bool.and_eq_true, Bool.or_eq_true, decide_eq_true_eq] at hfits
    simp only [spelling, List.mem_cons] at hspelled
    exact ⟨⟨hspelled _ (.inl rfl), hfits.1⟩, ih hfits.2 (fun t ht => hspelled t (.inr ht)) hliterals⟩
  | binary left operator right ihl ihr =>
    obtain ⟨k, hk, -, hleft, hright⟩ := fits_binary.1 hfits
    simp only [spelling, List.mem_append, List.mem_cons] at hspelled
    simp only [literals, List.mem_append] at hliterals
    refine ⟨⟨hspelled _ (.inr (.inl rfl)), by simp [hk]⟩, ?_, ?_⟩
    · exact ihl hleft (fun t ht => hspelled t (.inl ht)) fun v hv => hliterals v (.inl hv)
    · exact ihr hright (fun t ht => hspelled t (.inr (.inr ht))) fun v hv => hliterals v (.inr hv)
  | logical left operator right ihl ihr =>
    obtain ⟨k, hk, -, hleft, hright⟩ := fits_logical.1 hfits
    simp only [spelling, List.mem_append, List.mem_cons] at hspelled
    simp only [literals, List.mem_append] at hliterals
    refine ⟨⟨hspelled _ (.inr (.inl rfl)), by simp [hk]⟩, ?_, ?_⟩
    · exact ihl hleft (fun t ht => hspelled t (.inl ht)) fun v hv => hliterals v (.inl hv)
    · exact ihr hright (fun t ht => hspelled t (.inr (.inr ht))) fun v hv => hliterals v (.inr hv)
  | grouping inner ih =>
    exact ih hfits (fun t ht => hspelled t (by simp [spelling, ht])) hliterals
  | var name => exact ⟨hspelled name (by simp [spelling]), of_decide_eq_true hfits⟩
  | assign name value ih =>
    simp only [fits, Bool.and_eq_true, decide_eq_true_eq] at hfits
    refine ⟨⟨hspelled name (by simp [spelling]), hfits.1.2⟩, ih hfits.2 (fun t ht => hspelled t ?_) hliterals⟩
    simp [spelling, ht]

theorem worded_outline {e : Expr} (h : e.Legible) : e.outline.Worded := by
  induction e with
  | literal value => exact Value.isWord_prefixed h.1
  | unary operator operand ih =>
    exact ⟨h.1.1.isWord_of_kept (.inr (.inl h.1.2)), ih h.2, trivial⟩
  | binary left operator right ihl ihr =>
    exact ⟨h.1.1.isWord_of_kept (.inr (.inr (.inl h.1.2))), ihl h.2.1, ihr h.2.2, trivial⟩
  | logical left operator right ihl ihr =>
    exact ⟨h.1.1.isWord_of_kept (.inr (.inr (.inr h.1.2))), ihl h.2.1, ihr h.2.2, trivial⟩
  | grouping inner ih => exact ⟨by decide +kernel, ih h, trivial⟩
  | var name => exact h.1.isWord_of_kept (.inl h.2)
  | assign name value ih =>
    exact ⟨by decide +kernel, h.1.1.isWord_of_kept (.inl h.1.2), ih h.2, trivial⟩

/-- no sign has the text that a grouping has at its head -/
theorem sign_ne_group {operator : Token} (h : operator.Spelled)
    (hkind : operator.kind = .bang ∨ operator.kind = .minus) :
    operator.lexeme ≠ "group" := by
  intro heq
  rw [h.kind_eq Token.spelled_group heq] at hkind
  simp at hkind

/-- no operator between two operands has the text that an assignment has at its head -/
theorem operator_ne_equal {operator : Token} (h : operator.Spelled)
    (hkind : operator.kind.binaryTier? ≠ none ∨ operator.kind.logicalTier? ≠ none) : operator.lexeme ≠ "=" := by
  intro heq
  rw [h.kind_eq Token.spelled_equal heq] at hkind
  simp [TokenKind.binaryTier?, TokenKind.logicalTier?] at hkind

/-- no two operators of which one is logical and the other is not have the same text -/
theorem binary_ne_logical {operator operator' : Token} (h : operator.Spelled) (h' : operator'.Spelled)
    (hkind : operator.kind.binaryTier? ≠ none) (hkind' : operator'.kind.logicalTier? ≠ none) :
    operator.lexeme ≠ operator'.lexeme := by
  intro heq
  rw [h.kind_eq h' heq] at hkind
  cases hkind'' : operator'.kind <;> simp_all [TokenKind.binaryTier?, TokenKind.logicalTier?]

/-- **Outlines tell expressions apart**, up to the lines of their tokens. -/
theorem same_of_outline {e e' : Expr} (h : e.Legible) (h' : e'.Legible) (heq : e.outline = e'.outline) :
    e.mapTokens (Token.onLine 0) = e'.mapTokens (Token.onLine 0) := by
  -- by induction on the first one; what the second one can be is decided by the number of arguments and by the head
  induction e generalizing e' with
  | literal value =>
    cases e' <;> simp only [outline, Outline.word.injEq, reduceCtorEq] at heq
    case literal value' => rw [Value.prefixed_injective h.1 h'.1 h.2 h'.2 heq]
    case var name' => exact absurd heq (Value.prefixed_ne_name h.1 h.2 h'.1 h'.2)
  | unary operator operand ih =>
    cases e' <;> simp only [outline, Outline.node.injEq, List.cons.injEq, and_true, reduceCtorEq, and_false] at heq
    case unary operator' operand' => rw [mapTokens, mapTokens, h.1.1.onLine_eq h'.1.1 heq.1, ih h.2 h'.2 heq.2]
    case grouping inner' => exact absurd heq.1 (sign_ne_group h.1.1 h.1.2)
  | binary left operator right ihl ihr =>
    cases e' <;> simp only [outline, Outline.node.injEq, List.cons.injEq, and_true, reduceCtorEq, and_false] at heq
    case binary left' operator' right' =>
      rw [mapTokens, mapTokens, h.1.1.onLine_eq h'.1.1 heq.1, ihl h.2.1 h'.2.1 heq.2.1, ihr h.2.2 h'.2.2 heq.2.2]
    case logical left' operator' right' => exact absurd heq.1 (binary_ne_logical h.1.1 h'.1.1 h.1.2 h'.1.2)
    case assign name' value' => exact absurd heq.1 (operator_ne_equal h.1.1 (.inl h.1.2))
  | logical left operator right ihl ihr =>
    cases e' <;> simp only [outline, Outline.node.injEq, List.cons.injEq, and_true, reduceCtorEq, and_false] at heq
    case binary left' operator' right' => exact absurd heq.1.symm (binary_ne_logical h'.1.1 h.1.1 h'.1.2 h.1.2)
    case logical left' operator' right' =>
      rw [mapTokens, mapTokens, h.1.1.onLine_eq h'.1.1 heq.1, ihl h.2.1 h'.2.1 heq.2.1, ihr h.2.2 h'.2.2 heq.2.2]
    case assign name' value' => exact absurd heq.1 (operator_ne_equal h.1.1 (.inr h.1.2))
  | grouping inner ih =>
    cases e' <;> simp only [outline, Outline.node.injEq, List.cons.injEq, and_true, reduceCtorEq, and_false] at heq
    case unary operator' operand' => exact absurd heq.1.symm (sign_ne_group h'.1.1 h'.1.2)
    case grouping inner' =>
      have hinner : inner'.Legible := h'
      rw [mapTokens, mapTokens, ih h hinner heq.2]
  | var name =>
    cases e' <;> simp only [outline, Outline.word.injEq, reduceCtorEq] at heq
    case literal value' => exact absurd heq.symm (Value.prefixed_ne_name h'.1 h'.2 h.1 h.2)
    case var name' => rw [mapTokens, mapTokens, h.1.onLine_eq h'.1 heq]
  | assign name value ih =>
    cases e' <;> simp only [outline, Outline.node.injEq, Outline.word.injEq, List.cons.injEq, and_true, reduceCtorEq,
      and_false, true_and] at heq
    case binary left' operator' right' => exact absurd heq.1.symm (operator_ne_equal h'.1.1 (.inl h'.1.2))
    case logical left' operator' right' => exact absurd heq.1.symm (operator_ne_equal h'.1.1 (.inr h'.1.2))
    case assign name' value' => rw [mapTokens, mapTokens, h.1.1.onLine_eq h'.1.1 heq.1, ih h.2 h'.2 heq.2]

end Expr

/-! ## Statements -/

namespace Stmt

mutual

def literals : Stmt → List Value
  | .expression expr => expr.literals
  | .print expr => expr.literals
  | .declare _ none => []
  | .declare _ (some expr) => expr.literals
  | .assign _ value => value.literals
  | .block body => literalsAll body
  | .branch condition yes no => condition.literals ++ (yes.literals ++ no.literals)
  | .skip => []

def literalsAll : List Stmt → List Value
  | [] => []
  | s :: rest => s.literals ++ literalsAll rest

end

mutual

/-- the statement could have been read from a source, and its literals can be told apart -/
def Legible : Stmt → Prop
  | .expression expr => expr.Legible
  | .print expr => expr.Legible
  | .declare name none => name.Spelled ∧ name.kind = .identifier
  | .declare name (some expr) => (name.Spelled ∧ name.kind = .identifier) ∧ expr.Legible
  | .assign _ _ => False
  | .block body => LegibleAll body
  | .branch condition yes no => condition.Legible ∧ yes.Legible ∧ (no.isSkip = false → no.Legible)
  | .skip => False

def LegibleAll : List Stmt → Prop
  | [] => True
  | s :: rest => s.Legible ∧ LegibleAll rest

end

mutual

theorem legible_of_canonical : ∀ {s : Stmt}, s.canonical = true → (∀ t, .kept t ∈ s.spelling → t.Spelled) →
    (∀ v ∈ s.literals, v.Plain) → s.Legible
  | .expression e, hcanonical, hspelled, hliterals =>
    Expr.legible_of_fits hcanonical (fun t ht => hspelled t (by simp [spelling, ht])) hliterals
  | .print e, hcanonical, hspelled, hliterals =>
    Expr.legible_of_fits hcanonical (fun t ht => hspelled t (by simp [spelling, ht])) hliterals
  | .declare name none, hcanonical, hspelled, _ => ⟨hspelled name (by simp [spelling]), of_decide_eq_true hcanonical⟩
  | .declare name (some e), hcanonical, hspelled, hliterals => by
    simp only [canonical, Bool.and_eq_true, decide_eq_true_eq] at hcanonical
    refine ⟨⟨hspelled name (by simp [spelling]), hcanonical.1⟩, ?_⟩
    exact Expr.legible_of_fits hcanonical.2 (fun t ht => hspelled t (by simp [spelling, ht])) hliterals
  | .assign _ _, hcanonical, _, _ => absurd hcanonical Bool.false_ne_true
  | .block body, hcanonical, hspelled, hliterals =>
    legibleAll_of_canonical hcanonical (fun t ht => hspelled t (by simp [spelling, ht])) hliterals
  | .branch condition yes no, hcanonical, hspelled, hliterals => by
    simp only [canonical, Bool.and_eq_true, Bool.or_eq_true] at hcanonical
    obtain ⟨⟨hcondition, hyes, -⟩, hno⟩ := hcanonical
    simp only [literals, List.mem_append] at hliterals
    refine ⟨?_, ?_, fun hskip => ?_⟩
    · exact Expr.legible_of_fits hcondition (fun t ht => hspelled t (by simp [spelling, ht])) fun v hv =>
        hliterals v (.inl hv)
    · exact legible_of_canonical hyes (fun t ht => hspelled t (by simp [spelling, ht])) fun v hv =>
        hliterals v (.inr (.inl hv))
    · have hcanonical := (hno.resolve_left (by simp [hskip])).1.1
      exact legible_of_canonical hcanonical (fun t ht => hspelled t (by simp [spelling, hskip, ht]))
        fun v hv => hliterals v (.inr (.inr hv))
  | .skip, hcanonical, _, _ => absurd hcanonical Bool.false_ne_true

theorem legibleAll_of_canonical : ∀ {body : List Stmt}, canonicalAll body = true →
    (∀ t, .kept t ∈ spellingAll body → t.Spelled) → (∀ v ∈ literalsAll body, v.Plain) → LegibleAll body
  | [], _, _, _ => trivial
  | s :: rest, hcanonical, hspelled, hliterals => by
    simp only [canonicalAll, Bool.and_eq_true] at hcanonical
    simp only [spellingAll, List.mem_append] at hspelled
    simp only [literalsAll, List.mem_append] at hliterals
    constructor
    · exact legible_of_canonical hcanonical.1 (fun t ht => hspelled t (.inl ht)) fun v hv => hliterals v (.inl hv)
    · exact legibleAll_of_canonical hcanonical.2 (fun t ht => hspelled t (.inr ht)) fun v hv => hliterals v (.inr hv)

end

mutual

theorem worded_outline : ∀ {s : Stmt}, s.Legible → s.outline.Worded
  | .expression e, h => ⟨by decide +kernel, Expr.worded_outline h, trivial⟩
  | .print e, h => ⟨by decide +kernel, Expr.worded_outline h, trivial⟩
  | .declare name none, h => ⟨by decide +kernel, h.1.isWord_of_kept (.inl h.2), trivial⟩
  | .declare name (some e), h =>
    ⟨by decide +kernel, h.1.1.isWord_of_kept (.inl h.1.2), Expr.worded_outline h.2, trivial⟩
  | .block body, h => ⟨by decide +kernel, wordedAll_outlineAll h⟩
  | .branch condition yes no, ⟨hcondition, hyes, hno⟩ => by
    refine ⟨by decide +kernel, Expr.worded_outline hcondition, worded_outline hyes, ?_⟩
    split_ifs with hskip
    · trivial
    · exact ⟨worded_outline (hno (Bool.eq_false_iff.2 hskip)), trivial⟩

theorem wordedAll_outlineAll : ∀ {body : List Stmt}, LegibleAll body → Outline.WordedAll (outlineAll body)
  | [], _ => trivial
  | _ :: _, h => ⟨worded_outline h.1, wordedAll_outlineAll h.2⟩

end

theorem eq_skip_of_isSkip {s : Stmt} (h : s.isSkip = true) : s = .skip := by
  cases s with
  | skip => rfl
  | _ => cases h

mutual

/-- **Outlines tell statements apart**, up to the lines of their tokens. -/
theorem same_of_outline : ∀ {s s' : Stmt}, s.Legible → s'.Legible → s.outline = s'.outline →
    s.mapTokens (Token.onLine 0) = s'.mapTokens (Token.onLine 0)
  | .expression e, s', h, h', heq => by
    cases s' with
    | expression e' =>
      simp only [outline, Outline.node.injEq, List.cons.injEq, and_true, true_and] at heq
      rw [mapTokens, mapTokens, Expr.same_of_outline h h' heq]
    | declare name' initial' => cases initial' <;> simp [outline] at heq
    | _ => simp [outline] at heq
  | .print e, s', h, h', heq => by
    cases s' with
    | print e' =>
      simp only [outline, Outline.node.injEq, List.cons.injEq, and_true, true_and] at heq
      rw [mapTokens, mapTokens, Expr.same_of_outline h h' heq]
    | declare name' initial' => cases initial' <;> simp [outline] at heq
    | _ => simp [outline] at heq
  | .declare name none, s', h, h', heq => by
    cases s' with
    | declare name' initial' =>
      cases initial' with
      | none =>
        simp only [outline, Outline.node.injEq, Outline.word.injEq, List.cons.injEq, and_true, true_and] at heq
        rw [mapTokens, mapTokens, h.1.onLine_eq h'.1 heq]
      | some e' => simp [outline] at heq
    | _ => simp [outline] at heq
  | .declare name (some e), s', h, h', heq => by
    cases s' with
    | declare name' initial' =>
      cases initial' with
      | none => simp [outline] at heq
      | some e' =>
        simp only [outline, Outline.node.injEq, Outline.word.injEq, List.cons.injEq, and_true, true_and] at heq
        rw [mapTokens, mapTokens, h.1.1.onLine_eq h'.1.1 heq.1, Expr.same_of_outline h.2 h'.2 heq.2]
    | _ => simp [outline] at heq
  | .block body, s', h, h', heq => by
    cases s' with
    | block body' =>
      simp only [outline, Outline.node.injEq, true_and] at heq
      rw [mapTokens, mapTokens, sameAll_of_outline h h' heq]
    | declare name' initial' => cases initial' <;> simp [outline] at heq
    | _ => simp [outline] at heq
  | .branch condition yes no, s', ⟨hcondition, hyes, hno⟩, h', heq => by
    cases s' with
    | branch condition' yes' no' =>
      obtain ⟨hcondition', hyes', hno'⟩ := h'
      simp only [outline, Outline.node.injEq, List.cons.injEq, true_and] at heq
      obtain ⟨heqc, heqy, heqn⟩ := heq
      have hbranch : no.mapTokens (Token.onLine 0) = no'.mapTokens (Token.onLine 0) := by
        split_ifs at heqn with hskip hskip' hskip'
        · rw [eq_skip_of_isSkip hskip, eq_skip_of_isSkip hskip']
        · exact same_of_outline (hno (Bool.eq_false_iff.2 hskip)) (hno' (Bool.eq_false_iff.2 hskip'))
            (List.cons.inj heqn).1
      rw [mapTokens, mapTokens, Expr.same_of_outline hcondition hcondition' heqc,
        same_of_outline hyes hyes' heqy, hbranch]
    | declare name' initial' => cases initial' <;> simp [outline] at heq
    | _ => simp [outline] at heq

theorem sameAll_of_outline : ∀ {body body' : List Stmt}, LegibleAll body → LegibleAll body' →
    outlineAll body = outlineAll body' → mapTokensAll (Token.onLine 0) body = mapTokensAll (Token.onLine 0) body'
  | [], [], _, _, _ => rfl
  | _ :: _, _ :: _, h, h', heq => by
    simp only [outlineAll, List.cons.injEq] at heq
    rw [mapTokensAll, mapTokensAll, same_of_outline h.1 h'.1 heq.1, sameAll_of_outline h.2 h'.2 heq.2]

end

/-! ## Sources -/

/-- a token that a spelling keeps is among those that spell it -/
theorem mem_of_spells {marks : List Mark} {tokens : List Token} (h : Spells marks tokens) {t : Token}
    (ht : .kept t ∈ marks) :
    t ∈ tokens := by
  induction h with
  | nil => cases ht
  | @cons mark u marks tokens hmark _ ih =>
    rcases List.mem_cons.1 ht with rfl | ht
    · rw [show u = t from hmark]
      exact List.mem_cons_self
    · exact List.mem_cons_of_mem u (ih ht)

theorem mem_spellingAll {program : Program} {s : Stmt} (hs : s ∈ program) {mark : Mark} (h : mark ∈ s.spelling) :
    mark ∈ spellingAll program := by
  induction program with
  | nil => cases hs
  | cons first rest ih =>
    rcases List.mem_cons.1 hs with rfl | hs
    · exact List.mem_append_left _ h
    · exact List.mem_append_right _ (ih hs)

/-- what a source is accepted as is legible, strings and infinite numbers apart -/
theorem legible_of_compile {content : Bytes} {program : Program} {s : Stmt} (h : compile content = .ok program)
    (hs : s ∈ program) (hliterals : ∀ v ∈ s.literals, v.Plain) : s.Legible := by
  obtain ⟨cuts, hcuts⟩ := division_exists content
  obtain ⟨-, hread⟩ := (compile_eq_ok_iff hcuts).1 h
  refine legible_of_canonical (canonicalAll_iff.1 hread.canonical s hs) (fun t ht => ?_) hliterals
  exact hcuts.spelled 1 t (mem_of_spells hread.spelled (mem_spellingAll hs ht))

/-- **Prefix forms are faithful.** Two statements that were read from sources, without strings and with finite numbers
only, have the same prefix form if and only if they are the same but for the lines on which their tokens stood. -/
theorem prefixed_eq_iff {content content' : Bytes} {program program' : Program} {s s' : Stmt}
    (h : compile content = .ok program) (h' : compile content' = .ok program') (hs : s ∈ program) (hs' : s' ∈ program')
    (hliterals : ∀ v ∈ s.literals, v.Plain) (hliterals' : ∀ v ∈ s'.literals, v.Plain) :
    s.prefixed = s'.prefixed ↔ s.mapTokens (Token.onLine 0) = s'.mapTokens (Token.onLine 0) := by
  constructor
  · intro heq
    have hlegible := legible_of_compile h hs hliterals
    have hlegible' := legible_of_compile h' hs' hliterals'
    have hchars : s.outline.chars = s'.outline.chars := by rw [← prefixed_eq, ← prefixed_eq, heq]
    have houtline := Outline.chars_inj (worded_outline hlegible) (worded_outline hlegible') hchars
    exact same_of_outline hlegible hlegible' houtline
  · intro heq
    rw [← prefixed_mapTokens (Token.moves_onLine 0) s, heq, prefixed_mapTokens (Token.moves_onLine 0)]

/-- a sum whose sign stands on the given line -/
def sumOn (line : Nat) : Stmt :=
  .print (.binary (.unary ⟨.minus, "-", 1⟩ (.var ⟨.identifier, "a", 1⟩)) ⟨.plus, "+", line⟩ (.literal (.number 0.5)))

theorem compile_sumOn_one : compile (Utf8.encode "print -a + 0.5;") = .ok [sumOn 1] := by
  refine compile_of_lexing _ [⟨.kwPrint, "print", 1⟩, ⟨.minus, "-", 1⟩, ⟨.identifier, "a", 1⟩, ⟨.plus, "+", 1⟩,
    ⟨.number 0.5, "0.5", 1⟩, ⟨.semicolon, ";", 1⟩] 1 (by decide +kernel) (by decide +kernel) ?_ (by decide)
  repeat' first | exact .nil | refine .cons rfl ?_

theorem compile_sumOn_two : compile (Utf8.encode "print - a // and\n + 0.50;") = .ok [sumOn 2] := by
  refine compile_of_lexing _ [⟨.kwPrint, "print", 1⟩, ⟨.minus, "-", 1⟩, ⟨.identifier, "a", 1⟩, ⟨.plus, "+", 2⟩,
    ⟨.number 0.5, "0.50", 2⟩, ⟨.semicolon, ";", 2⟩] 2 (by decide +kernel) (by decide +kernel) ?_ (by decide)
  repeat' first | exact .nil | refine .cons rfl ?_

theorem prefixed_eq_iff_sumOn :
    compile (Utf8.encode "print -a + 0.5;") = .ok [sumOn 1] ∧
    compile (Utf8.encode "print - a // and\n + 0.50;") = .ok [sumOn 2] ∧
    (∀ v ∈ (sumOn 1).literals, v.Plain) ∧ (∀ v ∈ (sumOn 2).literals, v.Plain) ∧
    (sumOn 1).prefixed = "(print (+ (- a) 0.5))" ∧ (sumOn 2).prefixed = "(print (+ (- a) 0.5))" ∧
    (sumOn 1).mapTokens (Token.onLine 0) = (sumOn 2).mapTokens (Token.onLine 0) := by
  have hplain : ∀ line, ∀ v ∈ (sumOn line).literals, v.Plain := fun line =>
    List.forall_mem_singleton.2 (show (0.5 : Float).isFinite = true by decide +kernel)
  have hone : (sumOn 1).prefixed = "(print (+ (- a) 0.5))" := by decide +kernel
  have htwo : (sumOn 2).prefixed = "(print (+ (- a) 0.5))" := by decide +kernel
  refine ⟨compile_sumOn_one, compile_sumOn_two, hplain 1, hplain 2, hone, htwo, ?_⟩
  exact (prefixed_eq_iff compile_sumOn_one compile_sumOn_two List.mem_cons_self List.mem_cons_self
    (hplain 1) (hplain 2)).1 (hone.trans htwo.symm)

end Stmt

end Scriptlet
