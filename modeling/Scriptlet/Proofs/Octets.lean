/-
Characters and their bytes. On ASCII, UTF-8 is one byte a character: a byte below 128 is decoded as the character of
that number, whatever stands behind it, and that character is encoded as the byte again. `Octets a tails n` says that
the byte `a` and the bytes `tails` behind it are the UTF-8 form of the code point `n`: one to four bytes, the shortest
form only, and no surrogate. Decoding reads exactly these forms (`octets_of_fit`, `fit_of_octets`) and encoding writes
exactly these forms (`octets_encodeChar`, `encodeChar_of_octets`), so a character is decoded if and only if its own
bytes come next (`character_eq_some_iff`).

Ill-formed bytes are replaced when they are decoded, so encoding does not undo decoding. It is undone for what a text is
cut at: a byte of an ASCII character is never part of anything else, so a text can be decoded up to it and from it on
(`characters_append`), and decoding and encoding again brings no such byte in (`mem_of_mem_encode_decode`).

- `encode_decode`: ASCII bytes decoded and encoded again.
- `decode_encode`: a text encoded and decoded again.
-/
import Mathlib.Data.List.Forall2
import Scriptlet.Bytes

namespace Scriptlet

/-- a fact about each of the 256 bytes -/
theorem forall_byte {P : UInt8 → Prop} (h : ∀ n : Fin 256, P (UInt8.ofFin n)) (b : UInt8) : P b := h b.toFin

namespace Utf8

/-! ## ASCII -/

/-- a byte that is a character of its own -/
def isAscii (b : UInt8) : Bool := b < 128

theorem encodeChar_ofNat : ∀ b : UInt8, isAscii b = true → String.utf8EncodeChar (Char.ofNat b.toNat) = [b] :=
  forall_byte (by decide +kernel)

theorem first_ascii : ∀ b : UInt8, isAscii b = true → first b = some (b.toNat, []) := by
  intro b hb
  have hlt : b.toNat < 0x80 := by simpa [isAscii, UInt8.lt_iff_toNat_lt] using hb
  simp [first, hlt]

theorem characters_cons_ascii {b : UInt8} (hb : isAscii b = true) (rest : Bytes) :
    characters (b :: rest) = Char.ofNat b.toNat :: characters rest := by
  rw [characters, character, first_ascii b hb]
  rfl

theorem flatMap_characters {text : Bytes} (h : ∀ b ∈ text, isAscii b = true) :
    (characters text).flatMap String.utf8EncodeChar = text := by
  induction text with
  | nil => rw [characters]; rfl
  | cons b rest ih =>
    obtain ⟨hb, hrest⟩ := List.forall_mem_cons.1 h
    rw [characters_cons_ascii hb, List.flatMap_cons, encodeChar_ofNat b hb, ih hrest]
    rfl

/-- ASCII bytes are those of the text they are decoded as -/
theorem encode_decode {text : Bytes} (h : ∀ b ∈ text, isAscii b = true) : encode (decode text) = text := by
  rw [encode, decode, String.toList_ofList]
  exact flatMap_characters h

/-! ## Forms of a code point -/

def Continues (b : UInt8) : Prop := 0x80 ≤ b.toNat ∧ b.toNat ≤ 0xBF

/-- a first byte and the bytes that complete it, and their code point -/
inductive Octets : UInt8 → Bytes → Nat → Prop where
  | one {a : UInt8} {n : Nat} (ha : a.toNat < 0x80) (hn : n = a.toNat) : Octets a [] n
  | two {a b : UInt8} {n : Nat} (ha : 0xC2 ≤ a.toNat ∧ a.toNat < 0xE0) (hb : Continues b)
    (hn : n = a.toNat % 0x20 * 0x40 + b.toNat % 0x40) : Octets a [b] n
  | three {a b c : UInt8} {n : Nat} (ha : 0xE0 ≤ a.toNat ∧ a.toNat < 0xF0) (hb : Continues b) (hc : Continues c)
    (hlow : a.toNat = 0xE0 → 0xA0 ≤ b.toNat) (hhigh : a.toNat = 0xED → b.toNat ≤ 0x9F)
    (hn : n = (a.toNat % 0x10 * 0x40 + b.toNat % 0x40) * 0x40 + c.toNat % 0x40) : Octets a [b, c] n
  | four {a b c d : UInt8} {n : Nat} (ha : 0xF0 ≤ a.toNat ∧ a.toNat ≤ 0xF4) (hb : Continues b) (hc : Continues c)
    (hd : Continues d) (hlow : a.toNat = 0xF0 → 0x90 ≤ b.toNat) (hhigh : a.toNat = 0xF4 → b.toNat ≤ 0x8F)
    (hn : n = ((a.toNat % 0x08 * 0x40 + b.toNat % 0x40) * 0x40 + c.toNat % 0x40) * 0x40 + d.toNat % 0x40) :
    Octets a [b, c, d] n

theorem Octets.valid {a : UInt8} {tails : Bytes} {n : Nat} (h : Octets a tails n) : n.isValidChar := by
  unfold Nat.isValidChar
  cases h with
  | one ha hn => omega
  | two ha hb hn =>
    unfold Continues at hb
    omega
  | three ha hb hc hlow hhigh hn =>
    unfold Continues at hb hc
    omega
  | four ha hb hc hd hlow hhigh hn =>
    unfold Continues at hb hc hd
    omega

/-- a byte of ASCII is a form of its own and part of no other -/
theorem Octets.eq_nil_of_ascii {a b : UInt8} {tails : Bytes} {n : Nat} (h : Octets a tails n) (hb : b ∈ a :: tails)
    (hascii : isAscii b = true) : tails = [] ∧ a = b ∧ n = b.toNat := by
  have hlow : b.toNat < 0x80 := by simpa [isAscii, UInt8.lt_iff_toNat_lt] using hascii
  cases h with
  | one ha hn =>
    obtain rfl := List.mem_singleton.1 hb
    exact ⟨rfl, rfl, hn⟩
  | two ha hb' hn =>
    simp only [List.mem_cons, List.not_mem_nil, or_false, Continues] at *
    rcases hb with rfl | rfl <;> omega
  | three ha hb' hc hlow hhigh hn =>
    simp only [List.mem_cons, List.not_mem_nil, or_false, Continues] at *
    rcases hb with rfl | rfl | rfl <;> omega
  | four ha hb' hc hd hlow hhigh hn =>
    simp only [List.mem_cons, List.not_mem_nil, or_false, Continues] at *
    rcases hb with rfl | rfl | rfl | rfl <;> omega

/-! ## Decoding -/

theorem Span.holds_iff {s : Span} {b : UInt8} :
    s.holds b = true ↔ s.low.toNat ≤ b.toNat ∧ b.toNat ≤ s.high.toNat := by
  simp [Span.holds, UInt8.le_iff_toNat_le]

theorem tail_holds_iff {b : UInt8} : tail.holds b = true ↔ Continues b := Span.holds_iff

/-- the bytes lie in the ranges, one by one -/
abbrev Fit (spans : List Span) (tails : Bytes) : Prop := List.Forall₂ (fun s b => s.holds b = true) spans tails

/-- the code point that bytes make of the leading bits -/
def assemble (code : Nat) (tails : Bytes) : Nat := tails.foldl (fun code b => code * 0x40 + b.toNat % 0x40) code

theorem finish_of_fit {code : Nat} {spans : List Span} {tails : Bytes} (h : Fit spans tails) (more : Bytes) :
    finish code spans (tails ++ more) = (some (assemble code tails), more) := by
  induction h generalizing code with
  | nil => rfl
  | cons hb h ih =>
    rw [List.cons_append, finish, if_pos hb, ih]
    rfl

theorem fit_of_finish {code n : Nat} {spans : List Span} {bytes more : Bytes}
    (h : finish code spans bytes = (some n, more)) :
    ∃ tails, bytes = tails ++ more ∧ Fit spans tails ∧ n = assemble code tails := by
  induction spans generalizing code bytes with
  | nil =>
    cases h
    exact ⟨[], rfl, .nil, rfl⟩
  | cons s spans ih =>
    cases bytes with
    | nil => simp [finish] at h
    | cons b rest =>
      simp only [finish] at h
      split_ifs at h with hb
      · obtain ⟨tails, rfl, hfit, hn⟩ := ih h
        exact ⟨b :: tails, rfl, .cons hb hfit, hn⟩
      · simp at h

/-- what a first byte announces makes a form with it -/
theorem octets_of_fit {a : UInt8} {code : Nat} {spans : List Span} {tails : Bytes} (h : first a = some (code, spans))
    (hfit : Fit spans tails) : Octets a tails (assemble code tails) := by
  unfold first at h
  simp only at h
  -- one case for each row of the table; the rows of one length differ in the range of the second byte alone
  split_ifs at h <;> cases h <;>
    simp only [Fit, List.forall₂_cons_left_iff, List.forall₂_nil_left_iff, Span.holds_iff, tail,
      UInt8.reduceToNat] at hfit
  · subst hfit
    exact .one ‹_› rfl
  · obtain ⟨b, _, hb, rfl, rfl⟩ := hfit
    exact .two (by omega) hb rfl
  iterate 3
    · obtain ⟨b, _, hb, ⟨c, _, hc, rfl, rfl⟩, rfl⟩ := hfit
      exact .three (by omega) ⟨by omega, by omega⟩ hc (by omega) (by omega) rfl
  iterate 3
    · obtain ⟨b, _, hb, ⟨c, _, hc, ⟨d, _, hd, rfl, rfl⟩, rfl⟩, rfl⟩ := hfit
      exact .four (by omega) ⟨by omega, by omega⟩ hc hd (by omega) (by omega) rfl

/-- the first byte of a form announces the others -/
theorem fit_of_octets {a : UInt8} {tails : Bytes} {n : Nat} (h : Octets a tails n) :
    ∃ code spans, first a = some (code, spans) ∧ Fit spans tails ∧ assemble code tails = n := by
  cases h with
  | one ha hn => exact ⟨a.toNat, [], by simp only [first, if_pos ha], .nil, hn.symm⟩
  | two ha hb hn =>
    refine ⟨a.toNat % 0x20, [tail], ?_, .cons (tail_holds_iff.2 hb) .nil, hn.symm⟩
    simp only [first]
    rw [if_neg (by omega), if_neg (by omega), if_pos (by omega)]
  | three ha hb hc hlow hhigh hn =>
    have hrest : ∀ {s : Span} {b : UInt8}, s.holds b = true → Fit [s, tail] [b, _] :=
      fun hs => .cons hs (.cons (tail_holds_iff.2 hc) .nil)
    by_cases hfirst : a.toNat = 0xE0
    · refine ⟨a.toNat % 0x10, [⟨0xA0, 0xBF⟩, tail], ?_, hrest (Span.holds_iff.2 ⟨hlow hfirst, hb.2⟩), hn.symm⟩
      simp [first, hfirst]
    by_cases hsurrogate : a.toNat = 0xED
    · refine ⟨a.toNat % 0x10, [⟨0x80, 0x9F⟩, tail], ?_, hrest (Span.holds_iff.2 ⟨hb.1, hhigh hsurrogate⟩), hn.symm⟩
      simp [first, hsurrogate]
    · refine ⟨a.toNat % 0x10, [tail, tail], ?_, hrest (tail_holds_iff.2 hb), hn.symm⟩
      simp only [first]
      rw [if_neg (by omega), if_neg (by omega), if_neg (by omega), if_neg hfirst, if_neg hsurrogate, if_pos (by omega)]
  | four ha hb hc hd hlow hhigh hn =>
    have hrest : ∀ {s : Span} {b : UInt8}, s.holds b = true → Fit [s, tail, tail] [b, _, _] :=
      fun hs => .cons hs (.cons (tail_holds_iff.2 hc) (.cons (tail_holds_iff.2 hd) .nil))
    by_cases hfirst : a.toNat = 0xF0
    · refine ⟨a.toNat % 0x08, [⟨0x90, 0xBF⟩, tail, tail], ?_, hrest (Span.holds_iff.2 ⟨hlow hfirst, hb.2⟩), hn.symm⟩
      simp [first, hfirst]
    by_cases hlast : a.toNat = 0xF4
    · refine ⟨a.toNat % 0x08, [⟨0x80, 0x8F⟩, tail, tail], ?_, hrest (Span.holds_iff.2 ⟨hb.1, hhigh hlast⟩), hn.symm⟩
      simp [first, hlast]
    · refine ⟨a.toNat % 0x08, [tail, tail, tail], ?_, hrest (tail_holds_iff.2 hb), hn.symm⟩
      simp only [first]
      rw [if_neg (by omega), if_neg (by omega), if_neg (by omega), if_neg (by omega), if_neg (by omega),
        if_neg (by omega), if_neg hfirst, if_pos (by omega)]

/-! ## Encoding -/

theorem toNat_ofNat_of_lt {n : Nat} (h : n < 256) : (UInt8.ofNat n).toNat = n :=
  UInt8.toNat_ofNat_of_lt' (by simpa using h)

/-- the bytes of a character are a form of its code point -/
theorem octets_encodeChar (c : Char) : ∃ a tails, String.utf8EncodeChar c = a :: tails ∧ Octets a tails c.toNat := by
  have hvalid : c.toNat < 0xD800 ∨ 0xDFFF < c.toNat ∧ c.toNat < 0x110000 := c.valid
  unfold String.utf8EncodeChar
  simp only [show c.val.toNat = c.toNat from rfl]
  generalize c.toNat = n at *
  have hlow : (UInt8.ofNat (n % 64 + 128)).toNat = n % 64 + 128 := toNat_ofNat_of_lt (by omega)
  have hmid : (UInt8.ofNat (n / 64 % 64 + 128)).toNat = n / 64 % 64 + 128 := toNat_ofNat_of_lt (by omega)
  have hhigh : (UInt8.ofNat (n / 4096 % 64 + 128)).toNat = n / 4096 % 64 + 128 := toNat_ofNat_of_lt (by omega)
  split_ifs with hone htwo hthree
  · have ha : (UInt8.ofNat n).toNat = n := toNat_ofNat_of_lt (by omega)
    exact ⟨_, _, rfl, .one (by omega) ha.symm⟩
  · have ha : (UInt8.ofNat (n / 64 % 32 + 192)).toNat = n / 64 % 32 + 192 := toNat_ofNat_of_lt (by omega)
    refine ⟨_, _, rfl, .two ?_ ?_ ?_⟩ <;> simp only [Continues, ha, hlow] <;> omega
  · have ha : (UInt8.ofNat (n / 4096 % 16 + 224)).toNat = n / 4096 % 16 + 224 := toNat_ofNat_of_lt (by omega)
    refine ⟨_, _, rfl, .three ?_ ?_ ?_ ?_ ?_ ?_⟩ <;> simp only [Continues, ha, hlow, hmid] <;> omega
  · have ha : (UInt8.ofNat (n / 262144 % 8 + 240)).toNat = n / 262144 % 8 + 240 := toNat_ofNat_of_lt (by omega)
    refine ⟨_, _, rfl, .four ?_ ?_ ?_ ?_ ?_ ?_ ?_⟩ <;> simp only [Continues, ha, hlow, hmid, hhigh] <;> omega

/-- a character has one form only -/
theorem encodeChar_of_octets {a : UInt8} {tails : Bytes} {c : Char} (h : Octets a tails c.toNat) :
    String.utf8EncodeChar c = a :: tails := by
  unfold String.utf8EncodeChar
  simp only [show c.val.toNat = c.toNat from rfl]
  generalize c.toNat = n at *
  cases h with
  | one ha hn =>
    rw [if_pos (by omega), hn, UInt8.ofNat_toNat]
  | two ha hb hn =>
    unfold Continues at hb
    rw [if_neg (by omega), if_pos (by omega)]
    simp only [List.cons.injEq, ← UInt8.toNat_inj, and_true]
    rw [toNat_ofNat_of_lt, toNat_ofNat_of_lt] <;> omega
  | three ha hb hc hlow hhigh hn =>
    unfold Continues at hb hc
    rw [if_neg (by omega), if_neg (by omega), if_pos (by omega)]
    simp only [List.cons.injEq, ← UInt8.toNat_inj, and_true]
    rw [toNat_ofNat_of_lt, toNat_ofNat_of_lt, toNat_ofNat_of_lt] <;> omega
  | four ha hb hc hd hlow hhigh hn =>
    unfold Continues at hb hc hd
    rw [if_neg (by omega), if_neg (by omega), if_neg (by omega)]
    simp only [List.cons.injEq, ← UInt8.toNat_inj, and_true]
    rw [toNat_ofNat_of_lt, toNat_ofNat_of_lt, toNat_ofNat_of_lt, toNat_ofNat_of_lt] <;> omega

/-! ## Characters -/

theorem toNat_ofNat_of_valid {n : Nat} (h : n.isValidChar) : (Char.ofNat n).toNat = n := by
  unfold Char.ofNat
  rw [dif_pos h]
  rfl

/-- **A character is decoded where its own bytes come next**, and nowhere else. -/
theorem character_eq_some_iff {b : UInt8} {rest more : Bytes} {c : Char} :
    character b rest = (some c, more) ↔ b :: rest = String.utf8EncodeChar c ++ more := by
  constructor
  · intro h
    unfold character at h
    split at h
    · cases h
    · rename_i code spans hfirst
      obtain ⟨n, hn, rfl⟩ := Option.map_eq_some_iff.1 (Prod.ext_iff.1 h).1
      obtain ⟨tails, rfl, hfit, rfl⟩ := fit_of_finish (Prod.ext hn (Prod.ext_iff.1 h).2)
      have hoctets := octets_of_fit hfirst hfit
      rw [encodeChar_of_octets (by rwa [toNat_ofNat_of_valid hoctets.valid])]
      rfl
  · intro h
    obtain ⟨a, tails, hc, hoctets⟩ := octets_encodeChar c
    rw [hc, List.cons_append] at h
    obtain ⟨rfl, rfl⟩ := List.cons.inj h
    obtain ⟨code, spans, hfirst, hfit, hn⟩ := fit_of_octets hoctets
    simp only [character, hfirst, finish_of_fit hfit, hn, Option.map_some, Char.ofNat_toNat]

theorem characters_encodeChar_append (c : Char) (more : Bytes) :
    characters (String.utf8EncodeChar c ++ more) = c :: characters more := by
  obtain ⟨a, tails, hc, -⟩ := octets_encodeChar c
  have hcharacter : character a (tails ++ more) = (some c, more) := character_eq_some_iff.2 (by rw [hc]; rfl)
  rw [hc, List.cons_append, characters, hcharacter]
  rfl

/-- a text is what its bytes are decoded as -/
theorem decode_encode (text : String) : decode (encode text) = text := by
  have hchars : ∀ chars : List Char, characters (chars.flatMap String.utf8EncodeChar) = chars := by
    intro chars
    induction chars with
    | nil => rw [List.flatMap_nil, characters]
    | cons c chars ih => rw [List.flatMap_cons, characters_encodeChar_append, ih]
  rw [decode, encode, hchars, String.ofList_toList]

/-! ## Bytes of ASCII -/

/-- no first byte announces a byte of ASCII -/
theorem spans_above_ascii : ∀ a : UInt8, ∀ form ∈ first a, ∀ s ∈ form.2, 0x80 ≤ s.low := by
  refine forall_byte ?_
  decide +kernel

/-- a character that breaks off at a byte of ASCII is one that breaks off -/
theorem finish_append {b : UInt8} (hb : isAscii b = true) (more : Bytes) {spans : List Span}
    (hspans : ∀ s ∈ spans, 0x80 ≤ s.low) (code : Nat) (text : Bytes) :
    finish code spans (text ++ b :: more) = ((finish code spans text).1, (finish code spans text).2 ++ b :: more) := by
  induction spans generalizing code text with
  | nil => rfl
  | cons s spans ih =>
    obtain ⟨hs, hspans⟩ := List.forall_mem_cons.1 hspans
    cases text with
    | nil =>
      have hout : s.holds b = false := by
        simp only [isAscii, decide_eq_true_eq, UInt8.lt_iff_toNat_lt] at hb
        simp only [UInt8.le_iff_toNat_le] at hs
        by_contra hin
        have hlow := (Span.holds_iff.1 (by simpa using hin)).1
        exact absurd (Nat.lt_of_lt_of_le hb (Nat.le_trans hs hlow)) (Nat.lt_irrefl _)
      simp [finish, hout]
    | cons c text =>
      simp only [List.cons_append, finish]
      split_ifs
      · exact ih hspans _ text
      · rfl

/-- a text is decoded up to a byte of ASCII and from it on -/
theorem characters_append {b : UInt8} (hb : isAscii b = true) (text more : Bytes) :
    characters (text ++ b :: more) = characters text ++ characters (b :: more) := by
  have hcharacter : ∀ a rest, character a (rest ++ b :: more) =
      ((character a rest).1, (character a rest).2 ++ b :: more) := by
    intro a rest
    unfold character
    split
    · rfl
    · rename_i code spans hfirst
      rw [finish_append hb more (spans_above_ascii a (code, spans) hfirst)]
  fun_induction characters text with
  | case1 => rfl
  | case2 a rest ih =>
    rw [List.cons_append, characters, hcharacter, ih]
    rfl

theorem finish_suffix (code : Nat) (spans : List Span) (bytes : Bytes) : (finish code spans bytes).2 <:+ bytes := by
  fun_induction finish code spans bytes with
  | case1 code rest => exact List.suffix_refl rest
  | case2 code s spans => exact List.suffix_refl []
  | case3 code s spans b rest hb ih => exact ih.trans (List.suffix_cons b rest)
  | case4 code s spans b rest hb => exact List.suffix_refl _

theorem character_suffix (b : UInt8) (rest : Bytes) : (character b rest).2 <:+ rest := by
  unfold character
  split
  · exact List.suffix_refl rest
  · exact finish_suffix _ _ rest

/-- a character of ASCII is decoded from its byte only -/
theorem mem_of_mem_characters {b : UInt8} (hb : isAscii b = true) {text : Bytes}
    (h : Char.ofNat b.toNat ∈ characters text) : b ∈ text := by
  fun_induction characters text with
  | case1 => cases h
  | case2 a rest ih =>
    rcases List.mem_cons.1 h with hhead | htail
    · cases hcharacter : (character a rest).1 with
      | none =>
        -- the replacement character is not of ASCII
        rw [hcharacter] at hhead
        have hne : ∀ b : UInt8, isAscii b = true → Char.ofNat b.toNat ≠ replacement := forall_byte (by decide +kernel)
        exact absurd hhead (hne b hb)
      | some c =>
        rw [hcharacter] at hhead
        obtain rfl : Char.ofNat b.toNat = c := hhead
        have hbytes := character_eq_some_iff.1 (Prod.ext hcharacter rfl)
        rw [encodeChar_ofNat b hb] at hbytes
        rw [hbytes]
        exact List.mem_append_left _ (List.mem_singleton_self b)
    · exact List.mem_cons_of_mem a ((character_suffix a rest).subset (ih htail))

/-- decoding and encoding again brings no byte of ASCII in -/
theorem mem_of_mem_encode_decode {b : UInt8} (hb : isAscii b = true) {text : Bytes} (h : b ∈ encode (decode text)) :
    b ∈ text := by
  rw [encode, decode, String.toList_ofList] at h
  obtain ⟨c, hc, hbyte⟩ := List.mem_flatMap.1 h
  obtain ⟨a, tails, hoctets, hform⟩ := octets_encodeChar c
  rw [hoctets] at hbyte
  obtain ⟨-, -, hn⟩ := hform.eq_nil_of_ascii hbyte hb
  refine mem_of_mem_characters hb ?_
  rwa [← hn, Char.ofNat_toNat]

end Utf8

end Scriptlet
