/-
Texts of numbers. What a numeral stands for can be read off its characters (`Numeral.worth`): its digits as one natural,
with as many places behind the point as are written there. A decimal that is laid out without an exponent stands for
itself, on whichever side of its digits the zeros are put. So the text of a finite double stands for a number that
rounds to this double and to no other: the whole number that it is, or the shortest decimal.

- `Numeral.full_eq`: the text is a sign and a numeral that rounds to the double.
- `Numeral.full_injective`: finite doubles with the same text are the same.
-/
import Scriptlet.Proofs.Payloads
import Scriptlet.Proofs.ShortestDecimals

namespace Scriptlet.Numeral

/-! ## Digits -/

section Digits

variable {digits fraction : List Char}

theorem natural_eq_ofDigitChars (digits : List Char) : natural digits = Nat.ofDigitChars 10 digits 0 := rfl

theorem natural_append (first second : List Char) :
    natural (first ++ second) = 10 ^ second.length * natural first + natural second := by
  simp only [natural_eq_ofDigitChars, Nat.ofDigitChars_append]
  exact Nat.ofDigitChars_eq_ofDigitChars_zero

theorem natural_zeros (n : Nat) : natural (List.replicate n '0') = 0 := by
  rw [natural_eq_ofDigitChars, Nat.ofDigitChars_replicate_zero, Nat.mul_zero]

theorem natural_repr (n : Nat) : natural (Nat.repr n).toList = n := by
  rw [Nat.toList_repr, natural_eq_ofDigitChars, Nat.ofDigitChars_ten_toDigits]

theorem isDigit_repr (n : Nat) : ∀ c ∈ (Nat.repr n).toList, c.isDigit = true := by
  intro c hc
  rw [Nat.toList_repr] at hc
  exact Nat.isDigit_of_mem_toDigits (by decide) (by decide) hc

theorem repr_toList_ne_nil (n : Nat) : (Nat.repr n).toList ≠ [] := by
  rw [Nat.toList_repr]
  exact Nat.toDigits_ne_nil

theorem isDigit_zeros (n : Nat) : ∀ c ∈ List.replicate n '0', c.isDigit = true := by
  intro c hc
  rw [List.eq_of_mem_replicate hc]
  decide

theorem ne_point_of_isDigit {c : Char} (h : c.isDigit = true) : (c != '.') = true := by
  rw [bne_iff_ne]
  rintro rfl
  exact absurd h (by decide)

/-! ## Numerals -/

def worth (text : List Char) : ℚ :=
  natural (text.filter (· != '.')) / 10 ^ (text.dropWhile (· != '.')).tail.length

theorem worth_whole (h : ∀ c ∈ digits, c.isDigit = true) : worth digits = natural digits := by
  have hpoint : ∀ c ∈ digits, (c != '.') = true := fun c hc => ne_point_of_isDigit (h c hc)
  rw [worth, List.filter_eq_self.2 hpoint, List.dropWhile_eq_nil_iff.2 hpoint]
  simp

theorem worth_decimal (h : ∀ c ∈ digits, c.isDigit = true) (hfraction : ∀ c ∈ fraction, c.isDigit = true) :
    worth (digits ++ '.' :: fraction) = natural (digits ++ fraction) / 10 ^ fraction.length := by
  have hpoint : ∀ c ∈ digits, (c != '.') = true := fun c hc => ne_point_of_isDigit (h c hc)
  have hbehind : ∀ c ∈ fraction, (c != '.') = true := fun c hc => ne_point_of_isDigit (hfraction c hc)
  have hfilter : (digits ++ '.' :: fraction).filter (· != '.') = digits ++ fraction := by
    simp [List.filter_append, List.filter_eq_self.2 hpoint, List.filter_eq_self.2 hbehind]
  rw [worth, hfilter, Segment.dropWhile_upto hpoint (by decide), List.tail_cons]

end Digits

/-! ## Layouts -/

section Layouts

variable (n : Nat)

/-- zeros behind the digits -/
theorem worth_repr_zeros (places : Nat) : Form ((Nat.repr n).toList ++ List.replicate places '0') ∧
    worth ((Nat.repr n).toList ++ List.replicate places '0') = n * 10 ^ places := by
  have hall : ∀ c ∈ (Nat.repr n).toList ++ List.replicate places '0', c.isDigit = true :=
    List.forall_mem_append.2 ⟨isDigit_repr n, isDigit_zeros places⟩
  refine ⟨.whole (by simp) hall, ?_⟩
  rw [worth_whole hall, natural_append, natural_repr, natural_zeros, List.length_replicate]
  push_cast
  ring

/-- a point among the digits -/
theorem worth_repr_pointed {places : Nat} (h : places < (Nat.repr n).toList.length) :
    Form (pointed (Nat.repr n).toList ((Nat.repr n).toList.length - places)).toList ∧
    worth (pointed (Nat.repr n).toList ((Nat.repr n).toList.length - places)).toList = n / 10 ^ places := by
  have htake : ∀ c ∈ (Nat.repr n).toList.take ((Nat.repr n).toList.length - places), c.isDigit = true :=
    fun c hc => isDigit_repr n c (List.mem_of_mem_take hc)
  have hdrop : ∀ c ∈ (Nat.repr n).toList.drop ((Nat.repr n).toList.length - places), c.isDigit = true :=
    fun c hc => isDigit_repr n c (List.mem_of_mem_drop hc)
  have htext : (pointed (Nat.repr n).toList ((Nat.repr n).toList.length - places)).toList =
      (Nat.repr n).toList.take ((Nat.repr n).toList.length - places) ++
        '.' :: (Nat.repr n).toList.drop ((Nat.repr n).toList.length - places) := by
    simp [pointed]
  have hlength : ((Nat.repr n).toList.drop ((Nat.repr n).toList.length - places)).length = places := by
    rw [List.length_drop]
    omega
  rw [htext]
  refine ⟨.decimal ?_ htake hdrop, ?_⟩
  · rw [← List.length_pos_iff, List.length_take]
    omega
  · rw [worth_decimal htake hdrop, List.take_append_drop, natural_repr, hlength]

/-- zeros before the digits, behind a point -/
theorem worth_zeros_repr {places : Nat} (h : (Nat.repr n).toList.length ≤ places) :
    Form ('0' :: '.' :: (List.replicate (places - (Nat.repr n).toList.length) '0' ++ (Nat.repr n).toList)) ∧
    worth ('0' :: '.' :: (List.replicate (places - (Nat.repr n).toList.length) '0' ++ (Nat.repr n).toList)) =
      n / 10 ^ places := by
  have hzero : ∀ c ∈ ['0'], c.isDigit = true := isDigit_zeros 1
  have hfraction :
      ∀ c ∈ List.replicate (places - (Nat.repr n).toList.length) '0' ++ (Nat.repr n).toList, c.isDigit = true :=
    List.forall_mem_append.2 ⟨isDigit_zeros _, isDigit_repr n⟩
  have hlength : (List.replicate (places - (Nat.repr n).toList.length) '0' ++ (Nat.repr n).toList).length = places := by
    rw [List.length_append, List.length_replicate]
    omega
  have hvalue : natural
      (['0'] ++ (List.replicate (places - (Nat.repr n).toList.length) '0' ++ (Nat.repr n).toList)) = n := by
    have hleading : natural ['0'] = 0 := rfl
    rw [natural_append, natural_append, hleading, natural_zeros, natural_repr, Nat.mul_zero, Nat.mul_zero, Nat.zero_add,
      Nat.zero_add]
  refine ⟨.decimal (List.cons_ne_nil _ _) hzero hfraction, ?_⟩
  have hworth := worth_decimal hzero hfraction
  rwa [hvalue, hlength] at hworth

end Layouts

/-- a decimal that is laid out without an exponent is a numeral, and stands for itself -/
theorem plain_worth (d : Decimal) : Form (printed.plain d).toList ∧ worth (printed.plain d).toList = d.worth := by
  obtain ⟨digits, exponent⟩ := d
  have hnegative : exponent < 0 → (digits : ℚ) / 10 ^ (-exponent).toNat = Decimal.worth ⟨digits, exponent⟩ := by
    intro hneg
    obtain ⟨n, rfl⟩ : ∃ n : Nat, exponent = -n := ⟨(-exponent).toNat, by omega⟩
    simp [Decimal.worth, div_eq_mul_inv]
  simp only [Layout.plain]
  split_ifs with hwhole hplaces
  · obtain ⟨n, rfl⟩ := Int.eq_ofNat_of_zero_le hwhole
    simpa [zeros, printed, Decimal.worth] using worth_repr_zeros digits n
  · rw [← hnegative (not_le.1 hwhole)]
    exact worth_repr_pointed digits hplaces
  · rw [← hnegative (not_le.1 hwhole)]
    simpa [zeros] using worth_zeros_repr digits (not_lt.1 hplaces)

/-! ## Doubles -/

section Doubles

variable {x y : Float} {mantissa shift : Nat}

/-- a whole number with its point -/
theorem worth_point_zero (n : Nat) : Form (Nat.repr n ++ ".0").toList ∧ worth (Nat.repr n ++ ".0").toList = n := by
  have hzero : ∀ c ∈ ['0'], c.isDigit = true := isDigit_zeros 1
  have htext : (Nat.repr n ++ ".0").toList = (Nat.repr n).toList ++ '.' :: ['0'] := by simp
  have hlast : natural ['0'] = 0 := rfl
  rw [htext]
  refine ⟨.decimal (repr_toList_ne_nil n) (isDigit_repr n) hzero, ?_⟩
  rw [worth_decimal (isDigit_repr n) hzero, natural_append, natural_repr, hlast]
  simp

/-- **The text of a finite double** is a sign and a numeral that rounds to the double. -/
theorem full_eq (h : magnitude x = .finite mantissa shift) : ∃ body, full x = sign x ++ body ∧ Form body.toList ∧
    (Interval.around mantissa shift).Holds (worth body.toList) := by
  have hfields := fields_of_magnitude h
  simp only [full, h, Magnitude.whole?]
  split_ifs with hwhole
  · obtain ⟨hform, hworth⟩ := worth_point_zero (mantissa * twoTo shift / twoTo 1074)
    refine ⟨_, String.append_assoc .., hform, ?_⟩
    rw [hworth, Nat.cast_div (Nat.dvd_of_mod_eq_zero hwhole) (cast_twoTo_pos 1074).ne', Nat.cast_mul]
    exact value_holds mantissa shift
  · have hpos : 0 < mantissa := Nat.pos_of_ne_zero fun hzero => hwhole (by rw [hzero, Nat.zero_mul, Nat.zero_mod])
    obtain ⟨hform, hworth⟩ := plain_worth (shortest printed.tie mantissa shift)
    refine ⟨printed.plain (shortest printed.tie mantissa shift), ?_, hform, ?_⟩
    · simp [text, h, Layout.write, printed]
    · rw [hworth]
      exact shortest_holds _ hfields hpos

/-- every numeral begins with a digit -/
theorem Form.exists_cons {text : List Char} (h : Form text) : ∃ c rest, text = c :: rest ∧ c.isDigit = true := by
  have hfirst : ∀ digits : List Char, digits ≠ [] → (∀ c ∈ digits, c.isDigit = true) → ∀ behind : List Char,
      ∃ c rest, digits ++ behind = c :: rest ∧ c.isDigit = true := by
    intro digits hne hall behind
    obtain ⟨c, rest, rfl⟩ := List.exists_cons_of_ne_nil hne
    exact ⟨c, rest ++ behind, rfl, hall c List.mem_cons_self⟩
  cases h with
  | whole hne h => simpa using hfirst _ hne h []
  | decimal hne h hfraction => exact hfirst _ hne h _

/-- so a sign before it can be told from it -/
theorem sign_append_inj {body body' : String} (hbody : Form body.toList) (hbody' : Form body'.toList)
    (h : sign x ++ body = sign y ++ body') : isNegative x = isNegative y ∧ body = body' := by
  have hminus : ∀ {text text' : List Char}, Form text → '-' :: text' ≠ text := by
    rintro text text' hform rfl
    obtain ⟨c, rest, heq, hdigit⟩ := hform.exists_cons
    cases heq
    cases hdigit
  have hlist := congrArg String.toList h
  simp only [sign, String.toList_append] at hlist
  cases hx : isNegative x <;> cases hy : isNegative y <;>
    simp only [hx, hy, if_true, Bool.false_eq_true, if_false] at hlist
  · exact ⟨rfl, String.toList_injective hlist⟩
  · exact (hminus hbody hlist.symm).elim
  · exact (hminus hbody' hlist).elim
  · exact ⟨rfl, String.toList_injective (List.append_cancel_left hlist)⟩

/-- **Doubles are told by their texts.** -/
theorem full_injective (hx : x.isFinite = true) (hy : y.isFinite = true) (h : full x = full y) : x = y := by
  obtain ⟨mantissa, shift, hmx⟩ := exists_magnitude_of_isFinite hx
  obtain ⟨mantissa', shift', hmy⟩ := exists_magnitude_of_isFinite hy
  obtain ⟨body, htext, hform, hholds⟩ := full_eq hmx
  obtain ⟨body', htext', hform', hholds'⟩ := full_eq hmy
  obtain ⟨hsign, rfl⟩ := sign_append_inj hform hform' (htext.symm.trans (h.trans htext'))
  obtain ⟨rfl, rfl⟩ := fields_unique (fields_of_magnitude hmx) (fields_of_magnitude hmy) hholds hholds'
  exact eq_of_magnitude hmx hmy hsign

end Doubles

end Scriptlet.Numeral
