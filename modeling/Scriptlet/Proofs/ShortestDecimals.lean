/-
Shortest decimals. A finite double is known by its mantissa and shift (`Numeral.Fields`), and the reals that round to it
are an interval around its value. The search for the shortest decimal looks at twenty grids; the last of them is finer
than every interval, so the search finds a decimal, and it never takes one from outside. The intervals of two doubles
have no real in common: they share an end at most, and that end belongs to the one with the even mantissa. So a decimal
tells its double.

- `Numeral.shortest_holds`: the shortest decimal lies in the interval.
- `Numeral.fields_unique`: no real lies in two intervals.
- `Numeral.eq_of_magnitude`: mantissa, shift and sign are all there is to a finite double.
-/
import Mathlib
import Scriptlet.Numeral

namespace Scriptlet.Numeral

/-! ## Powers -/

theorem twoTo_pos (n : Nat) : 0 < twoTo n := Nat.two_pow_pos n

theorem tenTo_pos (n : Nat) : 0 < tenTo n := Nat.pow_pos (by decide)

theorem twoTo_add (m n : Nat) : twoTo (m + n) = twoTo m * twoTo n := Nat.pow_add 2 m n

theorem cast_twoTo_pos (n : Nat) : (0 : ℚ) < twoTo n := Nat.cast_pos.2 (twoTo_pos n)

/-- a power of ten as a quotient of two whole ones -/
theorem tenTo_toNat (e : ℤ) : (tenTo e.toNat : ℚ) = 10 ^ e * tenTo (-e).toNat := by
  obtain ⟨n, rfl | rfl⟩ := e.eq_nat_or_neg
  · simp [tenTo]
  · simp [tenTo]

/-! ## Doubles -/

/-- what the fields of a double can hold: a small shift, and a leading bit that is set wherever there is a shift -/
structure Fields (mantissa shift : Nat) : Prop where
  mantissa_lt : mantissa < twoTo 53
  shift_le : shift ≤ 2045
  leading : 0 < shift → twoTo 52 ≤ mantissa

section Doubles

variable {x y : Float} {mantissa shift : Nat}

theorem fields_of_magnitude (h : magnitude x = .finite mantissa shift) : Fields mantissa shift := by
  have hfraction : x.toBits.toNat % twoTo 52 < twoTo 52 := Nat.mod_lt _ (twoTo_pos 52)
  have hdouble : twoTo 53 = 2 * twoTo 52 := rfl
  simp only [magnitude] at h
  split_ifs at h with hzero hbig
  · cases h
    exact ⟨by omega, Nat.zero_le _, nofun⟩
  · cases h
    exact ⟨by omega, by omega, fun _ => Nat.le_add_right _ _⟩

theorem eq_of_magnitude (hx : magnitude x = .finite mantissa shift) (hy : magnitude y = .finite mantissa shift)
    (hsign : isNegative x = isNegative y) : x = y := by
  have hbits : x.toBits.toNat = y.toBits.toNat := by
    have hxb := x.toBits.toNat_lt
    have hyb := y.toBits.toNat_lt
    have h52 : twoTo 52 = 4503599627370496 := rfl
    have h11 : twoTo 11 = 2048 := rfl
    have h63 : twoTo 63 = 9223372036854775808 := rfl
    simp only [isNegative, decide_eq_decide, h63] at hsign
    simp only [magnitude, h52, h11] at hx hy
    split_ifs at hx hy <;> cases hx <;> simp only [Magnitude.finite.injEq] at hy <;> omega
  exact Float.toBits_inj.1 (UInt64.toNat_inj.1 hbits)

open Float.Model.UnpackedFloat (unpack unpackExponent)

/-- the exponent field, as the magnitude reads it -/
theorem exponent_toNat (x : Float) :
    (@unpackExponent .binary64 x.toModel.toBits.toBitVec).toNat = x.toBits.toNat / twoTo 52 % twoTo 11 := by
  simp [unpackExponent, Float.toBits, Nat.shiftRight_eq_div_pow, twoTo]

theorem exists_magnitude_of_isFinite (h : x.isFinite = true) :
    ∃ mantissa shift, magnitude x = .finite mantissa shift := by
  have hexponent : @unpackExponent .binary64 x.toModel.toBits.toBitVec ≠ -1#11 := by
    intro hall
    simp only [Float.isFinite, Float.Model.isFinite, Float.Model.unpack, unpack] at h
    rw [if_pos hall] at h
    split_ifs at h <;> cases h
  have hne : x.toBits.toNat / twoTo 52 % twoTo 11 ≠ 2047 := by
    rw [← exponent_toNat]
    exact fun heq => hexponent (BitVec.eq_of_toNat_eq heq)
  have hlt : x.toBits.toNat / twoTo 52 % twoTo 11 < 2048 := Nat.mod_lt _ (by decide)
  simp only [magnitude]
  split_ifs with hzero hsmall
  · exact ⟨_, _, rfl⟩
  · exact ⟨_, _, rfl⟩
  all_goals omega

end Doubles

/-! ## Intervals -/

def Decimal.worth (d : Decimal) : ℚ := d.digits * 10 ^ d.exponent

namespace Interval

/-- is the first of two numbers low enough to be an end before the second -/
def Reaches (i : Interval) (a b : ℚ) : Prop := if i.closed then a ≤ b else a < b

/-- does the number round to the double -/
def Holds (i : Interval) (r : ℚ) : Prop := i.Reaches i.low (r * twoTo 1076) ∧ i.Reaches (r * twoTo 1076) i.high

variable {i : Interval} {a b c : ℚ}

theorem Reaches.le (h : i.Reaches a b) : a ≤ b := by
  unfold Reaches at h
  split at h
  · exact h
  · exact h.le

theorem Reaches.of_lt (h : a < b) : i.Reaches a b := by
  unfold Reaches
  split
  · exact h.le
  · exact h

/-- only an end that belongs to the interval reaches itself -/
theorem Reaches.closed (h : i.Reaches a a) : i.closed = true := by
  unfold Reaches at h
  split at h
  · assumption
  · exact absurd h (lt_irrefl a)

theorem reaches_mul_right (hc : 0 < c) : i.Reaches (a * c) (b * c) ↔ i.Reaches a b := by
  unfold Reaches
  split
  · exact mul_le_mul_iff_left₀ hc
  · exact mul_lt_mul_iff_left₀ hc

theorem reaches_iff (i : Interval) (a b : Nat) : i.reaches a b = true ↔ i.Reaches a b := by
  unfold reaches Reaches
  split <;> simp

/-! ## Points on a grid -/

/-- the distance of two points of a grid -/
abbrev step (exponent : ℤ) : Nat := twoTo 1076 * tenTo exponent.toNat

/-- what sizes are multiplied with to be compared with the points of a grid -/
abbrev scale (exponent : ℤ) : Nat := tenTo (-exponent).toNat

theorem scale_pos (exponent : ℤ) : (0 : ℚ) < scale exponent := Nat.cast_pos.2 (tenTo_pos _)

theorem cast_point (n : Nat) (exponent : ℤ) :
    ((n * step exponent : Nat) : ℚ) = Decimal.worth ⟨n, exponent⟩ * twoTo 1076 * scale exponent := by
  simp only [Decimal.worth, step, scale, Nat.cast_mul, tenTo_toNat exponent]
  ring

variable {exponent : ℤ}

/-- a point above the value, which is low enough for the upper end -/
theorem holds_above (n : Nat) (hlow : i.low ≤ i.value) (hpoint : i.value * scale exponent < n * step exponent)
    (hreach : i.reaches (n * step exponent) (i.high * scale exponent) = true) :
    i.Holds (Decimal.worth ⟨n, exponent⟩) := by
  rw [reaches_iff, cast_point, Nat.cast_mul, reaches_mul_right (scale_pos exponent)] at hreach
  have hlower : ((i.low * scale exponent : Nat) : ℚ) < (n * step exponent : Nat) :=
    Nat.cast_lt.2 ((Nat.mul_le_mul_right _ hlow).trans_lt hpoint)
  rw [cast_point, Nat.cast_mul, mul_lt_mul_iff_left₀ (scale_pos exponent)] at hlower
  exact ⟨.of_lt hlower, hreach⟩

/-- a point below the value, which is high enough for the lower end -/
theorem holds_below (n : Nat) (hhigh : i.value < i.high) (hpoint : n * step exponent ≤ i.value * scale exponent)
    (hreach : i.reaches (i.low * scale exponent) (n * step exponent) = true) :
    i.Holds (Decimal.worth ⟨n, exponent⟩) := by
  rw [reaches_iff, cast_point, Nat.cast_mul, reaches_mul_right (scale_pos exponent)] at hreach
  have hupper : ((n * step exponent : Nat) : ℚ) < (i.high * scale exponent : Nat) :=
    Nat.cast_lt.2 (hpoint.trans_lt (Nat.mul_lt_mul_of_pos_right hhigh (tenTo_pos _)))
  rw [cast_point, Nat.cast_mul, mul_lt_mul_iff_left₀ (scale_pos exponent)] at hupper
  exact ⟨hreach, .of_lt hupper⟩

/-- the last point of the grid up to the value -/
abbrev below (i : Interval) (exponent : ℤ) : Nat := i.value * scale exponent / step exponent

theorem step_pos (exponent : ℤ) : 0 < step exponent := Nat.mul_pos (twoTo_pos _) (tenTo_pos _)

theorem below_mul_le (i : Interval) (exponent : ℤ) : i.below exponent * step exponent ≤ i.value * scale exponent :=
  Nat.div_mul_le_self _ _

theorem lt_succ_below_mul (i : Interval) (exponent : ℤ) :
    i.value * scale exponent < (i.below exponent + 1) * step exponent := by
  rw [Nat.mul_comm (_ + 1)]
  exact Nat.lt_mul_div_succ _ (step_pos exponent)

/-- what a grid gives: one of the neighbours of the value that lie inside, or nothing if none does -/
theorem onGrid_cases (i : Interval) (tie : Tie) (exponent : ℤ) :
    (i.onGrid tie exponent = some ⟨i.below exponent, exponent⟩ ∧
      i.reaches (i.low * scale exponent) (i.below exponent * step exponent) = true) ∨
    (i.onGrid tie exponent = some ⟨i.below exponent + 1, exponent⟩ ∧
      i.reaches ((i.below exponent + 1) * step exponent) (i.high * scale exponent) = true) ∨
    (i.onGrid tie exponent = none ∧ i.reaches (i.low * scale exponent) (i.below exponent * step exponent) = false ∧
      i.reaches ((i.below exponent + 1) * step exponent) (i.high * scale exponent) = false) := by
  simp only [onGrid]
  split_ifs with hboth hnear hlower hupper
  · exact .inl ⟨rfl, (Bool.and_eq_true_iff.1 hboth).1⟩
  · exact .inr (.inl ⟨rfl, (Bool.and_eq_true_iff.1 hboth).2⟩)
  · exact .inl ⟨rfl, hlower⟩
  · exact .inr (.inl ⟨rfl, hupper⟩)
  · exact .inr (.inr ⟨rfl, Bool.eq_false_iff.2 hlower, Bool.eq_false_iff.2 hupper⟩)

/-- no grid gives anything from outside of the interval -/
theorem onGrid_holds {tie : Tie} {d : Decimal} (hlow : i.low ≤ i.value) (hhigh : i.value < i.high)
    (h : i.onGrid tie exponent = some d) : i.Holds d.worth := by
  rcases i.onGrid_cases tie exponent with ⟨hsome, hlower⟩ | ⟨hsome, hupper⟩ | ⟨hnone, -⟩
  · cases h.symm.trans hsome
    exact holds_below _ hhigh (i.below_mul_le exponent) hlower
  · cases h.symm.trans hsome
    exact holds_above _ hlow (i.lt_succ_below_mul exponent) hupper
  · cases h.symm.trans hnone

theorem le_of_reaches_eq_false {a b : Nat} (h : i.reaches a b = false) : b ≤ a := by
  unfold reaches at h
  split at h
  · exact Nat.le_of_lt (by simpa using h)
  · simpa using h

/-- a grid that is finer than the interval is wide gives something -/
theorem onGrid_isSome (tie : Tie) (h : i.low * scale exponent + step exponent < i.high * scale exponent) :
    (i.onGrid tie exponent).isSome = true := by
  rcases i.onGrid_cases tie exponent with ⟨hsome, -⟩ | ⟨hsome, -⟩ | ⟨-, hlower, hupper⟩
  · rw [hsome, Option.isSome_some]
  · rw [hsome, Option.isSome_some]
  · have hlast := le_of_reaches_eq_false hlower
    have hnext := le_of_reaches_eq_false hupper
    rw [Nat.succ_mul] at hnext
    omega

end Interval

/-! ## The search -/

/-- the last grid that is looked at is finer than the reals around a double are wide, whatever the leading bit of its
value -/
theorem lastGrid_fine : ∀ leading : Nat, leading < 2100 →
    Interval.step (((leading : ℤ) - 1075) * 30103 / 100000 + 1 - 19) <
      3 * twoTo (leading - 54) * Interval.scale (((leading : ℤ) - 1075) * 30103 / 100000 + 1 - 19) := by
  decide +kernel

section Search

variable {mantissa shift : Nat}

theorem around_low_le (mantissa shift : Nat) :
    (Interval.around mantissa shift).low ≤ (Interval.around mantissa shift).value :=
  Nat.sub_le _ _

theorem around_lt_high (mantissa shift : Nat) :
    (Interval.around mantissa shift).value < (Interval.around mantissa shift).high :=
  Nat.lt_add_of_pos_right (Nat.mul_pos (by decide) (twoTo_pos shift))

/-- three quarters of the distance to the next double at least -/
theorem around_wide (shift : Nat) (hpos : 0 < mantissa) : (Interval.around mantissa shift).low + 3 * twoTo shift ≤
    (Interval.around mantissa shift).high := by
  have hvalue : twoTo shift ≤ mantissa * twoTo shift := Nat.le_mul_of_pos_left _ hpos
  simp only [Interval.around, Nat.mul_assoc]
  split_ifs <;> omega

/-- the leading bit of the value in its interval -/
theorem log2_around (h : Fields mantissa shift) (hpos : 0 < mantissa) :
    (Interval.around mantissa shift).value.log2 < shift + 55 := by
  have hne : (Interval.around mantissa shift).value ≠ 0 :=
    Nat.mul_ne_zero (Nat.mul_ne_zero (by decide) hpos.ne') (twoTo_pos shift).ne'
  have hmantissa : 4 * mantissa < twoTo 55 := Nat.mul_lt_mul_of_pos_left h.mantissa_lt (by decide)
  rw [Nat.log2_lt hne]
  calc 4 * mantissa * twoTo shift
    _ < twoTo 55 * twoTo shift := Nat.mul_lt_mul_of_pos_right hmantissa (twoTo_pos shift)
    _ = 2 ^ (shift + 55) := by rw [← twoTo_add, Nat.add_comm]; rfl

/-- the search finds something -/
theorem exists_shortest (tie : Tie) (h : Fields mantissa shift) (hpos : 0 < mantissa) : ∃ n : Nat,
    (Interval.around mantissa shift).onGrid tie ((Interval.around mantissa shift).coarsest - n) =
      some (shortest tie mantissa shift) := by
  have hlog := log2_around h hpos
  have hwide := around_wide shift hpos
  have hshift := h.shift_le
  rw [shortest, if_neg hpos.ne']
  generalize Interval.around mantissa shift = i at hlog hwide
  have hfine := lastGrid_fine i.value.log2 (by omega)
  have hpower : twoTo (i.value.log2 - 54) ≤ twoTo shift := Nat.pow_le_pow_right (by decide) (by omega)
  have hlast : (i.onGrid tie (i.coarsest - (19 : Nat))).isSome = true := by
    refine Interval.onGrid_isSome tie ?_
    calc i.low * Interval.scale (i.coarsest - 19) + Interval.step (i.coarsest - 19)
      _ < i.low * Interval.scale (i.coarsest - 19) + 3 * twoTo (i.value.log2 - 54) * Interval.scale (i.coarsest - 19) :=
        Nat.add_lt_add_left hfine _
      _ ≤ i.low * Interval.scale (i.coarsest - 19) + 3 * twoTo shift * Interval.scale (i.coarsest - 19) :=
        Nat.add_le_add_left (Nat.mul_le_mul_right _ (Nat.mul_le_mul_left 3 hpower)) _
      _ = (i.low + 3 * twoTo shift) * Interval.scale (i.coarsest - 19) := (Nat.add_mul _ _ _).symm
      _ ≤ i.high * Interval.scale (i.coarsest - 19) := Nat.mul_le_mul_right _ hwide
  have hfound : ((List.range 20).findSome? fun n : Nat => i.onGrid tie (i.coarsest - n)).isSome = true :=
    List.findSome?_isSome_iff.2 ⟨19, by decide, hlast⟩
  obtain ⟨d, hd⟩ := Option.isSome_iff_exists.1 hfound
  obtain ⟨n, -, hn⟩ := List.exists_of_findSome?_eq_some hd
  refine ⟨n, ?_⟩
  simp only [hd, Option.getD_some]
  exact hn

/-- **The shortest decimal reads back.** It is one of the numbers that round to the double. -/
theorem shortest_holds (tie : Tie) (h : Fields mantissa shift) (hpos : 0 < mantissa) :
    (Interval.around mantissa shift).Holds (shortest tie mantissa shift).worth := by
  obtain ⟨n, hn⟩ := exists_shortest tie h hpos
  exact Interval.onGrid_holds (around_low_le _ _) (around_lt_high _ _) hn

/-- the double itself is one of them too -/
theorem value_holds (mantissa shift : Nat) :
    (Interval.around mantissa shift).Holds (mantissa * twoTo shift / twoTo 1074) := by
  have hvalue : (mantissa * twoTo shift / twoTo 1074 : ℚ) * twoTo 1076 = (Interval.around mantissa shift).value := by
    have hne : (twoTo 1074 : ℚ) ≠ 0 := (cast_twoTo_pos 1074).ne'
    have hunits : twoTo 1076 = twoTo 1074 * twoTo 2 := twoTo_add 1074 2
    have hfour : (twoTo 2 : ℚ) = 4 := by norm_num [twoTo]
    rw [hunits, Nat.cast_mul, hfour, ← mul_assoc, div_mul_cancel₀ _ hne]
    simp only [Interval.around, Nat.cast_mul, Nat.cast_ofNat]
    ring
  rw [Interval.Holds, hvalue]
  refine ⟨?_, .of_lt (Nat.cast_lt.2 (around_lt_high mantissa shift))⟩
  rcases Nat.eq_zero_or_pos mantissa with rfl | hpos
  · simp [Interval.Reaches, Interval.around]
  · refine .of_lt (Nat.cast_lt.2 (Nat.sub_lt ?_ ?_))
    · exact Nat.mul_pos (Nat.mul_pos (by decide) hpos) (twoTo_pos shift)
    · exact Nat.mul_pos (by split_ifs <;> decide) (twoTo_pos shift)

end Search

/-! ## Neighbours -/

section Neighbours

variable {mantissa shift mantissa' shift' : Nat}

theorem two_mul_twoTo_le (hshift : shift < shift') : 2 * twoTo shift ≤ twoTo shift' :=
  calc 2 * twoTo shift
    _ = twoTo (shift + 1) := Nat.mul_comm _ _
    _ ≤ twoTo shift' := Nat.pow_le_pow_right (by decide) hshift

/-- a larger shift makes a larger double, as the leading bit is set -/
theorem lt_of_shift_lt (h : Fields mantissa shift) (h' : Fields mantissa' shift') (hshift : shift < shift') :
    mantissa * twoTo shift < mantissa' * twoTo shift' :=
  calc mantissa * twoTo shift
    _ < twoTo 53 * twoTo shift := Nat.mul_lt_mul_of_pos_right h.mantissa_lt (twoTo_pos shift)
    _ = twoTo 52 * (2 * twoTo shift) := Nat.mul_assoc (twoTo 52) 2 _
    _ ≤ mantissa' * twoTo shift' := Nat.mul_le_mul (h'.leading (Nat.zero_lt_of_lt hshift)) (two_mul_twoTo_le hshift)

theorem around_high (mantissa shift : Nat) :
    (Interval.around mantissa shift).high = (4 * mantissa + 2) * twoTo shift := (Nat.add_mul _ _ _).symm

theorem around_low (mantissa shift : Nat) : (Interval.around mantissa shift).low =
    (4 * mantissa - if mantissa = twoTo 52 ∧ 0 < shift then 1 else 2) * twoTo shift := (Nat.sub_mul _ _ _).symm

/-- the lower end of the higher one of two doubles, counted in the lower one's units -/
theorem exists_le_around_low (h : Fields mantissa shift) (h' : Fields mantissa' shift')
    (hlt : mantissa * twoTo shift < mantissa' * twoTo shift') :
    ∃ n, n * twoTo shift ≤ (Interval.around mantissa' shift').low ∧ 4 * mantissa + 2 ≤ n ∧
      (mantissa % 2 = 0 → mantissa' % 2 = 0 → 4 * mantissa + 2 < n) := by
  have hmantissa := h.mantissa_lt
  have hdouble : twoTo 53 = 2 * twoTo 52 := rfl
  rw [around_low]
  rcases Nat.lt_trichotomy shift shift' with hless | rfl | hmore
  · -- with the smaller shift the mantissa is `2 * twoTo 52 - 1` at most, and if it is, it is odd
    have hleading := h'.leading (Nat.zero_lt_of_lt hless)
    have hunits : ∀ n, n * 2 * twoTo shift ≤ n * twoTo shift' := fun n =>
      (Nat.mul_assoc n 2 _).trans_le (Nat.mul_le_mul_left n (two_mul_twoTo_le hless))
    refine ⟨_, hunits _, ?_, ?_⟩
    · split_ifs <;> omega
    · intro heven _
      split_ifs <;> omega
  · -- with the same shift the ends are halfway between two mantissas, of which one is odd if they are neighbours
    have hnext : mantissa < mantissa' := Nat.lt_of_mul_lt_mul_right hlt
    have hpower : ¬(mantissa' = twoTo 52 ∧ 0 < shift) := fun ⟨heq, hpos⟩ =>
      absurd (h.leading hpos) (Nat.not_le_of_lt (heq ▸ hnext))
    rw [if_neg hpower]
    exact ⟨_, le_rfl, by omega, by omega⟩
  · exact absurd hlt (lt_of_shift_lt h' h hmore).not_gt

/-- of two doubles the lower one's interval ends where the other's begins, or before; and if they meet, not both
mantissas are even -/
theorem around_apart (h : Fields mantissa shift) (h' : Fields mantissa' shift')
    (hlt : mantissa * twoTo shift < mantissa' * twoTo shift') :
    (Interval.around mantissa shift).high ≤ (Interval.around mantissa' shift').low ∧
    (mantissa % 2 = 0 → mantissa' % 2 = 0 →
      (Interval.around mantissa shift).high < (Interval.around mantissa' shift').low) := by
  obtain ⟨n, hlow, hle, heven⟩ := exists_le_around_low h h' hlt
  rw [around_high]
  refine ⟨(Nat.mul_le_mul_right _ hle).trans hlow, fun hm hm' => ?_⟩
  exact (Nat.mul_lt_mul_of_pos_right (heven hm hm') (twoTo_pos shift)).trans_le hlow

theorem not_holds_both (h : Fields mantissa shift) (h' : Fields mantissa' shift')
    (hlt : mantissa * twoTo shift < mantissa' * twoTo shift') {r : ℚ} (hr : (Interval.around mantissa shift).Holds r)
    (hr' : (Interval.around mantissa' shift').Holds r) : False := by
  obtain ⟨hle, hends⟩ := around_apart h h' hlt
  have hmeet : ((Interval.around mantissa shift).high : ℚ) ≤ (Interval.around mantissa' shift').low := Nat.cast_le.2 hle
  have heq : r * twoTo 1076 = (Interval.around mantissa shift).high := le_antisymm hr.2.le (hmeet.trans hr'.1.le)
  have heq' : r * twoTo 1076 = (Interval.around mantissa' shift').low := le_antisymm (hr.2.le.trans hmeet) hr'.1.le
  have hclosed := hr.2
  have hclosed' := hr'.1
  rw [heq] at hclosed
  rw [heq'] at hclosed'
  have hless := hends (of_decide_eq_true hclosed.closed) (of_decide_eq_true hclosed'.closed)
  exact hless.ne (Nat.cast_injective (heq.symm.trans heq'))

/-- **A number rounds to one double only.** -/
theorem fields_unique (h : Fields mantissa shift) (h' : Fields mantissa' shift') {r : ℚ}
    (hr : (Interval.around mantissa shift).Holds r) (hr' : (Interval.around mantissa' shift').Holds r) :
    mantissa = mantissa' ∧ shift = shift' := by
  have hsame : mantissa * twoTo shift = mantissa' * twoTo shift' := by
    rcases Nat.lt_trichotomy (mantissa * twoTo shift) (mantissa' * twoTo shift') with hlt | heq | hgt
    · exact (not_holds_both h h' hlt hr hr').elim
    · exact heq
    · exact (not_holds_both h' h hgt hr' hr).elim
  rcases Nat.lt_trichotomy shift shift' with hlt | rfl | hgt
  · exact absurd hsame (lt_of_shift_lt h h' hlt).ne
  · exact ⟨Nat.eq_of_mul_eq_mul_right (twoTo_pos shift) hsame, rfl⟩
  · exact absurd hsame.symm (lt_of_shift_lt h' h hgt).ne

end Neighbours

end Scriptlet.Numeral
