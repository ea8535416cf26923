/-
Numerals: the texts of numbers, and the numbers that texts stand for.

A double is a sign and a magnitude, and a finite magnitude is `mantissa · 2^shift` counted in the smallest unit that
doubles have, `2^-1074`. Everything the texts need is then arithmetic on naturals.

The shortest decimal of a magnitude is, of all decimals that read back as the same double, one with the fewest digits,
and of those the nearest. The search looks at ever finer decimal grids and takes the first that has a point inside the
interval of reals that round to the double; where two points are equally near, a `Tie` decides. Sizes are counted in
quarters of the double's unit, `2^-1076`, so that the ends of the interval are whole numbers too. How a decimal is laid
out, positionally or with an exponent of ten, is decided by a `Layout`.

There are four texts: what a program prints (`text`), what a syntax tree shows (`full`), what a token shows (`short`),
and what a JSON document holds (`json?`). The first and the last use the shortest digits that read back; the two others
write a whole number in full.

A numeral is read as the double nearest to its decimal, a tie going to the even mantissa.
-/

namespace Scriptlet.Numeral

/-! ## Magnitudes -/

def twoTo (n : Nat) : Nat := Nat.pow 2 n

def tenTo (n : Nat) : Nat := Nat.pow 10 n

/-- the size of a number without its sign; a finite one is `mantissa · 2^shift` times `2^-1074` -/
inductive Magnitude where
  | undefined
  | infinite
  | finite (mantissa shift : Nat)
  deriving DecidableEq

/-- is the sign bit set; also told of zero -/
def isNegative (x : Float) : Bool := twoTo 63 ≤ x.toBits.toNat

def sign (x : Float) : String := if isNegative x then "-" else ""

/-- the magnitude, read off the exponent and fraction fields -/
def magnitude (x : Float) : Magnitude :=
  let exponent := x.toBits.toNat / twoTo 52 % twoTo 11
  let fraction := x.toBits.toNat % twoTo 52
  if exponent = 0 then .finite fraction 0
  else if exponent < 2047 then .finite (twoTo 52 + fraction) (exponent - 1)
  else if fraction = 0 then .infinite
  else .undefined

def Magnitude.whole? : Magnitude → Option Nat
  | .finite mantissa shift =>
    let units := mantissa * twoTo shift
    if units % twoTo 1074 = 0 then some (units / twoTo 1074) else none
  | _ => none

/-! ## Shortest decimals -/

/-- the number `digits · 10^exponent` -/
structure Decimal where
  digits : Nat
  exponent : Int
  deriving DecidableEq

/-- which of two equally near decimals is taken -/
inductive Tie where
  | up
  | even
  deriving DecidableEq

/-- the upper of two neighbours `below` and `below + 1` that are equally near -/
def Tie.takesUpper : Tie → Nat → Bool
  | .up, _ => true
  | .even, below => below % 2 = 1

/-- the reals that round to one double: its value and the two ends, which belong to it or not -/
structure Interval where
  value : Nat
  low : Nat
  high : Nat
  closed : Bool

/-- the interval of `mantissa · 2^shift`; below a power of two the next double is only half as far away, and the ends
round to an even mantissa -/
def Interval.around (mantissa shift : Nat) : Interval :=
  let value := 4 * mantissa * twoTo shift
  let gap := if mantissa = twoTo 52 ∧ 0 < shift then 1 else 2
  { value, low := value - gap * twoTo shift, high := value + 2 * twoTo shift, closed := mantissa % 2 = 0 }

/-- is the first of two numbers low enough to be an end before the second -/
def Interval.reaches (i : Interval) (a b : Nat) : Bool := if i.closed then a ≤ b else a < b

/-- the point of the grid of step `10^exponent` that stands for the interval, if one lies inside: the nearer one of the
value's two neighbours on the grid -/
def Interval.onGrid (i : Interval) (tie : Tie) (exponent : Int) : Option Decimal :=
  let scale := tenTo (-exponent).toNat
  let step := twoTo 1076 * tenTo exponent.toNat
  let below := i.value * scale / step
  let past := i.value * scale % step
  let lower := i.reaches (i.low * scale) (below * step)
  let upper := i.reaches ((below + 1) * step) (i.high * scale)
  if lower && upper then
    if 2 * past < step || 2 * past = step && !tie.takesUpper below then some ⟨below, exponent⟩
    else some ⟨below + 1, exponent⟩
  else if lower then some ⟨below, exponent⟩
  else if upper then some ⟨below + 1, exponent⟩
  else none

/-- an exponent of ten that no grid with a point in the interval exceeds: one above the place of the leading digit -/
def Interval.coarsest (i : Interval) : Int := ((i.value.log2 : Int) - 1075) * 30103 / 100000 + 1

/-- the shortest decimal; seventeen digits always suffice, so the search ends on one of the grids tried -/
def shortest (tie : Tie) (mantissa shift : Nat) : Decimal :=
  if mantissa = 0 then ⟨0, 0⟩
  else
    let interval := Interval.around mantissa shift
    ((List.range 20).findSome? fun n : Nat => interval.onGrid tie (interval.coarsest - n)).getD ⟨0, 0⟩

/-! ## Layouts -/

def zeros (n : Nat) : String := String.ofList (List.replicate n '0')

/-- a text with a point behind its first `n` characters -/
def pointed (text : List Char) (n : Nat) : String :=
  String.ofList (text.take n) ++ "." ++ String.ofList (text.drop n)

structure Layout where
  /-- which of two equally short and near decimals is written -/
  tie : Tie
  /-- which powers of ten of the leading digit are written positionally -/
  positional : Int → Bool
  /-- what follows a whole number written positionally -/
  wholeMark : String

def Layout.plain (layout : Layout) (d : Decimal) : String :=
  let digits := (Nat.repr d.digits).toList
  let places := (-d.exponent).toNat
  if 0 ≤ d.exponent then String.ofList digits ++ zeros d.exponent.toNat ++ layout.wholeMark
  else if places < digits.length then pointed digits (digits.length - places)
  else "0." ++ zeros (places - digits.length) ++ String.ofList digits

/-- the power of ten of the leading digit -/
def Decimal.leading (d : Decimal) : Int := (Nat.repr d.digits).length - 1 + d.exponent

/-- one digit, the others behind a point, and a signed power of ten -/
def Decimal.scientific (d : Decimal) : String :=
  let digits := (Nat.repr d.digits).toList
  let leadingText := if digits.length = 1 then String.ofList digits else pointed digits 1
  let power := d.leading
  leadingText ++ (if power < 0 then "e-" else "e+") ++ Nat.repr power.natAbs

def Layout.write (layout : Layout) (d : Decimal) : String :=
  if layout.positional d.leading then layout.plain d else d.scientific

/-! ## Texts -/

/-- printed numbers never have an exponent, and a whole number ends with its last digit -/
def printed : Layout where
  tie := .up
  positional := fun _ => true
  wholeMark := ""

/-- JSON numbers have an exponent from `10^16` on and below `10^-5`, and a whole number ends in `.0` -/
def document : Layout where
  tie := .even
  positional := fun power => -5 ≤ power && power < 16
  wholeMark := ".0"

def text (x : Float) : String :=
  match magnitude x with
  | .undefined => "NaN"
  | .infinite => sign x ++ "inf"
  | .finite mantissa shift => sign x ++ printed.write (shortest printed.tie mantissa shift)

/-- the text in a syntax tree: every digit of a whole number, and `.0` -/
def full (x : Float) : String :=
  match (magnitude x).whole? with
  | some n => sign x ++ Nat.repr n ++ ".0"
  | none => text x

/-- the text in a token: a whole number below `10^15` ends in `.0`, and zero has no sign -/
def short (x : Float) : String :=
  match (magnitude x).whole? with
  | some n => if n < tenTo 15 then (if n = 0 then "" else sign x) ++ Nat.repr n ++ ".0" else text x
  | none => text x

/-- the text in a JSON document, which has none for a number that is not finite -/
def json? (x : Float) : Option String :=
  match magnitude x with
  | .finite mantissa shift => some (sign x ++ document.write (shortest document.tie mantissa shift))
  | _ => none

/-- Printed numbers have no exponent however large or small they are. -/
example : [text 2, text 0.1, text 1e23, text 1e-7, text (-0.0)] =
    ["2", "0.1", "100000000000000000000000", "0.0000001", "-0"] := by decide +kernel

/-- A tree shows the number itself, not the shortest decimal that reads back as it. -/
example : [full 2, full 0.1, full 1e23] = ["2.0", "0.1", "99999999999999991611392.0"] := by decide +kernel

/-- A document has an exponent where the positional form would be long. -/
example : [json? 9999999999999998, json? 1e16, json? 0.00001, json? 1.5e-6] =
    [some "9999999999999998.0", some "1e+16", some "0.00001", some "1.5e-6"] := by decide +kernel

/-! ## Reading -/

def natural (digits : List Char) : Nat :=
  digits.foldl (fun n c => 10 * n + (c.toNat - '0'.toNat)) 0

/-- the number a numeral stands for: a whole part of at least one digit, and what follows the point, if there is one -/
def read? (text : List Char) : Option Float :=
  let whole := text.takeWhile Char.isDigit
  if whole = [] then none
  else
    match text.dropWhile Char.isDigit with
    | [] => some (Float.ofScientific (natural whole) false 0)
    | c :: fraction =>
      if c = '.' && fraction.all Char.isDigit then
        some (Float.ofScientific (natural (whole ++ fraction)) true fraction.length)
      else none

end Scriptlet.Numeral
