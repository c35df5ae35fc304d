/-!
# Shortest decimals

A finite binary number is written with the fewest significant digits that read
back as itself, always positionally and never with an exponent. Among the
shortest decimals the nearest is taken, and of two equally near ones the larger.

The number is `m * 2 ^ q`. The reals that read back as it form an interval whose
ends are half-way to its neighbours, and belong to it exactly when `m` is even.
All arithmetic is on natural numbers in units of a quarter of the last binary
place.
-/

namespace BoardGame.Decimal

/-- A positive number with the interval of reals that round to it: all three are
`_ * 2 ^ exponent`. -/
structure Rounding where
  value : Nat
  low : Nat
  high : Nat
  exponent : Int
  /-- Whether the ends round to the number too. -/
  closed : Bool

/-- The interval around `m * 2 ^ q`. Below a power of two the neighbour is half
as far away, unless the spacing is already the smallest. -/
def Rounding.around (m : Nat) (q : Int) (halfStepBelow : Bool) : Rounding where
  value := 4 * m
  low := if halfStepBelow then 4 * m - 1 else 4 * m - 2
  high := 4 * m + 2
  exponent := q - 2
  closed := m % 2 == 0

/-- A decimal `digits * 10 ^ exponent`. -/
structure Scaled where
  digits : Nat
  exponent : Int

namespace Rounding

/-- Numerator and denominator of `n * 2 ^ r.exponent / 10 ^ place`. -/
def ratio (r : Rounding) (n : Nat) (place : Int) : Nat × Nat :=
  let num := n * Nat.pow 2 r.exponent.toNat * Nat.pow 10 (-place).toNat
  let den := Nat.pow 2 (-r.exponent).toNat * Nat.pow 10 place.toNat
  (num, den)

/-- Whether `d * 10 ^ place` rounds to the number. -/
def contains (r : Rounding) (d : Nat) (place : Int) : Bool :=
  let (low, den) := r.ratio r.low place
  let (high, _) := r.ratio r.high place
  if r.closed then low ≤ d * den && d * den ≤ high
  else low < d * den && d * den < high

/-- The best decimal among the number's two neighbours on the grid of multiples of
`10 ^ place`. -/
def onGrid? (r : Rounding) (place : Int) : Option Nat :=
  let (num, den) := r.ratio r.value place
  let d := num / den
  match r.contains d place, r.contains (d + 1) place with
  | true, true => if 2 * (num % den) < den then some d else some (d + 1)
  | true, false => some d
  | false, true => some (d + 1)
  | false, false => none

/-- The first grid, from coarse to fine, with a neighbour that reads back. -/
def firstGrid (r : Rounding) : Nat → Int → Scaled
  | 0, place => ⟨(r.ratio r.value place).1 / (r.ratio r.value place).2, place⟩
  | fuel + 1, place =>
    match r.onGrid? place with
    | some d => ⟨d, place⟩
    | none => firstGrid r fuel (place - 1)

/-- The decimal place just above the number's first digit, at most `fuel` places
below `place`. -/
def leadingPlace (r : Rounding) : Nat → Int → Int
  | 0, place => place
  | fuel + 1, place =>
    let (num, den) := r.ratio r.value place
    if den ≤ num then place else leadingPlace r fuel (place - 1)

/-- The shortest decimal that rounds to the number. -/
def shortest (r : Rounding) : Scaled :=
  r.firstGrid 20 (r.leadingPlace 100 40)

end Rounding

/-- Removes zeros at the end of the digits, at most `fuel` of them. -/
def Scaled.trim : Nat → Scaled → Scaled
  | 0, d => d
  | fuel + 1, d =>
    if d.digits ≠ 0 ∧ d.digits % 10 = 0 then trim fuel ⟨d.digits / 10, d.exponent + 1⟩ else d

/-- Positional notation. -/
def Scaled.text (d : Scaled) : String :=
  let d := trim 20 d
  if 0 ≤ d.exponent then toString (d.digits * Nat.pow 10 d.exponent.toNat)
  else
    let places := (-d.exponent).toNat
    let fraction := toString (d.digits % Nat.pow 10 places)
    toString (d.digits / Nat.pow 10 places) ++ "." ++
      String.ofList (List.replicate (places - fraction.length) '0') ++ fraction

/-- Text of a single-precision number. -/
def ofSingle (x : Float32) : String :=
  let bits := x.toBits.toNat
  let mantissa : Nat := bits % 0x800000
  let biased : Nat := bits / 0x800000 % 0x100
  let sign := if bits / 0x80000000 = 1 then "-" else ""
  if biased = 255 then
    if mantissa = 0 then sign ++ "inf" else "NaN"
  else if biased = 0 then
    if mantissa = 0 then sign ++ "0"
    else sign ++ (Rounding.around mantissa (-149) false).shortest.text
  else
    let halfStepBelow := decide (mantissa = 0 ∧ 1 < biased)
    let r := Rounding.around (0x800000 + mantissa) ((biased : Int) - 150) halfStepBelow
    sign ++ r.shortest.text

end BoardGame.Decimal
