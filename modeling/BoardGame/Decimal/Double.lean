import BoardGame.Text.Integer
/-!
# Reading numbers of double precision

A decimal stands for the double nearest to it, and of two equally near ones for the one
with an even last place. The rounding is done on natural numbers.
-/

namespace BoardGame.Decimal

/-- Bits of infinity. -/
def infinityBits : Nat := 0x7ff0000000000000

/-- Bits of the double nearest to `num / den`, both positive. -/
def doubleBits (num den : Nat) : Nat :=
  -- the exponent of the last place: 53 significant bits, unless the spacing is the smallest
  let scale : Int := (num.log2 : Int) - den.log2 - 53
  let place := fun (e : Int) => (num * Nat.pow 2 (-e).toNat, den * Nat.pow 2 e.toNat)
  let e := if (place scale).1 < 0x20000000000000 * (place scale).2 then scale else scale + 1
  let e := max e (-1074)
  let (n, d) := place e
  let q := n / d
  let r := n % d
  let q := if d < 2 * r ∨ (d = 2 * r ∧ q % 2 = 1) then q + 1 else q
  min ((e + 1074).toNat * 0x10000000000000 + q) infinityBits

/-- Number of digits above which a decimal exponent makes a double infinite, or below
which, negated, it makes it zero. -/
def exponentBound : Nat := 400

/-- The double nearest to `digits * 10 ^ exponent`, or to its negative. -/
def nearestDouble (negative : Bool) (digits : Nat) (exponent : Int) : Float :=
  let sign := if negative then 0x8000000000000000 else 0
  let magnitude : Int := (digits.log2 : Int) / 3 + exponent
  let bits :=
    if digits = 0 ∨ magnitude < -exponentBound then 0
    else if exponentBound + (digits.log2 : Int) / 12 < magnitude then infinityBits
    else doubleBits (digits * Nat.pow 10 exponent.toNat) (Nat.pow 10 (-exponent).toNat)
  Float.ofBits (UInt64.ofNat (sign + bits))

/-- Exponent of ten, after an `e` of either case; without one it is zero. -/
def exponentPart? : List Char → Option Int
  | [] => some 0
  | e :: rest =>
    if e.toLower = 'e' then
      match rest with
      | '-' :: ds => (Text.digits? ds).map fun n => -(n : Int)
      | '+' :: ds => (Text.digits? ds).map fun n => (n : Int)
      | ds => (Text.digits? ds).map fun n => (n : Int)
    else none

/-- A number with digits on at least one side of its point. -/
def unsigned? (negative : Bool) (cs : List Char) : Option Float :=
  let whole := cs.takeWhile Char.isDigit
  let rest := cs.dropWhile Char.isDigit
  let (fraction, rest) := match rest with
    | '.' :: rest => (rest.takeWhile Char.isDigit, rest.dropWhile Char.isDigit)
    | _ => ([], rest)
  match Text.digits? (whole ++ fraction), exponentPart? rest with
  | some digits, some exponent => some (nearestDouble negative digits (exponent - fraction.length))
  | _, _ => none

/-- Reads a decimal, or a name of infinity or of the value that is no number. -/
def parseDouble? (text : String) : Option Float :=
  let (negative, body) := match text.toList with
    | '-' :: rest => (true, rest)
    | '+' :: rest => (false, rest)
    | cs => (false, cs)
  match String.ofList (body.map Char.toLower) with
  | "inf" | "infinity" => some (if negative then -1 / 0 else 1 / 0)
  | "nan" => some (0 / 0)
  | _ => unsigned? negative body

end BoardGame.Decimal
