/-!
# Integers in text

A number is written with ASCII digits after an optional sign. Readers are told
the range they may answer from; a number outside it is refused like any other
unreadable text.
-/

namespace BoardGame.Text

/-- Value of a non-empty run of ASCII digits. -/
def digits? : List Char → Option Nat
  | [] => none
  | cs =>
    if cs.all Char.isDigit then
      some (cs.foldl (fun n c => 10 * n + (c.toNat - '0'.toNat)) 0)
    else none

/-- A number below `bound`, with an optional plus sign. -/
def natural? (bound : Nat) (cs : List Char) : Option Nat :=
  let body := match cs with
    | '+' :: rest => rest
    | _ => cs
  (digits? body).filter (· < bound)

/-- A signed number `n` with `-half ≤ n < half`. -/
def integer? (half : Nat) (cs : List Char) : Option Int :=
  match cs with
  | '-' :: rest => ((digits? rest).filter (· ≤ half)).map fun n => -(n : Int)
  | _ => (natural? half cs).map fun n => (n : Int)

end BoardGame.Text
