/-!
# Occupants

What stands on a square is an own piece or an opponent's only as some moving piece
sees it: pieces whose codes have the same sign are on the same side.
-/

namespace BoardGame

/-- What occupies a square, seen from a moving piece. -/
inductive Occupant where
  | empty
  | own
  | opponent
deriving DecidableEq, Inhabited

namespace Occupant

/-- The occupant with code `code` as the piece with code `mover` sees it. -/
def classify (code mover : Int) : Occupant :=
  if code = 0 then empty
  else if code.sign = mover.sign then own
  else opponent

def label : Occupant → String
  | empty => "an empty"
  | own => "its own"
  | opponent => "an opponent"

end Occupant

end BoardGame
