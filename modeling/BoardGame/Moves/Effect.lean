import BoardGame.Position
/-!
# Effects of a move

A move changes the board by a list of writes, in order: first to the squares
jumped over, then to the target and the origin, and last the exchange of the
piece that landed.
-/

namespace BoardGame

/-- A code written to a square. -/
structure Write where
  square : Square
  code : Int
deriving DecidableEq

/-- A piece that may move to a square by one of its rules. -/
structure Candidate where
  piece : Int
  origin : Square
  target : Square
  rule : MoveRule
deriving DecidableEq

namespace Candidate

/-- What jumping does to an occupied square. -/
def jumpedCode? (c : Candidate) (code : Int) : Option Int :=
  match Occupant.classify code c.piece with
  | .empty => none
  | .own => if c.rule.jump.own = .capture then some 0 else none
  | .opponent =>
    match c.rule.jump.opponent with
    | .capture => some 0
    | .impress => some (-code)
    | _ => none

def jumpWrites (c : Candidate) (pos : Position) : List Write :=
  (Square.between c.origin c.target).filterMap fun s =>
    if pos.onBoard s then (c.jumpedCode? (pos.read s)).map (Write.mk s) else none

/-- Writes that leave a square empty behind a piece, which a virtual piece does not. -/
def departure (c : Candidate) (pos : Position) : List Write :=
  if pos.onBoard c.origin then [⟨c.origin, 0⟩] else []

/-- The writes of landing on a target with the given code. -/
def landWrites (c : Candidate) (pos : Position) (name : String) (code : Int) :
    Except RuleError (List Write) :=
  let occupant := Occupant.classify code c.piece
  match occupant, c.rule.land.get occupant with
  | .empty, .allowed => .ok (⟨c.target, c.piece⟩ :: c.departure pos)
  | .empty, .deploy => .ok [⟨c.target, c.piece⟩]
  | .own, .swap | .opponent, .swap =>
    if pos.onBoard c.origin then .ok [⟨c.origin, code⟩, ⟨c.target, c.piece⟩]
    else .error (.virtualSwap name)
  | .own, .capture | .opponent, .capture => .ok (⟨c.target, c.piece⟩ :: c.departure pos)
  | .own, .stay | .opponent, .stay => .ok []
  | _, _ => .error (.ambiguousLanding name occupant)

def exchangeWrites (c : Candidate) (rules : RuleSet) (side : Side) :
    Except RuleError (List Write) :=
  match c.rule.exchange with
  | none => .ok []
  | some name => do return [⟨c.target, (← rules.codeOf name) * side.sign⟩]

/-- All writes of a move. -/
def writes (c : Candidate) (rules : RuleSet) (pos : Position) : Except RuleError (List Write) := do
  let piece ← rules.pieceType c.piece
  let landing ← c.landWrites pos piece.name (pos.read c.target)
  let exchange ← c.exchangeWrites rules pos.mover
  return c.jumpWrites pos ++ landing ++ exchange

/-- The position after a move. -/
def apply (c : Candidate) (rules : RuleSet) (pos : Position) : Except RuleError Position := do
  let writes ← c.writes rules pos
  let board := writes.foldl (fun b w => b.write rules.boardSize w.square w.code) pos.board
  let mover := if c.rule.continues then pos.mover else pos.mover.opponent
  return pos.successor board mover ⟨c.piece, c.origin, c.target⟩

end Candidate

end BoardGame
