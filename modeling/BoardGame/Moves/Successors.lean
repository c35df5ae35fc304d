import BoardGame.Moves.Geometry
import BoardGame.Moves.Effect
/-!
# Successors under a rule set

Candidates are enumerated piece by piece, rule by rule and target by target.
Those that the landing and jumping policies admit are played, and of the
resulting positions the ones of the highest priority remain.
-/

namespace BoardGame

namespace Candidate

/-- Whether the rule lets the piece land on the target's occupant. -/
def mayLand (c : Candidate) (pos : Position) : Bool :=
  c.rule.land.get (Occupant.classify (pos.read c.target) c.piece) != .disallowed

/-- Whether the rule lets the piece pass every square on its way. -/
def mayJump (c : Candidate) (pos : Position) : Bool :=
  (Square.between c.origin c.target).all fun s =>
    c.rule.jump.get (Occupant.classify (pos.cell s) c.piece) != .disallowed

def admissible (c : Candidate) (pos : Position) : Bool :=
  pos.onBoard c.target && c.mayLand pos && c.mayJump pos

end Candidate

/-- A piece that may move, with the square it comes from. -/
structure Mover where
  piece : Int
  origin : Square
deriving DecidableEq

namespace RuleSet

/-- Pieces of the side to move, rank by rank. -/
def boardMovers (rules : RuleSet) (pos : Position) : List Mover :=
  rules.lines.flatMap fun (y : Nat) =>
    rules.lines.filterMap fun (x : Nat) =>
      let code := pos.read ⟨x, y⟩
      if code.sign = pos.mover.sign then some ⟨code, ⟨x, y⟩⟩ else none

/-- Virtual pieces, column by column: every type from below and from above. -/
def virtualMovers (rules : RuleSet) (pos : Position) : List Mover :=
  rules.lines.flatMap fun (x : Nat) =>
    (List.range (Int.bmod rules.pieces.length 256).toNat).flatMap fun (i : Nat) =>
      let piece := (i + 1) * pos.mover.sign
      [⟨piece, ⟨x, -1⟩⟩, ⟨piece, ⟨x, rules.edge⟩⟩]

def movers (rules : RuleSet) (pos : Position) : List Mover :=
  match rules.moveSource with
  | .piecesOnBoard => rules.boardMovers pos
  | .ends => rules.virtualMovers pos

/-- Admissible moves of one piece by one of its rules. -/
def candidatesBy (rules : RuleSet) (pos : Position) (m : Mover) (rule : MoveRule) :
    List Candidate :=
  ((rules.targetSquares pos.mover m.origin rule).map fun target =>
    Candidate.mk m.piece m.origin target rule).filter (·.admissible pos)

/-- Admissible moves of one piece. -/
def candidates (rules : RuleSet) (pos : Position) (m : Mover) : Except RuleError (List Candidate) :=
  return (← rules.pieceType m.piece).moves.flatMap (rules.candidatesBy pos m)

/-- Positions after the moves of one piece, with the priorities of the moves. -/
def movesOf (rules : RuleSet) (pos : Position) (m : Mover) :
    Except RuleError (List (Int × Position)) := do
  (← rules.candidates pos m).mapM fun c => return (c.rule.priority, ← c.apply rules pos)

/-- The entries of the highest priority, in order. -/
def ofHighestPriority {α : Type} (entries : List (Int × α)) : List α :=
  match (entries.map (·.1)).max? with
  | none => []
  | some top => (entries.filter (·.1 = top)).map (·.2)

/-- Positions that the side to move can reach. -/
def successors (rules : RuleSet) (pos : Position) : Except RuleError (List Position) := do
  let entries ← (rules.movers pos).mapM (rules.movesOf pos)
  return ofHighestPriority entries.flatten

end RuleSet

end BoardGame
