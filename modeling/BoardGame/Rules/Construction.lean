import BoardGame.Rules.Basic
/-!
# Rule sets from text

Move rules and starting squares are written in text; these readers turn them
into the parts of a rule set and name what they cannot read.
-/

namespace BoardGame

namespace Template

def ofText (text : String) : Except RuleError Template :=
  match parse? text with
  | some template => .ok template
  | none => .error (.template text)

end Template

namespace MoveRule

/-- A move along the given templates that may neither land nor jump anywhere yet. -/
def ofTemplates (texts : List String) : Except RuleError MoveRule :=
  return { templates := ← texts.mapM Template.ofText }

end MoveRule

namespace Square

/-- Reads the name of a square that a piece is to be put on. -/
def ofName (name : List Char) : Except RuleError Square :=
  match parse? name with
  | some square => .ok square
  | none => .error (.placement nowhere .unreadable)

end Square

namespace PieceType

/-- Adds starting squares. -/
def placedAt (piece : PieceType) (names : List String) : Except RuleError PieceType :=
  return { piece with
    placements := piece.placements ++ (← names.mapM fun name => Square.ofName name.toList) }

end PieceType

end BoardGame
