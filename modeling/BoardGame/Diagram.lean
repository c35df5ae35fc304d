import BoardGame.Position
/-!
# Diagrams

A text picture of a position: one line per rank with the first rank at the
bottom, then the column letters and the side to move. White's pieces are shown
by the first letter of their name in upper case and black's in lower case.
-/

namespace BoardGame

namespace Position

/-- Letter for a piece code. -/
def letter (rules : RuleSet) (code : Int) : Char :=
  match rules.pieceType? code with
  | some piece =>
    let c := piece.name.toList.head?.getD '?'
    if 0 < code then c.toUpper else c.toLower
  | none => if code = 0 then '.' else '?'

/-- A number in at least two columns. -/
def rankLabel (n : Nat) : String :=
  let digits := toString n
  if digits.length < 2 then " " ++ digits else digits

/-- Each character after a space. -/
def spaced (cs : List Char) : String :=
  String.ofList (cs.flatMap fun c => [' ', c])

def diagramRank (rules : RuleSet) (pos : Position) (y : Nat) : String :=
  let letters := (List.range pos.size).map fun (x : Nat) => letter rules (pos.read ⟨x, y⟩)
  rankLabel (y + 1) ++ " " ++ spaced letters ++ "\n"

def diagram (rules : RuleSet) (pos : Position) : String :=
  let ranks := (List.range pos.size).reverse.map (diagramRank rules pos)
  let files := (List.range pos.size).map fun x => Char.ofNat ('a'.toNat + x)
  String.join ranks ++ "   " ++ spaced files ++ "  " ++ pos.mover.label ++ " to move"

end Position

end BoardGame
