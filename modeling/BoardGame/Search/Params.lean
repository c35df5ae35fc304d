import BoardGame.Random
/-!
# Search parameters
-/

namespace BoardGame

structure SearchParams where
  /-- Iterations per move; at least one is run. -/
  iterations : Nat := 1600
  /-- Scale of the exploration bonus. -/
  exploration : Float := 1
  /-- Temperature for choosing the move to play. -/
  temperature : Float := 0.2
  /-- Temperature at the start and the number of plies over which it moves to
  `temperature`. -/
  ramp : Option (Float × Nat) := none
  /-- Factor applied to a value for each ply it is carried up. -/
  discount : Option Float := none
  /-- Number of frames that an evaluator sees. -/
  reflections : Nat := 1
  seed : UInt64 := 0

namespace SearchParams

/-- Few iterations and no chance in the choice of the move. -/
def forTesting : SearchParams where
  iterations := 50
  temperature := 0

/-- There are between one and four frames. -/
def withReflections (params : SearchParams) (count : Nat) : SearchParams :=
  { params with reflections := min (max count 1) 4 }

/-- Temperature at a depth. -/
def temperatureAt (params : SearchParams) (depth : Nat) : Float :=
  match params.ramp with
  | some (start, plies) =>
    if depth < plies then
      start + (params.temperature - start) * (Float.ofNat depth / Float.ofNat plies)
    else params.temperature
  | none => params.temperature

def generator (params : SearchParams) : Generator := ⟨params.seed⟩

end SearchParams

end BoardGame
