import Std.Data.TreeMap
import BoardGame.Game
import BoardGame.BuiltIn
/-!
# Registry of games

Maps identifiers to games. A game is built each time it is asked for, and
building it may fail.
-/

namespace BoardGame

structure Registry where
  games : Std.TreeMap String (Except EngineError Game)

namespace Registry

def empty : Registry := ⟨∅⟩

/-- Registers a game, in place of any other with the same identifier. -/
def register (registry : Registry) (id : String) (game : Except EngineError Game) : Registry :=
  ⟨registry.games.insert id game⟩

def builtIn : Registry :=
  ((((empty.register "tictactoe" (Game.ofRules BuiltIn.ticTacToe .template)).register
    "connect4" (Game.ofRules BuiltIn.connectFour .template)).register
    "othello" (Game.ofRules BuiltIn.othello .template)).register
    "chess" (Game.ofRules BuiltIn.chess .template)).register
    "chess2" (Game.ofRules BuiltIn.fullChess .chess)

def create (registry : Registry) (id : String) : Except EngineError Game :=
  match registry.games[id]? with
  | some game => game
  | none => .error (.unknownGame id)

def contains (registry : Registry) (id : String) : Bool :=
  registry.games.contains id

/-- Identifiers in ascending order. -/
def names (registry : Registry) : List String :=
  registry.games.keys

end Registry

end BoardGame
