import BoardGame.Registry
import BoardGame.Player
import BoardGame.Diagram
import BoardGame.SelfPlay
import BoardGame.Text.Lowercase
/-!
# Sessions

A session plays one game at a time by commands in text. It remembers the position its
line starts from, the names of the moves made since, and the node it has come to.

Each line of input holds a command, after an optional number. The reply is `=` on
success and `?` on failure, followed by the number, a blank and the message, and an
empty line.

The command `position` is meant to be sent with the whole game so far: if it continues
the session's line only the new moves are played.
-/

namespace BoardGame

/-- What a session can be told to do. -/
inductive Command where
  | board
  | fen
  | game
  | genmove
  | knownCommand
  | listCommands
  | moves
  | name
  | newGame
  | outcome
  | play
  | position
  | quit
  | version
deriving DecidableEq

namespace Command

def all : List Command :=
  [board, fen, game, genmove, knownCommand, listCommands, moves, name, newGame, outcome, play,
   position, quit, version]

def text : Command → String
  | board => "board"
  | fen => "fen"
  | game => "game"
  | genmove => "genmove"
  | knownCommand => "known_command"
  | listCommands => "list_commands"
  | moves => "moves"
  | name => "name"
  | newGame => "newgame"
  | outcome => "outcome"
  | play => "play"
  | position => "position"
  | quit => "quit"
  | version => "version"

def ofText? (s : String) : Option Command :=
  all.find? (·.text == s)

end Command

/-- Name under which the program is known. -/
def programName : String := "tabula"

def programVersion : String := "0.1.0"

structure Session where
  registry : Registry
  player : Player
  tree : GameTree
  /-- Position from which the line starts. -/
  base : Position
  /-- Names of the moves made from `base`. -/
  line : List String
  current : NodeId

/-- Commands change the session even where they fail half-way. -/
abbrev SessionM := ExceptT EngineError (StateM Session)

namespace Session

/-- A session at the start of a registered game. -/
def start (registry : Registry) (id : String) (player : Player) : Except EngineError Session := do
  let game ← registry.create id
  let base ← game.initial
  let tree := GameTree.ofPosition game base
  return { registry, player, tree, base, line := [], current := tree.start }

/-- The position the session has come to. -/
def position? (s : Session) : Option Position :=
  (s.tree.node? s.current).map (·.position)

def onTree {α : Type} (x : TreeM α) : SessionM α :=
  ExceptT.mk fun ⟨registry, player, tree, base, line, current⟩ =>
    let (result, tree) := x.run tree
    (result, ⟨registry, player, tree, base, line, current⟩)

instance : MonadLift TreeM SessionM := ⟨onTree⟩

def currentNode : SessionM NodeId :=
  return (← getThe Session).current

def currentGame : SessionM Game :=
  return (← getThe Session).tree.game

/-- Begins a line at a position of a game. -/
def reset (game : Game) (base : Position) : SessionM Unit :=
  modifyThe Session fun s =>
    let tree := GameTree.ofPosition game base
    ⟨s.registry, s.player.gameOver, tree, base, [], tree.start⟩

/-- Begins a line at a position of the game that is played. -/
def resetTo (base : Position) : SessionM Unit := do
  reset (← currentGame) base

/-- Goes to a successor of the current node. -/
def advance (child : NodeId) (name : String) : SessionM Unit := do
  modifyThe Session fun s => { s with line := s.line ++ [name], current := child }
  Match.advance child

/-- Origin and target of a move written `from:to`, or a target alone. -/
def squares? (move : String) : Option (Option Square × Square) :=
  let first := move.toList.takeWhile (· ≠ ':')
  match move.toList.dropWhile (· ≠ ':') with
  | [] => (Square.parse? first).map (none, ·)
  | _ :: second =>
    match Square.parse? second, Square.parse? first with
    | some target, some origin => some (some origin, target)
    | _, _ => none

/-- The successor meant by a move: its name, its squares, or its target. -/
def findMove (move : String) : SessionM (Option NodeId) := do
  let id ← currentNode
  match ← GameTree.findNamed id move with
  | some child => return some child
  | none =>
    match squares? move with
    | some (origin, target) => GameTree.findMove id origin target
    | none => return none

/-- Plays a move. -/
def play (move : String) : SessionM Unit := do
  let id ← currentNode
  if (← GameTree.outcome id).isTerminal then
    throw .gameOver
  match ← findMove move with
  | some child => advance child (← GameTree.moveNameFrom id child)
  | none => throw (.illegalMove move)

def playAll (moves : List String) : SessionM Unit :=
  moves.forM play

/-- Reads the arguments of `position`: the starting position or a description of one, and
the moves from there. -/
def readPosition (game : Game) (args : List String) :
    Except EngineError (Position × List String) := do
  let afterMoves (rest : List String) := match rest with
    | "moves" :: moves => moves
    | moves => moves
  match args with
  | "fen" :: rest =>
    let base ← game.readPosition (" ".intercalate (rest.takeWhile (· ≠ "moves")))
    return (base, afterMoves (rest.dropWhile (· ≠ "moves")))
  | "startpos" :: rest => return (← game.initial, afterMoves rest)
  | rest => return (← game.initial, afterMoves rest)

/-- Whether a line that cannot be continued is played again from its base. -/
def isRecoverable : EngineError → Bool
  | .illegalMove _ | .gameOver => true
  | _ => false

/-- Plays a line from its base. If that fails the session is left at the base. -/
def playLine (base : Position) (moves : List String) : SessionM Unit := do
  resetTo base
  tryCatch (playAll moves) fun error => do
    resetTo base
    throw error

/-- Sets up a position and plays moves from it. -/
def setPosition (args : List String) : SessionM Unit := do
  let (base, moves) ← readPosition (← currentGame) args
  let s ← getThe Session
  if base = s.base ∧ s.line.isPrefixOf moves then
    tryCatch (playAll (moves.drop s.line.length)) fun error =>
      if isRecoverable error then playLine base moves else throw error
  else playLine base moves

/-- Lets the player move. -/
def generateMove : SessionM String := do
  let id ← currentNode
  if (← GameTree.outcome id).isTerminal then
    throw .gameOver
  let (child, _) ← (ExceptT.mk fun ⟨registry, player, tree, base, line, current⟩ =>
    let (result, player, tree) := player.next tree id
    (result, ⟨registry, player, tree, base, line, current⟩) : SessionM (NodeId × Option Slice))
  let name ← GameTree.moveNameFrom id child
  advance child name
  return name

/-- Names of the legal moves. -/
def legalMoves : SessionM (List String) := do
  let id ← currentNode
  (← GameTree.legalMoves id).mapM fun child => GameTree.moveNameFrom id child

def switchGame (id : String) : SessionM Unit := do
  let game ← (← getThe Session).registry.create id
  let base ← game.initial
  reset game base

/-- Text of the result so far. -/
def outcomeText (outcome : Outcome) (mover : Side) : String :=
  if outcome.isTerminal then
    match outcome.winner mover with
    | some side => side.label ++ " wins"
    | none => "draw"
  else "undetermined"

/-- The first argument, which must be there. -/
def required (what : String) (args : List String) : SessionM String :=
  match args with
  | [] => throw (.parse (.missingArgument what))
  | arg :: _ => return arg

def perform (command : Command) (args : List String) : SessionM String :=
  match command with
  | .name => return programName
  | .version => return programVersion
  | .listCommands => return "\n".intercalate (Command.all.map (·.text))
  | .knownCommand => do
    let known := Command.ofText? (Text.lowercase (← required "command" args))
    return if known.isSome then "true" else "false"
  | .quit => return ""
  | .game =>
    match args with
    | [] => return (← currentGame).name
    | id :: _ => do
      switchGame id
      return ""
  | .newGame => do
    resetTo (← (← currentGame).initial)
    return ""
  | .moves => return " ".intercalate (← legalMoves)
  | .play => do
    play (← required "move" args)
    return ""
  | .position => do
    setPosition args
    return ""
  | .genmove => generateMove
  | .outcome => do
    let id ← currentNode
    let outcome ← GameTree.outcome id
    return outcomeText outcome (← GameTree.position id).mover
  | .board => do
    let pos ← GameTree.position (← currentNode)
    return "\n" ++ pos.diagram (← currentGame).rules
  | .fen => do
    let game ← currentGame
    match game.positionText (← GameTree.position (← currentNode)) with
    | some text => return text
    | none => throw (.parse (.noFormat game.name))

/-- Performs a command given by its text. -/
def dispatch (command : String) (args : List String) : SessionM String :=
  match Command.ofText? command with
  | some command => perform command args
  | none => throw (.parse (.unknownCommand command))

/-- Whether a command succeeded, and the message of its reply. -/
def execute (s : Session) (command : String) (args : List String) : (Bool × String) × Session :=
  match (dispatch command args).run s with
  | (.ok message, s) => ((true, message), s)
  | (.error error, s) => ((false, error.message), s)

/-- A line without blanks at its ends, cut into its number and the rest. -/
def splitNumber (line : List Char) : Option Nat × List Char :=
  let digits := line.takeWhile Char.isDigit
  match Text.natural? 0x100000000 digits with
  | some n => (some n, Text.trim (line.dropWhile Char.isDigit))
  | none => (none, line)

/-- Replies to one line, and whether the session goes on. -/
def replyTo (s : Session) (line : List Char) : String × Bool × Session :=
  let line := Text.trim line
  if line.isEmpty ∨ line.head? = some '#' then ("", true, s)
  else
    let (number, rest) := splitNumber line
    match (Text.words rest).map String.ofList with
    | [] => ("", true, s)
    | word :: args =>
      let command := Text.lowercase word
      let ((success, message), s) := s.execute command args
      let mark := if success then "=" else "?"
      let number := match number with
        | some n => toString n
        | none => ""
      (mark ++ number ++ " " ++ message ++ "\n\n", command != Command.quit.text, s)

/-- Replies to lines until the session is told to quit. -/
def replies (s : Session) : List String → List String
  | [] => []
  | line :: rest =>
    let (reply, goesOn, s) := s.replyTo line.toList
    if goesOn then reply :: replies s rest else [reply]

/-- Everything a session writes in answer to a text. -/
def run (s : Session) (input : String) : String :=
  String.join (s.replies (input.splitOn "\n"))

end Session

end BoardGame
