import BoardGame.Session
import BoardGame.Decimal.Double
/-!
# The command line

- `games` lists the built-in games;
- `moves GAME` shows the starting position of a game and its legal moves;
- `selfplay GAME` lets the program play against itself;
- `serve GAME` runs a session on the standard input;
- `--version` tells the version.

The result of a run is its exit code and what it writes. Arguments that cannot be
understood give the code two; a command that fails gives the code one and a report.
-/

namespace BoardGame

namespace CommandLine

/-- What a run leaves behind. -/
structure Report where
  code : Nat
  stdout : String := ""
  stderr : String := ""
deriving DecidableEq

/-- How moves are chosen. -/
inductive Method where
  | vanilla
  | alphaZero
  | alphaZeroRollout
  | dirichlet
  | random
deriving DecidableEq

namespace Method

def text : Method → String
  | vanilla => "vanilla"
  | alphaZero => "alphazero"
  | alphaZeroRollout => "alphazero-rollout"
  | dirichlet => "dirichlet"
  | random => "random"

def ofText? (s : String) : Option Method :=
  [vanilla, alphaZero, alphaZeroRollout, dirichlet, random].find? (·.text == s)

def player (method : Method) (params : SearchParams) : Player :=
  match method with
  | vanilla => Player.vanilla params
  | alphaZero => Player.alphaZero (some Evaluator.uniform) params
  | alphaZeroRollout => Player.alphaZero none params
  | dirichlet => Player.dirichlet params
  | random => .random params.generator

end Method

/-- Options of the commands that choose moves. -/
structure Options where
  games : Nat := 1
  params : SearchParams := {}
  rampStart : Option Float := none
  rampPlies : Option Nat := none
  method : Method := .vanilla
  seed : Option UInt64 := none

/-- Arguments of a command, sorted into options with their values and the rest. -/
structure Arguments where
  options : List (String × String) := []
  positionals : List String := []

/-- Whether an argument is taken for an option. A lone dash is not. -/
def isOption (arg : String) : Bool :=
  arg.startsWith "-" && arg != "-"

/-- Sorts arguments. Options begin with two dashes and have a value, after an equals sign
or as the next argument; after two dashes alone no option follows. -/
def sortArguments (known : List String) : List String → Option Arguments
  | [] => some {}
  | "--" :: rest => some { positionals := rest }
  | arg :: rest =>
    if !isOption arg then do
      let sorted ← sortArguments known rest
      return { sorted with positionals := arg :: sorted.positionals }
    else
      let name := String.ofList (arg.toList.takeWhile (· ≠ '='))
      if !known.contains name then none
      else match arg.toList.dropWhile (· ≠ '='), rest with
        | _ :: value, rest => do
          let sorted ← sortArguments known rest
          return { sorted with options := (name, String.ofList value) :: sorted.options }
        | [], value :: rest =>
          if isOption value then none
          else do
            let sorted ← sortArguments known rest
            return { sorted with options := (name, value) :: sorted.options }
        | [], [] => none

def machineWord? (value : String) : Option Nat :=
  Text.natural? 0x10000000000000000 value.toList

/-- A ply count of sixteen bits. -/
def plies? (value : String) : Option Nat :=
  match Text.integer? 0x8000000000000000 value.toList with
  | some n => if 0 ≤ n ∧ n < 0x10000 then some n.toNat else none
  | none => none

/-- Takes an option with its value into account. -/
def setOption (o : Options) (name value : String) : Option Options :=
  match name with
  | "--games" => do return { o with games := ← machineWord? value }
  | "--iterations" => do return { o with params.iterations := ← machineWord? value }
  | "--exploration" => do return { o with params.exploration := ← Decimal.parseDouble? value }
  | "--temperature" => do return { o with params.temperature := ← Decimal.parseDouble? value }
  | "--ramp-start" => do return { o with rampStart := some (← Decimal.parseDouble? value) }
  | "--ramp-plies" => do return { o with rampPlies := some (← plies? value) }
  | "--discount" => do return { o with params.discount := some (← Decimal.parseDouble? value) }
  | "--reflections" => do
    return { o with params := o.params.withReflections (← machineWord? value) }
  | "--strategy" => do return { o with method := ← Method.ofText? value }
  | "--seed" => do return { o with seed := some (UInt64.ofNat (← machineWord? value)) }
  | _ => none

def searchOptions : List String :=
  ["--iterations", "--exploration", "--temperature", "--ramp-start", "--ramp-plies", "--discount",
   "--reflections", "--strategy", "--seed"]

/-- Completes the options: a ramp needs both its ends. -/
def withRamp (o : Options) : Option Options :=
  match o.rampStart, o.rampPlies with
  | some start, some plies => some { o with params.ramp := some (start, plies) }
  | some _, none => none
  | none, _ => some o

/-- The game and the options of a command. No option may be given twice. -/
def readArguments (known : List String) (args : List String) : Option (String × Options) := do
  let sorted ← sortArguments known args
  let names := sorted.options.map (·.1)
  if names.eraseDups.length ≠ names.length then none
  else
    match sorted.positionals with
    | [game] =>
      let options ← sorted.options.foldlM (fun o (name, value) => setOption o name value) {}
      return (game, ← withRamp options)
    | _ => none

def usageError : Report where
  code := 2

/-- Report of a failure. The cause, if it is told apart, is indented. -/
def failure (stdout message : String) (cause : Option String := none) : Report where
  code := 1
  stdout := stdout
  stderr := "Error: " ++ message ++
    (match cause with
      | some cause => "\n\nCaused by:\n    " ++ "\n    ".intercalate (cause.splitOn "\n")
      | none => "") ++ "\n"

/-- Text in at least ten columns. -/
def padded (text : String) : String :=
  text ++ String.ofList (List.replicate (10 - text.length) ' ')

def listGames (registry : Registry) : Report :=
  let line (name : String) : Except EngineError String := do
    return padded name ++ " " ++ (← registry.create name).engine.name ++ " engine\n"
  match registry.names.mapM line with
  | .ok lines => { code := 0, stdout := String.join lines }
  | .error error => failure "" error.message

/-- A position and the names of its legal moves. -/
def movesText (game : Game) : Except EngineError String := do
  let pos ← game.initial
  let names := (← game.successors pos).map game.moveName
  return pos.diagram game.rules ++ "\n" ++ toString names.length ++ " legal moves: " ++
    " ".intercalate names ++ "\n"

def showMoves (registry : Registry) (id : String) : Report :=
  match registry.create id with
  | .error error => failure "" ("cannot build game `" ++ id ++ "`") (some error.message)
  | .ok game =>
    match movesText game with
    | .ok text => { code := 0, stdout := text }
    | .error error => failure "" error.message

/-- Results of the games played so far. -/
structure Score where
  white : Nat := 0
  black : Nat := 0
  draws : Nat := 0
  instances : Nat := 0

namespace Score

def add (s : Score) (r : GameRecord) : Score :=
  let s := { s with instances := s.instances + r.instances.length }
  match r.winner with
  | some .white => { s with white := s.white + 1 }
  | some .black => { s with black := s.black + 1 }
  | none => { s with draws := s.draws + 1 }

def text (s : Score) : String :=
  s!"white {s.white} / black {s.black} / draw {s.draws}, {s.instances} training instances\n"

end Score

def gameText (game : Game) (number : Nat) (r : GameRecord) : String :=
  r.final.diagram game.rules ++ "\n" ++
    s!"game {number}: {r.result} after {r.plies} plies: " ++ " ".intercalate r.moves ++ "\n"

/-- Plays the rest of some games; game `i` has two seeds of its own. -/
def playGames (registry : Registry) (id : String) (o : Options) (seed : UInt64) (score : Score)
    (stdout : String) (i : Nat) : Nat → Report
  | 0 => { code := 0, stdout := stdout ++ score.text }
  | rest + 1 =>
    let seed' := seed + 2 * UInt64.ofNat i
    let white := o.method.player { o.params with seed := seed' }
    let black := o.method.player { o.params with seed := seed' + 1 }
    match registry.create id >>= GameTree.ofGame with
    | .error error => failure stdout error.message
    | .ok tree =>
      match (Match.play.run ⟨tree, white, black⟩).1 with
      | .error error => failure stdout s!"game {i + 1} of {id} failed" (some error.message)
      | .ok record =>
        playGames registry id o seed (score.add record)
          (stdout ++ gameText tree.game (i + 1) record) (i + 1) rest

/-- Runs a session on the input. -/
def serve (registry : Registry) (id : String) (o : Options) (seed : UInt64) (stdin : String) :
    Report :=
  match Session.start registry id (o.method.player { o.params with seed := seed }) with
  | .ok session => { code := 0, stdout := session.run stdin }
  | .error error => failure "" error.message

/-- Runs the program. `entropy` is the seed where none is given. -/
def run (args : List String) (stdin : String) (entropy : UInt64) : Report :=
  let registry := Registry.builtIn
  match args with
  | ["games"] | ["games", "--"] => listGames registry
  | "moves" :: args =>
    match readArguments [] args with
    | some (id, _) => showMoves registry id
    | none => usageError
  | "selfplay" :: args =>
    match readArguments ("--games" :: searchOptions) args with
    | some (id, o) => playGames registry id o (o.seed.getD entropy) {} "" 0 o.games
    | none => usageError
  | "serve" :: args =>
    match readArguments searchOptions args with
    | some (id, o) => serve registry id o (o.seed.getD entropy) stdin
    | none => usageError
  | arg :: _ =>
    if arg = "--version" ∨ arg.startsWith "-V" then
      { code := 0, stdout := programName ++ " " ++ programVersion ++ "\n" }
    else usageError
  | [] => usageError

end CommandLine

end BoardGame
