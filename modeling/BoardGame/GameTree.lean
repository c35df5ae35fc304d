import Std.Data.TreeMap
import BoardGame.Game
/-!
# Game trees

A game tree keeps every position it has met in a slot of its own. Successors and
outcomes are computed when they are first asked for and remembered in the slot.
Slots are also listed by depth, so that a whole ply can be dropped once the game
has gone past it; the freed slots are used again, the one freed last first.
-/

namespace BoardGame

/-- A slot of a game tree. Slots are numbered without a bound: a tree is assumed to have
fewer than 2^32 of them. -/
structure NodeId where
  index : Nat
deriving DecidableEq, Hashable, Inhabited

/-- A position with what is remembered about it. -/
structure Node where
  position : Position
  successors : Option (List NodeId) := none
  outcome : Option Outcome := none

structure GameTree where
  game : Game
  slots : Array (Option Node)
  free : List NodeId
  plies : Std.TreeMap Nat (Array NodeId)
  start : NodeId

/-- Computations on a game tree. What a failed computation has added stays. -/
abbrev TreeM := ExceptT EngineError (StateM GameTree)

namespace GameTree

/-- The node in a slot, if it holds one. -/
def node? (tree : GameTree) (id : NodeId) : Option Node :=
  tree.slots[id.index]?.join

/-- Number of positions. -/
def size (tree : GameTree) : Nat :=
  tree.slots.size - tree.free.length

/-- Lists a slot under a depth. -/
def enlist (plies : Std.TreeMap Nat (Array NodeId)) (depth : Nat) (id : NodeId) :
    Std.TreeMap Nat (Array NodeId) :=
  plies.alter depth fun ids => some ((ids.getD #[]).push id)

/-- Adds a position about which nothing is remembered yet. -/
def insert (tree : GameTree) (position : Position) : NodeId × GameTree :=
  let ⟨game, slots, free, plies, start⟩ := tree
  let node : Option Node := some { position }
  match free with
  | id :: free =>
    (id, ⟨game, slots.setIfInBounds id.index node, free, enlist plies position.depth id, start⟩)
  | [] =>
    let id : NodeId := ⟨slots.size⟩
    (id, ⟨game, slots.push node, [], enlist plies position.depth id, start⟩)

/-- A tree with one position, which is never dropped. -/
def ofPosition (game : Game) (position : Position) : GameTree :=
  let (id, tree) := insert ⟨game, #[], [], ∅, ⟨0⟩⟩ position
  { tree with start := id }

/-- A tree with the starting position of a game. -/
def ofGame (game : Game) : Except EngineError GameTree :=
  return ofPosition game (← game.initial)

/-- Changes the node in a slot, if it holds one. -/
def modify (tree : GameTree) (id : NodeId) (change : Node → Node) : GameTree :=
  { tree with slots := tree.slots.modify id.index (Option.map change) }

/-- Empties a slot. The start keeps its place. -/
def drop (depth : Nat) (tree : GameTree) (id : NodeId) : GameTree :=
  if id = tree.start then { tree with plies := enlist tree.plies depth id }
  else
    match tree.node? id with
    | none => tree
    | some _ =>
      let ⟨game, slots, free, plies, start⟩ := tree
      ⟨game, slots.setIfInBounds id.index none, id :: free, plies, start⟩

/-- Forgets the successors of a node. -/
def forget (tree : GameTree) (id : NodeId) : GameTree :=
  tree.modify id fun node => { node with successors := none }

/-- Drops the positions at a depth. The ply before it forgets its successors, which
are among them. -/
def evictDepth (tree : GameTree) (depth : Nat) : GameTree :=
  match tree.plies[depth]? with
  | none => tree
  | some ids =>
    let tree := ids.foldl (drop depth) { tree with plies := tree.plies.erase depth }
    match depth with
    | 0 => tree
    | before + 1 => (tree.plies.getD before #[]).foldl forget tree

/-- Drops the positions shallower than a depth. -/
def retainFrom (tree : GameTree) (depth : Nat) : GameTree :=
  (tree.plies.keys.filter (· < depth)).foldl evictDepth tree

/-- The node in a slot, which must hold one. -/
def node (id : NodeId) : TreeM Node := do
  match (← get).node? id with
  | some node => return node
  | none => throw (.invariant (.evictedNode id.index))

def position (id : NodeId) : TreeM Position :=
  return (← node id).position

def depth (id : NodeId) : TreeM Nat :=
  return (← position id).depth

/-- Whether two positions have the same side to move. -/
def sameMover (a b : NodeId) : TreeM Bool := do
  let moverA := (← position a).mover
  let moverB := (← position b).mover
  return moverA == moverB

/-- Adds positions in order. -/
def insertAll (positions : List Position) : TreeM (List NodeId) :=
  positions.mapM fun position => modifyGet fun tree => tree.insert position

/-- Successors of a position. -/
def legalMoves (id : NodeId) : TreeM (List NodeId) := do
  let node ← node id
  match node.successors with
  | some moves => return moves
  | none =>
    let game := (← get).game
    let moves ← insertAll (← game.successors node.position)
    modifyThe GameTree fun tree => tree.modify id fun node => { node with successors := some moves }
    return moves

/-- Outcome of a position for its side to move. -/
def outcome (id : NodeId) : TreeM Outcome := do
  let node ← node id
  match node.outcome with
  | some outcome => return outcome
  | none =>
    let game := (← get).game
    let outcome ← game.outcomeBy node.position (List.isEmpty <$> legalMoves id)
    modifyThe GameTree fun tree => tree.modify id fun node => { node with outcome := some outcome }
    return outcome

/-- Whether moving from `parent` to `child` wins the game at once. -/
def wins (child parent : NodeId) : TreeM Bool := do
  let outcome ← outcome child
  return outcome == (if ← sameMover child parent then .win else .lose)

/-- Whether moving from `parent` to `child` loses the game at once. -/
def loses (child parent : NodeId) : TreeM Bool := do
  let outcome ← outcome child
  return outcome == (if ← sameMover child parent then .lose else .win)

/-- The first successor by a move to `target`, from `origin` if one is given. -/
def findMove (id : NodeId) (origin : Option Square) (target : Square) : TreeM (Option NodeId) := do
  (← legalMoves id).findM? fun child => do
    let last := (← position child).last
    return last.target == target && origin.all (· == last.origin)

/-- Name of the move that leads to a node. -/
def moveName (child : NodeId) : TreeM String :=
  return (← get).game.moveName (← position child)

/-- Name of the move from `parent` to `child`. -/
def moveNameFrom (parent child : NodeId) : TreeM String := do
  let _ ← position parent
  moveName child

/-- The first successor by a move of the given name. -/
def findNamed (id : NodeId) (name : String) : TreeM (Option NodeId) := do
  let moves ← legalMoves id
  let _ ← position id
  moves.findM? fun child => return (← moveName child) == name

end GameTree

end BoardGame
