import BoardGame.Search.Rollout
import BoardGame.Search.Statistics
import BoardGame.Encoding.Record
/-!
# Computations of a search

A search works on a game tree and its own statistics, draws random numbers, and may
fail. What a failed computation has changed stays changed.
-/

namespace BoardGame

structure SearchState (V : Type) where
  tree : GameTree
  statistics : Statistics V
  generator : Generator

abbrev SearchM (V : Type) := ExceptT EngineError (StateM (SearchState V))

namespace SearchM

variable {V : Type}

/-- Runs a computation on the tree. -/
def onTree {α : Type} (x : TreeM α) : SearchM V α :=
  ExceptT.mk fun ⟨tree, statistics, generator⟩ =>
    let (result, tree) := x.run tree
    (result, ⟨tree, statistics, generator⟩)

/-- Runs a computation that draws random numbers. -/
def byChance {α : Type} (x : ChanceM α) : SearchM V α :=
  ExceptT.mk fun ⟨tree, statistics, generator⟩ =>
    let (result, generator) := x.run generator
    (result, ⟨tree, statistics, generator⟩)

instance : MonadLift TreeM (SearchM V) := ⟨onTree⟩

instance : MonadLift ChanceM (SearchM V) := ⟨byChance⟩

instance : MonadLift RandomM (SearchM V) := ⟨fun x => byChance (ExceptT.lift x)⟩

/-- The game that is played. -/
def game : SearchM V Game :=
  return (← getThe (SearchState V)).tree.game

variable [Inhabited V]

/-- Statistics of a node of the tree. -/
def stat (id : NodeId) : SearchM V (Stat V) := do
  let depth ← GameTree.depth id
  return (← getThe (SearchState V)).statistics.read depth id

/-- Changes the statistics of a node of the tree. -/
def changeStat (id : NodeId) (change : Stat V → Stat V) : SearchM V Unit := do
  let depth ← GameTree.depth id
  modifyThe (SearchState V) fun ⟨tree, statistics, generator⟩ =>
    ⟨tree, statistics.modify depth id change, generator⟩

/-- Drops the statistics that a move from the given depth leaves behind. -/
def evictAround (depth : Nat) : SearchM V Unit :=
  modifyThe (SearchState V) fun ⟨tree, statistics, generator⟩ =>
    ⟨tree, statistics.evictAround depth, generator⟩

/-- Verdicts on moves from a node. -/
def verdicts (parent : NodeId) (moves : List NodeId) : SearchM V (List Verdict) := do
  let mover := (← GameTree.position parent).mover
  moves.mapM fun child => do
    let outcome ← GameTree.outcome child
    return Verdict.ofOutcome outcome (← GameTree.position child).mover mover

/-- Bonus for a move that wins at once, and penalty for one that loses at once. -/
def terminalBias (parent child : NodeId) : SearchM V Float := do
  if ← GameTree.wins child parent then return 100
  if ← GameTree.loses child parent then return -100
  return 0

/-- What is recorded about a node: one share for each of its moves. -/
def recordSlice (root : NodeId) (moves : List NodeId) (shares : List Float) :
    SearchM V Slice := do
  let rules := (← game).rules
  let pos ← GameTree.position root
  let shares ← (moves.zip shares).mapM fun (child, share) => do
    let last := (← GameTree.position child).last
    return { index := rules.moveIndex last, share := share.toFloat32 : MoveShare }
  return { board := pos.board, mover := pos.mover, shares }

end SearchM

end BoardGame
