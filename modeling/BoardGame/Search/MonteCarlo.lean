import BoardGame.Search.Strategy
/-!
# Monte Carlo tree search

Each iteration descends from the root to the child of the highest priority until it
meets a node that is not expanded or that ends the game, expands that node, and carries
its value up the path. After the last iteration the strategy draws the move.
-/

namespace BoardGame

namespace MonteCarlo

variable {V : Type} [Inhabited V]

/-- The child of the highest priority among the rest of the moves, given the best so
far. The first of several is kept, and a priority that cannot be compared never
replaces another. -/
def bestFrom (strategy : Strategy V) (parent : NodeId) :
    Option (NodeId × Float) → List NodeId → SearchM V (Option NodeId)
  | best, [] => return best.map (·.1)
  | best, child :: rest => do
    let priority ← strategy.priority parent child
    let better := match best with
      | none => true
      | some (_, highest) => highest < priority
    bestFrom strategy parent (if better then some (child, priority) else best) rest

def bestChild (strategy : Strategy V) (parent : NodeId) : SearchM V NodeId := do
  match ← bestFrom strategy parent none (← GameTree.legalMoves parent) with
  | some child => return child
  | none => throw (.invariant .noChild)

/-- Whether a search descends from a node to its children. -/
def passable (id : NodeId) : SearchM V Bool := do
  if ← Strategy.expanded id then return !(← GameTree.outcome id).isTerminal
  return false

/-- The nodes passed on the way to a leaf, and the leaf, after at most `fuel` steps. -/
def descendFrom (strategy : Strategy V) : Nat → NodeId → SearchM V (List NodeId × NodeId)
  | 0, node => return ([], node)
  | fuel + 1, node => do
    if ← passable node then
      let (path, leaf) ← descendFrom strategy fuel (← bestChild strategy node)
      return (node :: path, leaf)
    return ([], node)

/-- Descends from the root to a leaf. Every node that is passed has statistics of its
own, so there are no more steps than entries. -/
def descend (strategy : Strategy V) (root : NodeId) : SearchM V (List NodeId × NodeId) := do
  descendFrom strategy ((← getThe (SearchState V)).statistics.size + 1) root

/-- One iteration. -/
def iterate (strategy : Strategy V) (root : NodeId) : SearchM V Unit := do
  let (path, leaf) ← descend strategy root
  strategy.expand leaf
  strategy.backprop path leaf

def iterateTimes (strategy : Strategy V) (root : NodeId) : Nat → SearchM V Unit
  | 0 => return ()
  | n + 1 => do
    iterate strategy root
    iterateTimes strategy root n

/-- Fails unless there is a move to play. -/
def ensurePlayable (id : NodeId) : TreeM Unit := do
  if (← GameTree.outcome id).isTerminal then
    throw .gameOver
  if (← GameTree.legalMoves id).isEmpty then
    throw (.invariant .undeterminedWithoutMoves)

/-- Searches and picks a move. -/
def search (strategy : Strategy V) (root : NodeId) : SearchM V (NodeId × Slice) := do
  ensurePlayable root
  iterateTimes strategy root (max strategy.params.iterations 1)
  strategy.pickMove root

end MonteCarlo

/-- A tree search with its statistics and its source of chance. -/
structure TreeSearch (V : Type) where
  strategy : Strategy V
  statistics : Statistics V
  generator : Generator

namespace TreeSearch

variable {V : Type} [Inhabited V]

def ofStrategy (strategy : Strategy V) : TreeSearch V where
  strategy := strategy
  statistics := .empty
  generator := strategy.params.generator

/-- Runs a computation of a search on a tree. -/
def run {α : Type} (search : TreeSearch V) (tree : GameTree) (x : SearchM V α) :
    Except EngineError α × TreeSearch V × GameTree :=
  let ⟨strategy, statistics, generator⟩ := search
  let (result, ⟨tree, statistics, generator⟩) := x.run ⟨tree, statistics, generator⟩
  (result, ⟨strategy, statistics, generator⟩, tree)

/-- Forgets all statistics. -/
def gameOver (search : TreeSearch V) : TreeSearch V :=
  { search with statistics := .empty }

end TreeSearch

end BoardGame
