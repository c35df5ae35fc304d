import Std.Data.HashMap
import BoardGame.GameTree
/-!
# Statistics of a search

A search keeps statistics for the nodes it has met: whether the node was expanded, how
often it was visited, and a value of a kind that depends on the strategy. Statistics
are kept under the node's depth as well as its slot, so that a ply can be dropped and
a slot that is used again is not taken for its former node.
-/

namespace BoardGame

structure Stat (V : Type) where
  /-- Whether the node has a value estimate and its children have priors. -/
  expanded : Bool := false
  /-- How often the node was visited. The count is assumed to stay below 2^32. -/
  visits : Nat := 0
  value : V
deriving Inhabited

structure Statistics (V : Type) where
  stats : Std.HashMap (Nat × NodeId) (Stat V)

namespace Statistics

variable {V : Type} [Inhabited V]

/-- Statistics of a node that was never met. -/
def fresh : Stat V := { value := default }

def empty : Statistics V := ⟨∅⟩

def read (s : Statistics V) (depth : Nat) (id : NodeId) : Stat V :=
  s.stats.getD (depth, id) fresh

/-- Changes the statistics of a node, which are fresh if it was never met. -/
def modify (s : Statistics V) (depth : Nat) (id : NodeId) (change : Stat V → Stat V) :
    Statistics V :=
  ⟨s.stats.alter (depth, id) fun stat => some (change (stat.getD fresh))⟩

/-- Drops the statistics at a depth. -/
def evict (s : Statistics V) (depth : Nat) : Statistics V :=
  ⟨s.stats.filter fun key _ => key.1 != depth⟩

/-- Drops the statistics at a depth and at the one before it, where the other search on
the same tree may have left some. -/
def evictAround (s : Statistics V) (depth : Nat) : Statistics V :=
  match depth with
  | 0 => s.evict 0
  | before + 1 => (s.evict (before + 1)).evict before

def size (s : Statistics V) : Nat :=
  s.stats.size

def isEmpty (s : Statistics V) : Bool :=
  s.size == 0

end Statistics

end BoardGame
