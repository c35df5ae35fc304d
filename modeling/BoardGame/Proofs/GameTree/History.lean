import BoardGame.Proofs.GameTree.Memo
import BoardGame.BuiltIn
/-!
# Histories of a game tree

A history is a tree together with a record of the position that each slot was last
filled with, after any sequence of insertions, queries and evictions. As long as the
start is not at the last depth, remembering and evicting cannot be noticed.
-/

namespace BoardGame.GameTree

inductive Op where
  | insert (position : Position)
  | legalMoves (id : NodeId)
  | outcome (id : NodeId)
  | wins (child parent : NodeId)
  | loses (child parent : NodeId)
  | findMove (id : NodeId) (origin : Option Square) (target : Square)
  | findNamed (id : NodeId) (name : String)
  | evictDepth (depth : Nat)
  | retainFrom (depth : Nat)

def Op.apply (tree : GameTree) : Op → GameTree
  | .insert position => (tree.insert position).2
  | .legalMoves id => exec (GameTree.legalMoves id) tree
  | .outcome id => exec (GameTree.outcome id) tree
  | .wins child parent => exec (GameTree.wins child parent) tree
  | .loses child parent => exec (GameTree.loses child parent) tree
  | .findMove id origin target => exec (GameTree.findMove id origin target) tree
  | .findNamed id name => exec (GameTree.findNamed id name) tree
  | .evictDepth depth => tree.evictDepth depth
  | .retainFrom depth => tree.retainFrom depth

/-- Positions that an operation brings in are no deeper than depths are counted. -/
def Op.Counted : Op → Prop
  | .insert position => position.depth ≤ maxDepth
  | _ => True

structure History where
  tree : GameTree
  /-- The position that a slot was last filled with. -/
  created : NodeId → Option Position

namespace History

/-- A slot is filled when it holds a position that it did not hold before. -/
def advance (past : History) (op : Op) : History :=
  let tree := op.apply past.tree
  { tree
    created := fun id =>
      if past.tree.position? id = none then
        (tree.position? id).or (past.created id)
      else past.created id }

def ofPosition (game : Game) (start : Position) : History :=
  let tree := GameTree.ofPosition game start
  { tree, created := tree.position? }

/-- The history of a sequence of operations on the tree of a position. -/
def run (game : Game) (start : Position) (ops : List Op) : History :=
  ops.foldl advance (ofPosition game start)

end History

variable {game : Game} {tree : GameTree}

/-! ## One operation -/

/-- Slots that hold a position before and after an operation hold the same one. -/
def Steady (before after : GameTree) : Prop :=
  ∀ id p q, before.position? id = some p → after.position? id = some q → q = p

theorem Grows.steady {before after : GameTree} (h : Grows before after) :
    Steady before after := by
  intro id p q hp hq
  rw [h.position? id p hp] at hq
  exact (Option.some.inj hq).symm

theorem Op.apply_spec (h : Coherent game tree) {start : Position} (hroot : tree.Rooted start)
    (hstart : start.depth < maxDepth) {op : Op} (hop : op.Counted) :
    Coherent game (op.apply tree) ∧ (op.apply tree).Rooted start ∧
      Steady tree (op.apply tree) := by
  have of_safe {α : Type} {x : TreeM α} (hx : Safe game x) :
      Coherent game (exec x tree) ∧ (exec x tree).Rooted start ∧ Steady tree (exec x tree) :=
    ⟨(hx tree h).1, (hx tree h).2.rooted hroot, (hx tree h).2.steady⟩
  cases op with
  | insert p => exact ⟨(h.insert hop).1, (h.insert hop).2.rooted hroot, (h.insert hop).2.steady⟩
  | legalMoves id => exact of_safe (safe_legalMoves id)
  | outcome id => exact of_safe (safe_outcome id)
  | wins child parent => exact of_safe ((inquisitive_extends game).wins child parent)
  | loses child parent => exact of_safe ((inquisitive_extends game).loses child parent)
  | findMove id origin target =>
      exact of_safe ((inquisitive_extends game).findMove id origin target)
  | findNamed id name => exact of_safe ((inquisitive_extends game).findNamed id name)
  | evictDepth d =>
      refine ⟨h.evictDepth hroot (Or.inl hstart), hroot.evictDepth h.arena d,
        fun id p q hp hq => ?_⟩
      change (tree.evictDepth d).position? id = some q at hq
      rw [h.arena.position?_evictDepth] at hq
      rw [(Option.ite_none_left_eq_some.mp hq).2] at hp
      exact Option.some.inj hp
  | retainFrom d =>
      obtain ⟨hcoherent, hroot', hback, -⟩ := h.retainFrom hroot (Or.inl hstart)
      refine ⟨hcoherent, hroot', fun id p q hp hq => ?_⟩
      rw [hback id q hq] at hp
      exact Option.some.inj hp

/-! ## All operations -/

/-- The tree is coherent, and every position is the one that its slot was filled with. -/
structure Recorded (game : Game) (past : History) : Prop where
  coherent : Coherent game past.tree
  created : ∀ id p, past.tree.position? id = some p → past.created id = some p

theorem recorded_advance {past : History} (h : Recorded game past) {start : Position}
    (hroot : past.tree.Rooted start) (hstart : start.depth < maxDepth) {op : Op}
    (hop : op.Counted) :
    Recorded game (past.advance op) ∧ (past.advance op).tree.Rooted start := by
  obtain ⟨hcoherent, hroot', hsteady⟩ := Op.apply_spec h.coherent hroot hstart hop
  refine ⟨⟨hcoherent, fun id p hp => ?_⟩, hroot'⟩
  change (op.apply past.tree).position? id = some p at hp
  show (if past.tree.position? id = none then
    ((op.apply past.tree).position? id).or (past.created id) else past.created id) = some p
  cases hbefore : past.tree.position? id with
  | none => rw [if_pos rfl, hp, Option.some_or]
  | some q =>
      rw [if_neg (Option.some_ne_none q), h.created id q hbefore, hsteady id q p hbefore hp]

theorem recorded_run (game : Game) {start : Position} (hstart : start.depth < maxDepth)
    {ops : List Op} (hops : ∀ op ∈ ops, op.Counted) :
    Recorded game (History.run game start ops) := by
  have hfirst : Recorded game (History.ofPosition game start) :=
    ⟨coherent_ofPosition game (Nat.le_of_lt hstart), fun _ _ hp => hp⟩
  have hroot : (History.ofPosition game start).tree.Rooted start := rooted_ofPosition game start
  unfold History.run
  generalize History.ofPosition game start = past at hfirst hroot
  induction ops generalizing past with
  | nil => exact hfirst
  | cons op rest ih =>
      have hrest : ∀ op' ∈ rest, op'.Counted := fun op' hop' =>
        hops op' (List.mem_cons_of_mem op hop')
      obtain ⟨hnext, hroot'⟩ :=
        recorded_advance hfirst hroot hstart (hops op List.mem_cons_self)
      exact ih hrest (past.advance op) hnext hroot'

/-- Nothing that a tree answers depends on what it remembers or has evicted. -/
structure Transparent (game : Game) (past : History) : Prop where
  /-- A node has the position it was created with. -/
  position : ∀ id p, past.tree.position? id = some p →
    past.created id = some p ∧ value (position id) past.tree = .ok p
  /-- An insertion creates its node in a slot that held none. -/
  insert : ∀ p, past.tree.position? (past.tree.insert p).1 = none ∧
    (past.tree.insert p).2.position? (past.tree.insert p).1 = some p
  /-- The successors of a node hold the successors of its position, in order. -/
  legalMoves : ∀ id p, past.tree.position? id = some p →
    match game.successors p with
    | .error e => value (legalMoves id) past.tree = .error e
    | .ok next => ∃ ids, value (legalMoves id) past.tree = .ok ids ∧
      ids.map (exec (legalMoves id) past.tree).position? = next.map some
  /-- The outcome of a node is the outcome of its position. -/
  outcome : ∀ id p, past.tree.position? id = some p →
    value (outcome id) past.tree = game.outcome p
  /-- Remembered successors are live and were created with the successors, in order. -/
  remembered : ∀ id node ids, past.tree.node? id = some node → node.successors = some ids →
    ∃ next, game.successors node.position = .ok next ∧
      ids.map past.tree.position? = next.map some ∧ ids.map past.created = next.map some

/-- Remembering and evicting cannot be noticed, whatever is done to a tree. -/
theorem run_transparent (game : Game) {start : Position} (hstart : start.depth < maxDepth)
    {ops : List Op} (hops : ∀ op ∈ ops, op.Counted) :
    Transparent game (History.run game start ops) := by
  have hrecorded := recorded_run game hstart hops
  have hcoherent := hrecorded.coherent
  refine ⟨?_, ?_, ?_, ?_, ?_⟩
  · intro id p hp
    exact ⟨hrecorded.created id p hp, value_position hp⟩
  · intro p
    refine ⟨node?_eq_none_iff.mp (hcoherent.arena.node?_insert_fst p), ?_⟩
    rw [hcoherent.arena.position?_insert, if_pos rfl]
  · intro id p hp
    exact (legalMoves_spec hcoherent hp).2.2
  · intro id p hp
    exact (yields_outcome _ hcoherent hp).1
  · intro id node ids hnode hids
    obtain ⟨next, hnext, hmap⟩ := hcoherent.successors id node ids hnode hids
    refine ⟨next, hnext, hmap, ?_⟩
    rw [← hmap]
    apply List.map_congr_left
    intro c hc
    have hmem : (History.run game start ops).tree.position? c ∈ next.map some :=
      hmap ▸ List.mem_map_of_mem hc
    obtain ⟨q, -, hq⟩ := List.mem_map.mp hmem
    rw [← hq, hrecorded.created c q hq.symm]

/-- The first ply of a game, dropped, computed again in the slots it left, and dropped
together with the start's own ply. -/
theorem run_transparent_recycled :
    let empty := Position.ofBoard 3 (Board.clear 3) .white .absent 0
    let ops : List Op :=
      [.legalMoves ⟨0⟩, .evictDepth 1, .insert empty, .legalMoves ⟨0⟩, .outcome ⟨2⟩, .retainFrom 1]
    empty.depth < maxDepth ∧ (∀ op ∈ ops, op.Counted) ∧
      Transparent ⟨BuiltIn.ticTacToe, .template⟩
        (History.run ⟨BuiltIn.ticTacToe, .template⟩ empty ops) := by
  intro empty ops
  have hstart : empty.depth < maxDepth := by decide
  have hops : ∀ op ∈ ops, op.Counted := by
    have hempty : empty.depth ≤ maxDepth := Nat.le_of_lt hstart
    simp [ops, Op.Counted, hempty]
  exact ⟨hstart, hops, run_transparent _ hstart hops⟩

end BoardGame.GameTree
