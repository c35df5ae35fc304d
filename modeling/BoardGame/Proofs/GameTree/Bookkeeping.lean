import Mathlib.Data.Finset.Card
import Mathlib.Data.List.Count
import BoardGame.Proofs.GameTree.Development
import BoardGame.Proofs.GameTree.History
/-!
# The books of a game tree

The slots, the free list and the lists of the plies are changed by different operations,
yet they describe one set of live nodes after any sequence of them. No assumption on depths
is needed for this: what successors a node remembers plays no part in it.
-/

namespace BoardGame.GameTree

open Stateful (Keeps)

variable {game : Game} {tree : GameTree} {id : NodeId} {d : Nat} {start : Position}

/-! ## Live nodes -/

/-- The slots that hold a position. -/
def live (tree : GameTree) : Finset NodeId :=
  ((List.range tree.slots.size).map NodeId.mk).toFinset.filter fun id =>
    (tree.position? id).isSome

theorem mem_slots : id ∈ ((List.range tree.slots.size).map NodeId.mk).toFinset ↔
    id.index < tree.slots.size := by
  rw [List.mem_toFinset, List.mem_map]
  constructor
  · rintro ⟨n, hn, rfl⟩
    exact List.mem_range.mp hn
  · intro hlt
    exact ⟨id.index, List.mem_range.mpr hlt, rfl⟩

theorem card_slots (tree : GameTree) :
    ((List.range tree.slots.size).map NodeId.mk).toFinset.card = tree.slots.size := by
  have hnodup : ((List.range tree.slots.size).map NodeId.mk).Nodup :=
    List.nodup_range.map fun _ _ heq => congrArg NodeId.index heq
  rw [List.toFinset_card_of_nodup hnodup, List.length_map, List.length_range]

theorem mem_live : id ∈ tree.live ↔ tree.position? id ≠ none := by
  unfold live
  rw [Finset.mem_filter, mem_slots, ← Option.isSome_iff_ne_none, and_iff_right_iff_imp]
  intro hlive
  by_contra hout
  rw [position?, node?_eq_none_of_le (Nat.le_of_not_lt hout)] at hlive
  cases hlive

theorem Arena.size_eq_card_live (h : Arena tree) : tree.size = tree.live.card := by
  have hempty : ((List.range tree.slots.size).map NodeId.mk).toFinset.filter
      (fun id => ¬ (tree.position? id).isSome) = tree.free.toFinset := by
    ext id
    rw [Finset.mem_filter, mem_slots, List.mem_toFinset, h.mem_free, node?_eq_none_iff,
      Option.not_isSome_iff_eq_none]
  have hparts := Finset.card_filter_add_card_filter_not
    (s := ((List.range tree.slots.size).map NodeId.mk).toFinset)
    fun id => (tree.position? id).isSome
  rw [hempty, List.toFinset_card_of_nodup h.free_nodup, card_slots] at hparts
  unfold size live
  omega

/-- A live node is listed once under the depth of its position, and nothing else is listed. -/
theorem Arena.count_ply (h : Arena tree) (id : NodeId) (d : Nat) :
    (tree.ply d).count id =
      if (tree.position? id).map (·.depth) = some d then 1 else 0 := by
  have hmem : id ∈ tree.ply d ↔ (tree.position? id).map (·.depth) = some d := by
    rw [h.mem_ply, Option.map_eq_some_iff]
  rw [(h.ply_nodup d).count]
  simp only [hmem]

/-! ## What retaining a part of the tree keeps -/

theorem Arena.position?_evictDepth_eq_filter (h : Arena tree) (d : Nat) (id : NodeId) :
    (tree.evictDepth d).position? id =
      (tree.position? id).filter fun p => id = tree.start ∨ p.depth ≠ d := by
  rw [h.position?_evictDepth]
  cases hp : tree.position? id with
  | none => exact ite_self none
  | some p =>
      have hply : id ∈ tree.ply d ↔ p.depth = d := by
        simp [h.mem_ply, hp]
      by_cases hid : id = tree.start
      · simp [Option.filter, hid]
      · simp [Option.filter, hid, hply]

theorem Arena.position?_foldl_evictDepth (h : Arena tree) (depths : List Nat) (id : NodeId) :
    (depths.foldl GameTree.evictDepth tree).position? id =
      (tree.position? id).filter fun p => id = tree.start ∨ p.depth ∉ depths := by
  induction depths generalizing tree with
  | nil =>
      rw [List.foldl_nil]
      cases tree.position? id <;> simp [Option.filter]
  | cons e rest ih =>
      rw [List.foldl_cons, ih (h.evictDepth e), evictDepth_start tree h,
        h.position?_evictDepth_eq_filter, Option.filter_filter]
      congr 1
      funext p
      by_cases hid : id = tree.start
      · simp [hid]
      · simp [hid]

theorem Arena.depth_mem_keys (h : Arena tree) {p : Position} (hp : tree.position? id = some p) :
    p.depth ∈ tree.plies.keys := by
  have hlisted : id ∈ tree.ply p.depth := (h.mem_ply id p.depth).mpr ⟨p, hp, rfl⟩
  rw [Std.TreeMap.mem_keys]
  by_contra hkey
  rw [ply, Std.TreeMap.getD_eq_fallback hkey] at hlisted
  exact List.not_mem_nil hlisted

/-- Exactly the nodes from a depth on are retained, and the start. -/
theorem Arena.position?_retainFrom (h : Arena tree) (d : Nat) (id : NodeId) :
    (tree.retainFrom d).position? id =
      (tree.position? id).filter fun p => id = tree.start ∨ d ≤ p.depth := by
  unfold GameTree.retainFrom
  rw [h.position?_foldl_evictDepth]
  cases hp : tree.position? id with
  | none => rfl
  | some p =>
      have hkey := h.depth_mem_keys hp
      simp [Option.filter, List.mem_filter, Std.TreeMap.mem_keys.mp hkey]

theorem Arena.foldl_evictDepth (h : Arena tree) (depths : List Nat) :
    Arena (depths.foldl GameTree.evictDepth tree) ∧
      (depths.foldl GameTree.evictDepth tree).start = tree.start := by
  induction depths generalizing tree with
  | nil => exact ⟨h, rfl⟩
  | cons e rest ih =>
      obtain ⟨harena, hstart⟩ := ih (h.evictDepth e)
      exact ⟨harena, hstart.trans (evictDepth_start tree h e)⟩

/-! ## All operations -/

theorem inquisitive_unfolds : Inquisitive Unfolds where
  legalMoves := unfolds_legalMoves
  outcome := unfolds_outcome

/-- The parts of a tree fit together, and its start has kept its slot and its position. -/
structure Kept (first : NodeId) (start : Position) (tree : GameTree) : Prop where
  arena : Arena tree
  start_eq : tree.start = first
  rooted : tree.Rooted start

theorem Kept.apply {first : NodeId} (h : Kept first start tree) (op : Op) :
    Kept first start (op.apply tree) := by
  have of_grows {after : GameTree} (harena : Arena after) (hgrows : Grows tree after) :
      Kept first start after :=
    ⟨harena, hgrows.start.trans h.start_eq, hgrows.rooted h.rooted⟩
  have of_keeps {α : Type} {x : TreeM α} (hx : Keeps Unfolds x) : Kept first start (exec x tree) :=
    of_grows (hx tree h.arena).1 (hx tree h.arena).2.1.toGrows
  cases op with
  | insert p => exact of_grows (h.arena.insert p) (h.arena.grows_insert p)
  | legalMoves id => exact of_keeps (unfolds_legalMoves id)
  | outcome id => exact of_keeps (unfolds_outcome id)
  | wins child parent => exact of_keeps (inquisitive_unfolds.wins child parent)
  | loses child parent => exact of_keeps (inquisitive_unfolds.loses child parent)
  | findMove id origin target => exact of_keeps (inquisitive_unfolds.findMove id origin target)
  | findNamed id name => exact of_keeps (inquisitive_unfolds.findNamed id name)
  | evictDepth d =>
      exact ⟨h.arena.evictDepth d, (evictDepth_start tree h.arena d).trans h.start_eq,
        h.rooted.evictDepth h.arena d⟩
  | retainFrom d =>
      obtain ⟨harena, hstart⟩ := h.arena.foldl_evictDepth (tree.plies.keys.filter (· < d))
      refine ⟨harena, hstart.trans h.start_eq, ?_⟩
      have hroot : tree.position? tree.start = some start := h.rooted
      show (tree.retainFrom d).position? (tree.retainFrom d).start = some start
      rw [h.arena.position?_retainFrom, GameTree.retainFrom, hstart, hroot]
      simp

theorem kept_run (game : Game) (start : Position) (ops : List Op) :
    Kept (ofPosition game start).start start (History.run game start ops).tree := by
  have hfirst : Kept (ofPosition game start).start start (History.ofPosition game start).tree :=
    ⟨arena_ofPosition game start, rfl, rooted_ofPosition game start⟩
  unfold History.run
  generalize History.ofPosition game start = past at hfirst
  induction ops generalizing past with
  | nil => exact hfirst
  | cons op rest ih => exact ih (past.advance op) (hfirst.apply op)

/-- What the slots, the free list and the lists of the plies say of one another, in a tree whose
first position was `start` in the slot `first`. -/
structure Booked (first : NodeId) (start : Position) (tree : GameTree) : Prop where
  free_nodup : tree.free.Nodup
  /-- The free slots are the empty ones. -/
  mem_free : ∀ id, id ∈ tree.free ↔ id.index < tree.slots.size ∧ tree.position? id = none
  /-- A live node is listed once under its depth, and nothing else is listed. -/
  listed : ∀ id d, (tree.ply d).count id =
    if (tree.position? id).map (·.depth) = some d then 1 else 0
  start_eq : tree.start = first
  start_live : tree.position? first = some start
  /-- The number of nodes is the number of slots that hold a position. -/
  size : (∀ id, id ∈ tree.live ↔ tree.position? id ≠ none) ∧ tree.size = tree.live.card
  /-- The nodes retained are those from a depth on, and the start. -/
  retained : ∀ d id, (tree.retainFrom d).position? id =
    (tree.position? id).filter fun p => id = first ∨ d ≤ p.depth

/-- The books of a tree agree after any sequence of operations. -/
theorem booked_run (game : Game) (start : Position) (ops : List Op) :
    Booked (ofPosition game start).start start (History.run game start ops).tree := by
  have hkept := kept_run game start ops
  have harena := hkept.arena
  refine ⟨harena.free_nodup, ?_, harena.count_ply, hkept.start_eq, ?_, ?_, ?_⟩
  · intro id
    rw [harena.mem_free, node?_eq_none_iff]
  · rw [← hkept.start_eq]
    exact hkept.rooted
  · exact ⟨fun _ => mem_live, harena.size_eq_card_live⟩
  · rw [← hkept.start_eq]
    exact harena.position?_retainFrom

end BoardGame.GameTree
