import BoardGame.Proofs.Computation
import BoardGame.Proofs.Succession
import BoardGame.Proofs.GameTree.Eviction
/-!
# What a tree remembers is right

A tree is coherent if the remembered successors of a node hold the successors of
its position, in order, and the remembered outcome is the outcome of its position.
Computations only add to a tree and keep it coherent; so does eviction, because the
slots that it empties are remembered by the ply before alone.
-/

namespace BoardGame.GameTree

variable {game : Game} {tree : GameTree} {id : NodeId} {α β : Type}

/-! ## Computations -/

/-- The result of a computation on a tree. -/
def value (x : TreeM α) (tree : GameTree) : Except EngineError α :=
  (x.run.run tree).1

/-- The tree that a computation leaves. -/
def exec (x : TreeM α) (tree : GameTree) : GameTree :=
  (x.run.run tree).2

theorem value_bind_of_ok {x : TreeM α} {f : α → TreeM β} {a : α} (h : value x tree = .ok a) :
    value (x >>= f) tree = value (f a) (exec x tree) :=
  Stateful.value_bind_of_ok h

theorem exec_bind_of_ok {x : TreeM α} {f : α → TreeM β} {a : α} (h : value x tree = .ok a) :
    exec (x >>= f) tree = exec (f a) (exec x tree) :=
  Stateful.exec_bind_of_ok h

theorem value_bind_of_error {x : TreeM α} {f : α → TreeM β} {e : EngineError}
    (h : value x tree = .error e) : value (x >>= f) tree = .error e :=
  Stateful.value_bind_of_error h

theorem exec_bind_of_error {x : TreeM α} {f : α → TreeM β} {e : EngineError}
    (h : value x tree = .error e) : exec (x >>= f) tree = exec x tree :=
  Stateful.exec_bind_of_error h

theorem value_lift (r : Except EngineError α) (tree : GameTree) :
    value (liftM r : TreeM α) tree = r := by
  cases r <;> rfl

theorem exec_lift (r : Except EngineError α) (tree : GameTree) :
    exec (liftM r : TreeM α) tree = tree := by
  cases r <;> rfl

theorem exec_get (tree : GameTree) : exec (get : TreeM GameTree) tree = tree := rfl

theorem value_node {node : Node} (h : tree.node? id = some node) :
    value (GameTree.node id) tree = .ok node := by
  have hget : value (get : TreeM GameTree) tree = .ok tree := rfl
  unfold GameTree.node
  rw [value_bind_of_ok hget, exec_get]
  rw [h]
  rfl

theorem value_node_of_none (h : tree.node? id = none) :
    value (GameTree.node id) tree = .error (.invariant (.evictedNode id.index)) := by
  have hget : value (get : TreeM GameTree) tree = .ok tree := rfl
  unfold GameTree.node
  rw [value_bind_of_ok hget, exec_get]
  rw [h]
  rfl

theorem exec_node (tree : GameTree) (id : NodeId) : exec (GameTree.node id) tree = tree := by
  have hget : value (get : TreeM GameTree) tree = .ok tree := rfl
  unfold GameTree.node
  rw [exec_bind_of_ok hget, exec_get]
  cases tree.node? id <;> rfl

theorem value_position {p : Position} (h : tree.position? id = some p) :
    value (position id) tree = .ok p := by
  obtain ⟨node, hnode, hp⟩ := position?_eq_some.mp h
  unfold position
  rw [value_bind_of_ok (value_node hnode), hp]
  rfl

/-! ## Coherent trees -/

/-- The start of a tree holds a position. -/
def Rooted (tree : GameTree) (start : Position) : Prop :=
  tree.position? tree.start = some start

structure Coherent (game : Game) (tree : GameTree) : Prop where
  arena : Arena tree
  game_eq : tree.game = game
  depth_le : ∀ id p, tree.position? id = some p → p.depth ≤ maxDepth
  /-- Remembered successors hold the successors, in order. -/
  successors : ∀ id node ids, tree.node? id = some node → node.successors = some ids →
    ∃ next, game.successors node.position = .ok next ∧ ids.map tree.position? = next.map some
  /-- A remembered outcome is the outcome. -/
  outcome : ∀ id node o, tree.node? id = some node → node.outcome = some o →
    game.outcome node.position = .ok o

/-- `after` has the nodes of `before`, at the same places. -/
structure Grows (before after : GameTree) : Prop where
  start : after.start = before.start
  position? : ∀ id p, before.position? id = some p → after.position? id = some p

theorem Grows.refl (tree : GameTree) : Grows tree tree :=
  ⟨rfl, fun _ _ h => h⟩

theorem Grows.rooted {before after : GameTree} (h : Grows before after) {start : Position}
    (hroot : before.Rooted start) : after.Rooted start := by
  unfold Rooted
  rw [h.start]
  exact h.position? _ _ hroot

theorem Grows.trans {a b c : GameTree} (h : Grows a b) (h' : Grows b c) : Grows a c :=
  ⟨h'.start.trans h.start, fun id p hp => h'.position? id p (h.position? id p hp)⟩

theorem Arena.grows_insert (h : Arena tree) (p : Position) : Grows tree (tree.insert p).2 := by
  refine ⟨insert_start tree p, fun id q hq => ?_⟩
  rw [h.position?_insert, if_neg]
  · exact hq
  · intro heq
    rw [heq, node?_eq_none_iff.mp (h.node?_insert_fst p)] at hq
    cases hq

theorem exists_position_of_mem {ids : List NodeId} {next : List Position}
    (h : ids.map tree.position? = next.map some) {c : NodeId} (hc : c ∈ ids) :
    ∃ q ∈ next, tree.position? c = some q := by
  have hmem : tree.position? c ∈ next.map some := h ▸ List.mem_map_of_mem hc
  obtain ⟨q, hq, heq⟩ := List.mem_map.mp hmem
  exact ⟨q, hq, heq.symm⟩

theorem Grows.map_position? {before after : GameTree} (h : Grows before after)
    {ids : List NodeId} {next : List Position} (hids : ids.map before.position? = next.map some) :
    ids.map after.position? = next.map some := by
  rw [← hids]
  apply List.map_congr_left
  intro c hc
  obtain ⟨p, -, hp⟩ := exists_position_of_mem hids hc
  rw [h.position? c p hp, hp]

theorem rooted_ofPosition (game : Game) (p : Position) : (ofPosition game p).Rooted p :=
  position?_eq_some.mpr ⟨{ position := p }, (node?_ofPosition game p ⟨0⟩).trans (if_pos rfl), rfl⟩

theorem coherent_ofPosition (game : Game) {p : Position} (hp : p.depth ≤ maxDepth) :
    Coherent game (ofPosition game p) := by
  have hnode : ∀ id node, (ofPosition game p).node? id = some node → node = { position := p } := by
    intro id node h
    rw [node?_ofPosition] at h
    by_cases heq : id = ⟨0⟩
    · rw [if_pos heq] at h
      exact (Option.some.inj h).symm
    · rw [if_neg heq] at h
      cases h
  have hposition : ∀ id q, (ofPosition game p).position? id = some q → q = p := by
    intro id q h
    obtain ⟨node, hlive, rfl⟩ := position?_eq_some.mp h
    rw [hnode id node hlive]
  refine ⟨arena_ofPosition game p, rfl, ?_, ?_, ?_⟩
  · intro id q h
    rw [hposition id q h]
    exact hp
  · intro id node ids h hids
    rw [hnode id node h] at hids
    cases hids
  · intro id node o h ho
    rw [hnode id node h] at ho
    cases ho

namespace Coherent

theorem insert (h : Coherent game tree) {p : Position} (hp : p.depth ≤ maxDepth) :
    Coherent game (tree.insert p).2 ∧ Grows tree (tree.insert p).2 := by
  have hgrows : Grows tree (tree.insert p).2 := h.arena.grows_insert p
  refine ⟨⟨h.arena.insert p, ?_, ?_, ?_, ?_⟩, hgrows⟩
  · rw [insert_game]
    exact h.game_eq
  · intro id q hq
    rw [h.arena.position?_insert] at hq
    by_cases heq : id = (tree.insert p).1
    · rw [if_pos heq] at hq
      cases hq
      exact hp
    · rw [if_neg heq] at hq
      exact h.depth_le id q hq
  · intro id node ids hnode hids
    rw [h.arena.node?_insert] at hnode
    by_cases heq : id = (tree.insert p).1
    · rw [if_pos heq] at hnode
      cases hnode
      cases hids
    · rw [if_neg heq] at hnode
      obtain ⟨next, hnext, hmap⟩ := h.successors id node ids hnode hids
      exact ⟨next, hnext, hgrows.map_position? hmap⟩
  · intro id node o hnode ho
    rw [h.arena.node?_insert] at hnode
    by_cases heq : id = (tree.insert p).1
    · rw [if_pos heq] at hnode
      cases hnode
      cases ho
    · rw [if_neg heq] at hnode
      exact h.outcome id node o hnode ho

theorem modify (h : Coherent game tree) (id : NodeId) (change : Node → Node)
    (hposition : ∀ node, (change node).position = node.position)
    (hsuccessors : ∀ node ids, tree.node? id = some node → (change node).successors = some ids →
      ∃ next, game.successors node.position = .ok next ∧ ids.map tree.position? = next.map some)
    (houtcome : ∀ node o, tree.node? id = some node → (change node).outcome = some o →
      game.outcome node.position = .ok o) :
    Coherent game (tree.modify id change) ∧ Grows tree (tree.modify id change) := by
  have heq : (tree.modify id change).position? = tree.position? :=
    funext fun a => position?_modify tree id a hposition
  refine ⟨⟨h.arena.modify id hposition, h.game_eq, ?_, ?_, ?_⟩, rfl, ?_⟩
  · rw [heq]
    exact h.depth_le
  · intro a node ids hnode hids
    rw [heq]
    rw [node?_modify] at hnode
    by_cases ha : a = id
    · subst ha
      rw [if_pos rfl] at hnode
      obtain ⟨old, hold, rfl⟩ := Option.map_eq_some_iff.mp hnode
      rw [hposition]
      exact hsuccessors old ids hold hids
    · rw [if_neg ha] at hnode
      exact h.successors a node ids hnode hids
  · intro a node o hnode ho
    rw [node?_modify] at hnode
    by_cases ha : a = id
    · subst ha
      rw [if_pos rfl] at hnode
      obtain ⟨old, hold, rfl⟩ := Option.map_eq_some_iff.mp hnode
      rw [hposition]
      exact houtcome old o hold ho
    · rw [if_neg ha] at hnode
      exact h.outcome a node o hnode ho
  · intro a p hp
    rw [heq]
    exact hp

/-! ## Eviction -/

/-- Successors that are still remembered are not at the depth that is dropped, but at the last
depth successors are no deeper: a start at that depth would lose those that it remembers. -/
theorem not_mem_ply_of_successor (h : Coherent game tree) {start : Position}
    (hroot : tree.Rooted start) {d : Nat} (hlast : start.depth < maxDepth ∨ d < maxDepth)
    {id c : NodeId} {node : Node} {ids : List NodeId} (hnode : tree.node? id = some node)
    (hkept : ¬ (node.position.depth = d ∧ id ≠ tree.start)) (hd : node.position.depth + 1 ≠ d)
    (hids : node.successors = some ids) (hc : c ∈ ids) : c ∉ tree.ply d := by
  intro hply
  obtain ⟨next, hnext, hmap⟩ := h.successors id node ids hnode hids
  obtain ⟨q, hq, hqd⟩ := (h.arena.mem_ply c d).mp hply
  obtain ⟨q', hq', heq⟩ := exists_position_of_mem hmap hc
  obtain rfl : q = q' := Option.some.inj (hq.symm.trans heq)
  have hdepth := (Game.follows_of_mem_successors hnext hq').depth_eq
  have hp : tree.position? id = some node.position := position?_eq_some.mpr ⟨node, hnode, rfl⟩
  have hle := h.depth_le id node.position hp
  have hsame : node.position.depth = d ∧ d = maxDepth := by omega
  have hid : id = tree.start := Decidable.not_not.mp fun hne => hkept ⟨hsame.1, hne⟩
  rw [hid, hroot] at hp
  rw [Option.some.inj hp] at hlast
  omega

theorem evictDepth (h : Coherent game tree) {start : Position} (hroot : tree.Rooted start)
    {d : Nat} (hlast : start.depth < maxDepth ∨ d < maxDepth) :
    Coherent game (tree.evictDepth d) := by
  cases hply : tree.plies[d]? with
  | none =>
      rw [evictDepth_of_none hply]
      exact h
  | some listed =>
      have hold : ∀ id after, (tree.evictDepth d).node? id = some after →
          ∃ node, tree.node? id = some node ∧ tree.remainder d id node = some after := by
        intro id after hafter
        rw [h.arena.node?_evictDepth hply] at hafter
        exact Option.bind_eq_some_iff.mp hafter
      refine ⟨h.arena.evictDepth d, ?_, ?_, ?_, ?_⟩
      · rw [evictDepth_game tree h.arena]
        exact h.game_eq
      · intro id p hp
        rw [h.arena.position?_evictDepth] at hp
        exact h.depth_le id p (Option.ite_none_left_eq_some.mp hp).2
      · intro id after ids hafter hids
        obtain ⟨node, hnode, hrest⟩ := hold id after hafter
        obtain ⟨hkept, hposition, -, hsuccessors⟩ := remainder_eq_some hrest
        obtain ⟨hd, hids⟩ := hsuccessors ids hids
        obtain ⟨next, hnext, hmap⟩ := h.successors id node ids hnode hids
        rw [hposition]
        refine ⟨next, hnext, ?_⟩
        rw [← hmap]
        apply List.map_congr_left
        intro c hc
        rw [h.arena.position?_evictDepth, if_neg]
        -- successors that a node still remembers are not among those that were dropped
        exact fun hgone => h.not_mem_ply_of_successor hroot hlast hnode hkept hd hids hc hgone.1
      · intro id after o hafter ho
        obtain ⟨node, hnode, hrest⟩ := hold id after hafter
        obtain ⟨-, hposition, houtcome, -⟩ := remainder_eq_some hrest
        rw [hposition]
        exact h.outcome id node o hnode (houtcome ▸ ho)

end Coherent

theorem Rooted.evictDepth {start : Position} (hroot : tree.Rooted start) (h : Arena tree)
    (d : Nat) : (tree.evictDepth d).Rooted start := by
  unfold Rooted
  rw [evictDepth_start tree h, h.position?_evictDepth, if_neg fun hid => hid.2 rfl]
  exact hroot

/-- What dropping the plies above a depth keeps: the start and every node from that depth
on; and nothing is moved. -/
theorem Coherent.retainFrom (h : Coherent game tree) {start : Position}
    (hroot : tree.Rooted start) {d : Nat} (hlast : start.depth < maxDepth ∨ d ≤ maxDepth) :
    Coherent game (tree.retainFrom d) ∧ (tree.retainFrom d).Rooted start ∧
      (∀ id p, (tree.retainFrom d).position? id = some p → tree.position? id = some p) ∧
      (∀ id p, tree.position? id = some p → d ≤ p.depth →
        (tree.retainFrom d).position? id = some p) := by
  unfold GameTree.retainFrom
  have hshallow : ∀ e ∈ tree.plies.keys.filter (· < d), e < d := by simp
  generalize tree.plies.keys.filter (· < d) = depths at hshallow
  induction depths generalizing tree with
  | nil => exact ⟨h, hroot, fun _ _ hp => hp, fun _ _ hp _ => hp⟩
  | cons e rest ih =>
      obtain ⟨he, hrest⟩ := List.forall_mem_cons.mp hshallow
      obtain ⟨hcoherent, hroot', hback, hkept⟩ :=
        ih (h.evictDepth hroot (by omega)) (hroot.evictDepth h.arena e) hrest
      refine ⟨hcoherent, hroot', ?_, ?_⟩
      · intro id p hp
        have hbefore := hback id p hp
        rw [h.arena.position?_evictDepth] at hbefore
        exact (Option.ite_none_left_eq_some.mp hbefore).2
      · intro id p hp hd
        apply hkept id p _ hd
        rw [h.arena.position?_evictDepth, if_neg]
        · exact hp
        · rintro ⟨hply, -⟩
          obtain ⟨q, hq, hqe⟩ := (h.arena.mem_ply id e).mp hply
          rw [hp] at hq
          rw [← Option.some.inj hq] at hqe
          omega

/-! ## Computations on coherent trees -/

/-- Where `before` is coherent, `after` is so too and has more nodes, if anything. -/
def Extends (game : Game) (before after : GameTree) : Prop :=
  Coherent game before → Coherent game after ∧ Grows before after

instance : IsPreorder GameTree (Extends game) where
  refl tree h := ⟨h, Grows.refl tree⟩
  trans a b c hab hbc h := by
    obtain ⟨hb, hgrows⟩ := hab h
    obtain ⟨hc, hgrows'⟩ := hbc hb
    exact ⟨hc, hgrows.trans hgrows'⟩

/-- `x` adds to coherent trees and keeps them coherent. -/
def Safe (game : Game) (x : TreeM α) : Prop :=
  ∀ tree, Coherent game tree → Coherent game (exec x tree) ∧ Grows tree (exec x tree)

/-- On a coherent tree in which `id` holds `p`, `x` adds to the tree, keeps it coherent
and comes to `r`. -/
def Yields (game : Game) (id : NodeId) (p : Position) (x : TreeM α)
    (r : Except EngineError α) : Prop :=
  ∀ tree, Coherent game tree → tree.position? id = some p →
    value x tree = r ∧ Coherent game (exec x tree) ∧ Grows tree (exec x tree)

namespace Yields

variable {p : Position}

theorem lift (r : Except EngineError α) : Yields game id p (liftM r) r := by
  intro tree htree _
  rw [value_lift, exec_lift]
  exact ⟨rfl, htree, Grows.refl tree⟩

theorem pure (a : α) : Yields game id p (Pure.pure a) (Pure.pure a) :=
  fun tree htree _ => ⟨rfl, htree, Grows.refl tree⟩

theorem bind {x : TreeM α} {r : Except EngineError α} {f : α → TreeM β}
    {g : α → Except EngineError β} (hx : Yields game id p x r)
    (hf : ∀ a, Yields game id p (f a) (g a)) : Yields game id p (x >>= f) (r >>= g) := by
  intro tree htree hp
  obtain ⟨hvalue, hcoherent, hgrows⟩ := hx tree htree hp
  cases r with
  | error e =>
      rw [value_bind_of_error hvalue, exec_bind_of_error hvalue]
      exact ⟨rfl, hcoherent, hgrows⟩
  | ok a =>
      rw [value_bind_of_ok hvalue, exec_bind_of_ok hvalue]
      obtain ⟨hvalue', hcoherent', hgrows'⟩ := hf a _ hcoherent (hgrows.position? id p hp)
      exact ⟨hvalue', hcoherent', hgrows.trans hgrows'⟩

end Yields

end BoardGame.GameTree
