import BoardGame.Proofs.GameTree.Development
import BoardGame.Proofs.GameTree.History
/-!
# What a game spares of its tree

A game asks its tree about nodes, adds positions and drops the plies that it has gone past. The
nodes from some depth on are spared all along: they keep their places and what they remember,
and the tree stays a forest.
-/

namespace BoardGame.GameTree

open Stateful (Keeps)

variable {α : Type} {game : Game} {tree after : GameTree} {id c : NodeId} {ids : List NodeId}
  {p : Position} {least d : Nat}

/-- A tree that remembers what is right and each slot once at most. -/
structure Orderly (game : Game) (tree : GameTree) : Prop extends
  Coherent game tree, Forest tree

/-- The nodes of `before` from the depth `least` on are in `after`, with what they remember.
What `after` remembers besides lies in slots where `before` had no such node. -/
structure Retains (least : Nat) (before after : GameTree) : Prop where
  position? : ∀ id p, before.position? id = some p → least ≤ p.depth →
    after.position? id = some p
  children? : ∀ id p ids, before.position? id = some p → least ≤ p.depth →
    before.children? id = some ids → after.children? id = some ids
  fresh : ∀ id ids, after.children? id = some ids →
    (before.children? id = some ids ∧ before.position? id = after.position? id) ∨
      ∀ c ∈ ids, ∀ q, before.position? c = some q → q.depth < least

/-- A tree stays orderly and retains its nodes from a depth on. -/
def Spares (game : Game) (least : Nat) (before after : GameTree) : Prop :=
  Orderly game before → Orderly game after ∧ Retains least before after

theorem Retains.refl (least : Nat) (tree : GameTree) : Retains least tree tree :=
  ⟨fun _ _ h _ => h, fun _ _ _ _ _ h => h, fun _ _ h => .inl ⟨h, rfl⟩⟩

theorem Retains.trans {a b c : GameTree} (h : Retains least a b) (h' : Retains least b c) :
    Retains least a c where
  position? id p hp hleast := h'.position? id p (h.position? id p hp hleast) hleast
  children? id p ids hp hleast hids :=
    h'.children? id p ids (h.position? id p hp hleast) hleast (h.children? id p ids hp hleast hids)
  fresh id ids hids := by
    rcases h'.fresh id ids hids with ⟨hb, hsame⟩ | hfresh
    · rw [← hsame]
      exact h.fresh id ids hb
    · refine .inr fun c hc q hq => ?_
      by_contra hdeep
      exact hdeep (hfresh c hc q (h.position? c q hq (Nat.le_of_not_lt hdeep)))

theorem Retains.mono {least' : Nat} (h : Retains least tree after) (hle : least ≤ least') :
    Retains least' tree after where
  position? id p hp hdeep := h.position? id p hp (Nat.le_trans hle hdeep)
  children? id p ids hp hdeep := h.children? id p ids hp (Nat.le_trans hle hdeep)
  fresh id ids hids := (h.fresh id ids hids).imp_right fun hfresh c hc q hq =>
    Nat.lt_of_lt_of_le (hfresh c hc q hq) hle

instance : IsPreorder GameTree (Spares game least) where
  refl tree h := ⟨h, Retains.refl least tree⟩
  trans a b c hab hbc h := by
    obtain ⟨hb, hretains⟩ := hab h
    obtain ⟨hc, hretains'⟩ := hbc hb
    exact ⟨hc, hretains.trans hretains'⟩

/-! ## Children -/

theorem Coherent.child (h : Coherent game tree) (hp : tree.position? id = some p)
    (hids : tree.children? id = some ids) (hc : c ∈ ids) :
    ∃ q, tree.position? c = some q ∧ q.depth = min (p.depth + 1) maxDepth := by
  obtain ⟨node, hnode, hsuccessors⟩ := children?_eq_some.mp hids
  obtain ⟨next, hnext, hmap⟩ := h.successors id node ids hnode hsuccessors
  obtain ⟨q, hq, hposition⟩ := exists_position_of_mem hmap hc
  rw [position_eq_of_node? hnode hp] at hnext
  exact ⟨q, hposition, (Game.follows_of_mem_successors hnext hq).depth_eq⟩

theorem Orderly.of_forgets (h : Orderly game tree) (hafter : Coherent game after)
    (hchildren : ∀ id ids, after.children? id = some ids → tree.children? id = some ids) :
    Orderly game after := by
  refine ⟨hafter, ⟨?_, ?_, ?_, ?_⟩⟩
  · intro id ids hids c hc
    obtain ⟨p, hp⟩ := Option.ne_none_iff_exists'.mp (position?_ne_none_of_children? hids)
    obtain ⟨q, hq, -⟩ := hafter.child hp hids hc
    rw [hq]
    exact Option.some_ne_none q
  · exact fun id ids hids => h.nodup id ids (hchildren id ids hids)
  · exact fun a b c as bs has hbs => h.apart a b c as bs (hchildren a as has) (hchildren b bs hbs)
  · obtain ⟨rank, hrank⟩ := h.ranked
    exact ⟨rank, fun id ids hids => hrank id ids (hchildren id ids hids)⟩

theorem orderly_ofPosition (game : Game) (hp : p.depth ≤ maxDepth) :
    Orderly game (ofPosition game p) := by
  have hnone : ∀ id ids, (ofPosition game p).children? id ≠ some ids := by
    intro id ids hids
    obtain ⟨node, hnode, hsuccessors⟩ := children?_eq_some.mp hids
    rw [node?_ofPosition] at hnode
    obtain rfl := Option.some.inj (Option.ite_none_right_eq_some.mp hnode).2
    cases hsuccessors
  refine ⟨coherent_ofPosition game hp, ⟨?_, ?_, ?_, fun _ => 0, ?_⟩⟩
  · exact fun id ids hids => absurd hids (hnone id ids)
  · exact fun id ids hids => absurd hids (hnone id ids)
  · exact fun a _ _ as _ has => absurd has (hnone a as)
  · exact fun id ids hids => absurd hids (hnone id ids)

/-! ## Questions -/

theorem Retains.of_develops (least : Nat) (h : Develops tree after) : Retains least tree after where
  position? id p hp _ := h.position? id p hp
  children? id _ ids _ _ hids := h.kept id ids hids
  fresh id ids hids := by
    rcases h.fresh id ids hids with hold | hfresh
    · obtain ⟨p, hp⟩ := Option.ne_none_iff_exists'.mp (position?_ne_none_of_children? hold)
      exact .inl ⟨hold, hp.trans (h.position? id p hp).symm⟩
    · refine .inr fun c hc q hq => ?_
      rw [hfresh c hc] at hq
      cases hq

theorem keeps_spares {x : TreeM α} (hsafe : Safe game x) (hunfolds : Keeps Unfolds x) :
    Keeps (Spares game least) x := by
  intro tree h
  obtain ⟨-, hdevelops, hforest⟩ := hunfolds tree h.arena
  exact ⟨⟨(hsafe tree h.toCoherent).1, hforest h.toForest⟩, .of_develops least hdevelops⟩

theorem inquisitive_spares (game : Game) (least : Nat) : Inquisitive (Spares game least) where
  legalMoves id := keeps_spares (safe_legalMoves id) (unfolds_legalMoves id)
  outcome id := keeps_spares (safe_outcome id) (unfolds_outcome id)

/-! ## Insertion and eviction -/

theorem spares_insert (tree : GameTree) (hp : p.depth ≤ maxDepth) :
    Spares game least tree (tree.insert p).2 := by
  intro h
  obtain ⟨hcoherent, hgrows⟩ := h.toCoherent.insert hp
  have hchildren := h.arena.children?_insert p
  refine ⟨h.of_forgets hcoherent fun id ids hids => hchildren id ▸ hids, ?_⟩
  refine .of_develops least ⟨hgrows, fun id ids hids => ?_, fun id ids hids => .inl ?_⟩
  · rw [hchildren]
    exact hids
  · rw [← hchildren]
    exact hids

theorem Arena.exists_rooted (h : Arena tree) : ∃ start, tree.Rooted start :=
  Option.ne_none_iff_exists'.mp (mt node?_eq_none_iff.mpr h.start_live)

theorem Arena.position?_evictDepth_of_ne (h : Arena tree) (hp : tree.position? id = some p)
    (hd : p.depth ≠ d) : (tree.evictDepth d).position? id = some p := by
  rw [h.position?_evictDepth, if_neg, hp]
  rintro ⟨hply, -⟩
  obtain ⟨q, hq, hqd⟩ := (h.mem_ply id d).mp hply
  rw [hp] at hq
  exact hd (Option.some.inj hq ▸ hqd)

/-- Successors are forgotten one ply before the one that is dropped, if at all. -/
theorem Arena.children?_evictDepth (h : Arena tree)
    (hids : (tree.evictDepth d).children? id = some ids) :
    tree.children? id = some ids ∧ tree.position? id = (tree.evictDepth d).position? id := by
  cases hply : tree.plies[d]? with
  | none =>
      rw [evictDepth_of_none hply] at hids ⊢
      exact ⟨hids, rfl⟩
  | some listed =>
      obtain ⟨left, hleft, hsuccessors⟩ := children?_eq_some.mp hids
      have hbefore := hleft
      rw [h.node?_evictDepth hply] at hbefore
      obtain ⟨node, hnode, hrest⟩ := Option.bind_eq_some_iff.mp hbefore
      obtain ⟨-, hposition, -, hkept⟩ := remainder_eq_some hrest
      refine ⟨children?_eq_some.mpr ⟨node, hnode, (hkept ids hsuccessors).2⟩, ?_⟩
      rw [position?_eq_some.mpr ⟨left, hleft, rfl⟩, position?_eq_some.mpr ⟨node, hnode, rfl⟩,
        hposition]

theorem Arena.children?_evictDepth_of_lt (h : Arena tree) (hp : tree.position? id = some p)
    (hd : d < p.depth) (hids : tree.children? id = some ids) :
    (tree.evictDepth d).children? id = some ids := by
  cases hply : tree.plies[d]? with
  | none =>
      rw [evictDepth_of_none hply]
      exact hids
  | some listed =>
      obtain ⟨node, hnode, hsuccessors⟩ := children?_eq_some.mp hids
      have hdepth : d < node.position.depth := position_eq_of_node? hnode hp ▸ hd
      refine children?_eq_some.mpr ⟨node, ?_, hsuccessors⟩
      rw [h.node?_evictDepth hply, hnode, Option.bind_some]
      unfold remainder
      rw [if_neg fun hgone => Nat.ne_of_gt hdepth hgone.1, if_neg (by omega)]

theorem spares_evictDepth (tree : GameTree) (hd : d < least) (hleast : least ≤ maxDepth) :
    Spares game least tree (tree.evictDepth d) := by
  intro h
  obtain ⟨start, hroot⟩ := h.arena.exists_rooted
  have hcoherent := h.toCoherent.evictDepth hroot (.inr (Nat.lt_of_lt_of_le hd hleast))
  refine ⟨h.of_forgets hcoherent fun id ids hids => (h.arena.children?_evictDepth hids).1, ?_⟩
  refine ⟨fun id p hp hdeep => ?_, fun id p ids hp hdeep hids => ?_, fun id ids hids => .inl ?_⟩
  · exact h.arena.position?_evictDepth_of_ne hp (by omega)
  · exact h.arena.children?_evictDepth_of_lt hp (by omega) hids
  · exact h.arena.children?_evictDepth hids

theorem spares_retainFrom (tree : GameTree) (hd : d ≤ least) (hleast : least ≤ maxDepth) :
    Spares game least tree (tree.retainFrom d) := by
  unfold GameTree.retainFrom
  have hshallow : ∀ e ∈ tree.plies.keys.filter (· < d), e < d := by simp
  generalize tree.plies.keys.filter (· < d) = depths at hshallow
  induction depths generalizing tree with
  | nil => exact refl_of (Spares game least) tree
  | cons e rest ih =>
      obtain ⟨he, hrest⟩ := List.forall_mem_cons.mp hshallow
      exact trans_of (Spares game least)
        (spares_evictDepth tree (Nat.lt_of_lt_of_le he hd) hleast) (ih (tree.evictDepth e) hrest)

/-- Nothing from the depth `least` on is dropped, and depths are as they are counted. -/
def Op.DropsBefore (least : Nat) : Op → Prop
  | .insert position => position.depth ≤ maxDepth
  | .evictDepth depth => depth < least
  | .retainFrom depth => depth ≤ least
  | _ => True

theorem Op.spares {op : Op} (hop : op.DropsBefore least) (hleast : least ≤ maxDepth)
    (tree : GameTree) : Spares game least tree (op.apply tree) := by
  have hasks := inquisitive_spares game least
  cases op with
  | insert p => exact spares_insert tree hop
  | legalMoves id => exact hasks.legalMoves id tree
  | outcome id => exact hasks.outcome id tree
  | wins child parent => exact hasks.wins child parent tree
  | loses child parent => exact hasks.loses child parent tree
  | findMove id origin target => exact hasks.findMove id origin target tree
  | findNamed id name => exact hasks.findNamed id name tree
  | evictDepth d => exact spares_evictDepth tree hop hleast
  | retainFrom d => exact spares_retainFrom tree hop hleast

/-! ## Any operation -/

theorem Orderly.evictDepth (h : Orderly game tree) {start : Position}
    (hroot : tree.Rooted start) (hstart : start.depth < maxDepth) (d : Nat) :
    Orderly game (tree.evictDepth d) :=
  h.of_forgets (h.toCoherent.evictDepth hroot (.inl hstart)) fun _ _ hids =>
    (h.arena.children?_evictDepth hids).1

theorem Orderly.retainFrom (h : Orderly game tree) {start : Position}
    (hroot : tree.Rooted start) (hstart : start.depth < maxDepth) (d : Nat) :
    Orderly game (tree.retainFrom d) := by
  unfold GameTree.retainFrom
  generalize tree.plies.keys.filter (· < d) = depths
  induction depths generalizing tree with
  | nil => exact h
  | cons e rest ih => exact ih (h.evictDepth hroot hstart e) (hroot.evictDepth h.arena e)

/-- Below a start that is not at the last depth, a tree stays orderly whatever is done to it. -/
theorem Op.orderly (h : Orderly game tree) {start : Position} (hroot : tree.Rooted start)
    (hstart : start.depth < maxDepth) {op : Op} (hop : op.Counted) :
    Orderly game (op.apply tree) := by
  have hasks := inquisitive_spares game 0
  cases op with
  | insert p =>
      have hspares : Spares game 0 tree (tree.insert p).2 := spares_insert tree hop
      exact (hspares h).1
  | legalMoves id => exact (hasks.legalMoves id tree h).1
  | outcome id => exact (hasks.outcome id tree h).1
  | wins child parent => exact (hasks.wins child parent tree h).1
  | loses child parent => exact (hasks.loses child parent tree h).1
  | findMove id origin target => exact (hasks.findMove id origin target tree h).1
  | findNamed id name => exact (hasks.findNamed id name tree h).1
  | evictDepth d => exact h.evictDepth hroot hstart d
  | retainFrom d => exact h.retainFrom hroot hstart d

end BoardGame.GameTree
