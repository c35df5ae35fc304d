import BoardGame.Proofs.GameTree.Memo
/-!
# How a tree unfolds

Computations on a tree only remember more: a list of successors that is remembered stays so,
and the slots of a new one have been empty before. So each node but the first is remembered
by one other at most, and the tree is a forest.
-/

namespace BoardGame.GameTree

open Stateful (Keeps)

variable {game : Game} {tree : GameTree} {id a c : NodeId} {ids : List NodeId} {p : Position}

/-- The slots that a node remembers for its successors. -/
def children? (tree : GameTree) (id : NodeId) : Option (List NodeId) :=
  (tree.node? id).bind (·.successors)

theorem children?_eq_some : tree.children? id = some ids ↔
    ∃ node, tree.node? id = some node ∧ node.successors = some ids :=
  Option.bind_eq_some_iff

theorem position?_ne_none_of_children? (h : tree.children? id = some ids) :
    tree.position? id ≠ none := by
  obtain ⟨node, hnode, -⟩ := children?_eq_some.mp h
  rw [position?, hnode]
  exact Option.some_ne_none _

/-- `after` has the nodes of `before` and remembers their successors. What it remembers
besides lies in slots that `before` had not filled. -/
structure Develops (before after : GameTree) : Prop extends Grows before after where
  kept : ∀ id ids, before.children? id = some ids → after.children? id = some ids
  fresh : ∀ id ids, after.children? id = some ids →
    before.children? id = some ids ∨ ∀ c ∈ ids, before.position? c = none

/-- No slot is remembered twice, and no chain of remembered slots is closed. -/
structure Forest (tree : GameTree) : Prop where
  live : ∀ id ids, tree.children? id = some ids → ∀ c ∈ ids, tree.position? c ≠ none
  nodup : ∀ id ids, tree.children? id = some ids → ids.Nodup
  apart : ∀ a b c as bs, tree.children? a = some as → tree.children? b = some bs →
    c ∈ as → c ∈ bs → a = b
  ranked : ∃ rank : NodeId → Nat, ∀ id ids, tree.children? id = some ids → ∀ c ∈ ids,
    rank id < rank c

/-- Where the bookkeeping of `before` fits together, so does that of `after`, which has
developed from it and is a forest if `before` is one. -/
def Unfolds (before after : GameTree) : Prop :=
  Arena before → Arena after ∧ Develops before after ∧ (Forest before → Forest after)

namespace Develops

theorem refl (tree : GameTree) : Develops tree tree :=
  ⟨Grows.refl tree, fun _ _ h => h, fun _ _ h => .inl h⟩

theorem trans {a b c : GameTree} (h : Develops a b) (h' : Develops b c) : Develops a c where
  toGrows := h.toGrows.trans h'.toGrows
  kept id ids hids := h'.kept id ids (h.kept id ids hids)
  fresh id ids hids := by
    rcases h'.fresh id ids hids with hb | hfresh
    · exact h.fresh id ids hb
    · refine .inr fun c hc => ?_
      cases hposition : a.position? c with
      | none => rfl
      | some p =>
          have hlater := h.position? c p hposition
          rw [hfresh c hc] at hlater
          cases hlater

end Develops

instance : IsPreorder GameTree Unfolds where
  refl tree h := ⟨h, Develops.refl tree, fun hforest => hforest⟩
  trans a b c hab hbc h := by
    obtain ⟨hb, hdevelops, hforest⟩ := hab h
    obtain ⟨hc, hdevelops', hforest'⟩ := hbc hb
    exact ⟨hc, hdevelops.trans hdevelops', hforest' ∘ hforest⟩

/-! ## Changes of one node -/

theorem unfolds_modify (tree : GameTree) (id : NodeId) {change : Node → Node}
    (hposition : ∀ node, (change node).position = node.position)
    (hsuccessors : ∀ node, (change node).successors = node.successors) :
    Unfolds tree (tree.modify id change) := by
  intro harena
  have hsame : (tree.modify id change).position? = tree.position? :=
    funext fun a => position?_modify tree id a hposition
  have hchildren : (tree.modify id change).children? = tree.children? := by
    funext a
    unfold children?
    rw [node?_modify]
    split
    · cases tree.node? a with
      | none => rfl
      | some node => exact hsuccessors node
    · rfl
  refine ⟨harena.modify id hposition, ⟨⟨rfl, fun a p hp => hsame ▸ hp⟩, ?_, ?_⟩, ?_⟩
  · intro a as has
    rw [hchildren]
    exact has
  · intro a as has
    rw [hchildren] at has
    exact .inl has
  · rintro ⟨hlive, hnodup, hapart, hranked⟩
    refine ⟨?_, ?_, ?_, ?_⟩ <;> rw [hchildren]
    · rw [hsame]
      exact hlive
    · exact hnodup
    · exact hapart
    · exact hranked

theorem children?_remember (tree : GameTree) (id a : NodeId) (ids : List NodeId)
    (hid : tree.position? id ≠ none) :
    (tree.modify id fun node => { node with successors := some ids }).children? a =
      if a = id then some ids else tree.children? a := by
  unfold children?
  rw [node?_modify]
  by_cases ha : a = id
  · rw [if_pos ha, if_pos ha, ha]
    cases hnode : tree.node? id with
    | none => exact absurd (node?_eq_none_iff.mp hnode) hid
    | some node => rfl
  · rw [if_neg ha, if_neg ha]

/-! ## Insertion -/

theorem Arena.children?_insert (h : Arena tree) (p : Position) (id : NodeId) :
    (tree.insert p).2.children? id = tree.children? id := by
  unfold children?
  rw [h.node?_insert]
  by_cases hid : id = (tree.insert p).1
  · rw [if_pos hid, hid, h.node?_insert_fst]
    rfl
  · rw [if_neg hid]

/-- `after` is `before` with new nodes, which remember nothing, in slots that were empty. -/
structure Added (before : GameTree) (ids : List NodeId) (positions : List Position)
    (after : GameTree) : Prop where
  arena : Arena after
  game : after.game = before.game
  start : after.start = before.start
  nodup : ids.Nodup
  empty : ∀ c ∈ ids, before.node? c = none
  holds : ids.map after.node? = positions.map fun q => some { position := q }
  others : ∀ a, a ∉ ids → after.node? a = before.node? a

namespace Added

variable {after : GameTree} {positions : List Position}

theorem node?_eq (h : Added tree ids positions after) {node : Node}
    (hnode : tree.node? a = some node) : after.node? a = some node := by
  rw [h.others, hnode]
  intro hmem
  rw [h.empty a hmem] at hnode
  cases hnode

theorem grows (h : Added tree ids positions after) : Grows tree after := by
  refine ⟨h.start, fun a p hp => ?_⟩
  obtain ⟨node, hnode, hposition⟩ := position?_eq_some.mp hp
  exact position?_eq_some.mpr ⟨node, h.node?_eq hnode, hposition⟩

theorem map_position? (h : Added tree ids positions after) :
    ids.map after.position? = positions.map some := by
  have hholds := congrArg (List.map (Option.map Node.position)) h.holds
  rw [List.map_map, List.map_map] at hholds
  exact hholds

theorem live (h : Added tree ids positions after) (hc : c ∈ ids) : after.position? c ≠ none := by
  obtain ⟨q, -, hq⟩ := exists_position_of_mem h.map_position? hc
  rw [hq]
  exact Option.some_ne_none q

theorem position?_eq_none (h : Added tree ids positions after) (hc : c ∈ ids) :
    tree.position? c = none :=
  node?_eq_none_iff.mp (h.empty c hc)

theorem children?_eq (h : Added tree ids positions after) (a : NodeId) :
    after.children? a = tree.children? a := by
  unfold children?
  by_cases ha : a ∈ ids
  · have hmem : after.node? a ∈ positions.map fun q => some ({ position := q } : Node) :=
      h.holds ▸ List.mem_map_of_mem ha
    obtain ⟨q, -, hq⟩ := List.mem_map.mp hmem
    rw [← hq, h.empty a ha]
    rfl
  · rw [h.others a ha]

end Added

/-- New positions lie in slots of their own, which have been empty, and remember nothing. -/
theorem insertAll_added (h : Arena tree) (positions : List Position) :
    ∃ ids, value (insertAll positions) tree = .ok ids ∧
      Added tree ids positions (exec (insertAll positions) tree) := by
  induction positions generalizing tree with
  | nil => exact ⟨[], rfl, h, rfl, rfl, List.nodup_nil, by simp, rfl, fun _ _ => rfl⟩
  | cons q rest ih =>
      let add : TreeM NodeId := modifyGet fun tree => tree.insert q
      have hadd : value add tree = .ok (tree.insert q).1 := rfl
      have hafter : exec add tree = (tree.insert q).2 := rfl
      obtain ⟨ids, hvalue, hadded⟩ := ih (h.insert q)
      have hcons : insertAll (q :: rest) =
          add >>= fun id => insertAll rest >>= fun ids => pure (id :: ids) := List.mapM_cons
      have hexec : exec (insertAll (q :: rest)) tree = exec (insertAll rest) (tree.insert q).2 := by
        rw [hcons, exec_bind_of_ok hadd, hafter, exec_bind_of_ok hvalue]
        rfl
      have hnew : (tree.insert q).2.node? (tree.insert q).1 = some { position := q } := by
        rw [h.node?_insert, if_pos rfl]
      have hfirst : (tree.insert q).1 ∉ ids := by
        intro hmem
        rw [hadded.empty _ hmem] at hnew
        cases hnew
      have hold : ∀ a, a ≠ (tree.insert q).1 → (tree.insert q).2.node? a = tree.node? a :=
        fun a ha => by rw [h.node?_insert, if_neg ha]
      refine ⟨(tree.insert q).1 :: ids, ?_, ?_⟩
      · rw [hcons, value_bind_of_ok hadd, hafter, value_bind_of_ok hvalue]
        rfl
      rw [hexec]
      refine ⟨hadded.arena, hadded.game.trans (insert_game tree q),
        hadded.start.trans (insert_start tree q), List.nodup_cons.mpr ⟨hfirst, hadded.nodup⟩,
        List.forall_mem_cons.mpr ⟨h.node?_insert_fst q, fun c hc => ?_⟩, ?_, fun a ha => ?_⟩
      · have hne : c ≠ (tree.insert q).1 := fun heq => hfirst (heq ▸ hc)
        rw [← hold c hne, hadded.empty c hc]
      · rw [List.map_cons, List.map_cons, hadded.holds, hadded.node?_eq hnew]
      · obtain ⟨hne, hmem⟩ := not_or.mp (mt List.mem_cons.mpr ha)
        rw [hadded.others a hmem, hold a hne]

/-! ## Successors -/

theorem legalMoves_of_children? (h : tree.children? id = some ids) :
    value (legalMoves id) tree = .ok ids ∧ exec (legalMoves id) tree = tree := by
  obtain ⟨node, hnode, hids⟩ := children?_eq_some.mp h
  have hvalue := value_node hnode
  unfold legalMoves
  rw [value_bind_of_ok hvalue, exec_bind_of_ok hvalue, exec_node, hids]
  exact ⟨rfl, rfl⟩

/-- What asking for the successors of a node does to a tree that does not remember them: nothing
if the game fails, and else they are put into empty slots and remembered by the node. -/
theorem legalMoves_cases (h : Arena tree) {node : Node} (hnode : tree.node? id = some node)
    (hnone : node.successors = none) :
    (∃ e, tree.game.successors node.position = .error e ∧
      value (legalMoves id) tree = .error e ∧ exec (legalMoves id) tree = tree) ∨
      ∃ next ids after, tree.game.successors node.position = .ok next ∧
      value (legalMoves id) tree = .ok ids ∧ Added tree ids next after ∧
      exec (legalMoves id) tree =
        after.modify id (fun node => { node with successors := some ids }) := by
  have hvalue := value_node hnode
  have hget : value (get : TreeM GameTree) tree = .ok tree := rfl
  have hgot : exec (get : TreeM GameTree) tree = tree := rfl
  have hlift := value_lift (tree.game.successors node.position) tree
  unfold legalMoves
  rw [value_bind_of_ok hvalue, exec_bind_of_ok hvalue, exec_node, hnone]
  dsimp only
  rw [value_bind_of_ok hget, exec_bind_of_ok hget, hgot]
  cases hnext : tree.game.successors node.position with
  | error e =>
      rw [hnext] at hlift
      rw [value_bind_of_error hlift, exec_bind_of_error hlift]
      exact .inl ⟨e, rfl, rfl, exec_lift _ tree⟩
  | ok next =>
      rw [hnext] at hlift
      rw [value_bind_of_ok hlift, exec_bind_of_ok hlift, exec_lift]
      obtain ⟨ids, hids, hadded⟩ := insertAll_added h next
      rw [value_bind_of_ok hids, exec_bind_of_ok hids]
      exact .inr ⟨next, ids, _, rfl, rfl, hadded, rfl⟩

theorem Develops.of_remember {after : GameTree} (hgrows : Grows tree after)
    (hnone : tree.children? id = none)
    (hids : ∀ c ∈ ids, tree.position? c = none)
    (hchildren : ∀ a, after.children? a = if a = id then some ids else tree.children? a) :
    Develops tree after := by
  refine ⟨hgrows, fun a as has => ?_, fun a as has => ?_⟩
  · have ha : a ≠ id := by
      rintro rfl
      rw [hnone] at has
      cases has
    rw [hchildren, if_neg ha, has]
  · rw [hchildren] at has
    by_cases ha : a = id
    · rw [if_pos ha] at has
      exact .inr (Option.some.inj has ▸ hids)
    · rw [if_neg ha] at has
      exact .inl has

theorem Forest.of_remember {after : GameTree} (h : Forest tree) (hgrows : Grows tree after)
    (hid : tree.position? id ≠ none) (hnodup : ids.Nodup)
    (hids : ∀ c ∈ ids, tree.position? c = none ∧ after.position? c ≠ none)
    (hchildren : ∀ a, after.children? a = if a = id then some ids else tree.children? a) :
    Forest after := by
  -- a list that is remembered is the new one or an old one of another node
  have hcases : ∀ a as, after.children? a = some as →
      (a = id ∧ as = ids) ∨ (a ≠ id ∧ tree.children? a = some as) := by
    intro a as has
    rw [hchildren] at has
    by_cases ha : a = id
    · rw [if_pos ha] at has
      exact .inl ⟨ha, (Option.some.inj has).symm⟩
    · rw [if_neg ha] at has
      exact .inr ⟨ha, has⟩
  refine ⟨fun a as has c hc => ?_, fun a as has => ?_, fun a b c as bs has hbs hca hcb => ?_, ?_⟩
  · rcases hcases a as has with ⟨-, rfl⟩ | ⟨-, hold⟩
    · exact (hids c hc).2
    · obtain ⟨p, hp⟩ := Option.ne_none_iff_exists'.mp (h.live a as hold c hc)
      rw [hgrows.position? c p hp]
      exact Option.some_ne_none p
  · rcases hcases a as has with ⟨-, rfl⟩ | ⟨-, hold⟩
    · exact hnodup
    · exact h.nodup a as hold
  · rcases hcases a as has with ⟨ha, rfl⟩ | ⟨-, hold⟩ <;>
      rcases hcases b bs hbs with ⟨hb, rfl⟩ | ⟨-, hold'⟩
    · exact ha.trans hb.symm
    · exact absurd (hids c hca).1 (h.live b bs hold' c hcb)
    · exact absurd (hids c hcb).1 (h.live a as hold c hca)
    · exact h.apart a b c as bs hold hold' hca hcb
  · -- the new slots come after the node that remembers them and remember nothing
    obtain ⟨rank, hrank⟩ := h.ranked
    refine ⟨fun a => if a ∈ ids then rank id + 1 else rank a, fun a as has c hc => ?_⟩
    have hold : a ∉ ids := by
      intro hmem
      have hempty := (hids a hmem).1
      rcases hcases a as has with ⟨rfl, -⟩ | ⟨-, hold⟩
      · exact hid hempty
      · exact position?_ne_none_of_children? hold hempty
    dsimp only
    rw [if_neg hold]
    rcases hcases a as has with ⟨rfl, rfl⟩ | ⟨-, has⟩
    · rw [if_pos hc]
      exact Nat.lt_succ_self _
    · rw [if_neg fun hmem => h.live a as has c hc (hids c hmem).1]
      exact hrank a as has c hc

theorem unfolds_legalMoves (id : NodeId) : Keeps Unfolds (legalMoves id) := by
  intro tree harena
  change Arena (exec (legalMoves id) tree) ∧ Develops tree (exec (legalMoves id) tree) ∧
    (Forest tree → Forest (exec (legalMoves id) tree))
  -- a tree is left as it was unless the game gives successors that were not remembered
  have of_eq (heq : exec (legalMoves id) tree = tree) :
      Arena (exec (legalMoves id) tree) ∧ Develops tree (exec (legalMoves id) tree) ∧
        (Forest tree → Forest (exec (legalMoves id) tree)) := by
    rw [heq]
    exact refl_of Unfolds tree harena
  cases hnode : tree.node? id with
  | none =>
      apply of_eq
      unfold legalMoves
      rw [exec_bind_of_error (value_node_of_none hnode), exec_node]
  | some node =>
      cases hmemo : node.successors with
      | some ids =>
          exact of_eq (legalMoves_of_children? (children?_eq_some.mpr ⟨_, hnode, hmemo⟩)).2
      | none =>
          rcases legalMoves_cases harena hnode hmemo with ⟨-, -, -, heq⟩ |
            ⟨next, ids, after, -, -, hadded, heq⟩
          · exact of_eq heq
          have hgrows := hadded.grows
          have hlive : after.position? id ≠ none := by
            rw [hgrows.position? id node.position (position?_eq_some.mpr ⟨node, hnode, rfl⟩)]
            exact Option.some_ne_none _
          have hnone : tree.children? id = none := by
            rw [children?, hnode, Option.bind_some, hmemo]
          have hsame : ∀ a, (after.modify id fun node =>
              { node with successors := some ids }).position? a = after.position? a :=
            fun a => position?_modify after id a fun _ => rfl
          have hgrows' : Grows tree (after.modify id fun node =>
              { node with successors := some ids }) :=
            ⟨hgrows.start, fun a p hp => (hsame a).trans (hgrows.position? a p hp)⟩
          have hchildren' : ∀ a, (after.modify id fun node =>
              { node with successors := some ids }).children? a =
                if a = id then some ids else tree.children? a := fun a => by
            rw [children?_remember after id a ids hlive, hadded.children?_eq]
          rw [heq]
          refine ⟨hadded.arena.modify id fun _ => rfl, .of_remember hgrows' hnone
            (fun c hc => hadded.position?_eq_none hc) hchildren', fun hforest => ?_⟩
          exact hforest.of_remember hgrows'
            (Option.ne_none_iff_exists'.mpr ⟨_, position?_eq_some.mpr ⟨node, hnode, rfl⟩⟩)
            hadded.nodup (fun c hc => ⟨hadded.position?_eq_none hc, hsame c ▸ hadded.live hc⟩)
            hchildren'

theorem children?_legalMoves (h : Arena tree) (hvalue : value (legalMoves id) tree = .ok ids) :
    (exec (legalMoves id) tree).children? id = some ids := by
  cases hnode : tree.node? id with
  | none =>
      unfold legalMoves at hvalue
      rw [value_bind_of_error (value_node_of_none hnode)] at hvalue
      cases hvalue
  | some node =>
      cases hmemo : node.successors with
      | some ids' =>
          have hchildren := children?_eq_some.mpr ⟨node, hnode, hmemo⟩
          obtain ⟨hvalue', hexec⟩ := legalMoves_of_children? hchildren
          rw [hvalue] at hvalue'
          rw [hexec, hchildren, Except.ok.inj hvalue']
      | none =>
          rcases legalMoves_cases h hnode hmemo with ⟨e, -, he, -⟩ |
            ⟨next, ids', after, -, hvalue', hadded, heq⟩
          · rw [hvalue] at he
            cases he
          have hgrows := hadded.grows
          rw [hvalue] at hvalue'
          obtain rfl := Except.ok.inj hvalue'
          have hlive : after.position? id ≠ none := by
            rw [hgrows.position? id node.position (position?_eq_some.mpr ⟨node, hnode, rfl⟩)]
            exact Option.some_ne_none _
          rw [heq, children?_remember after id id ids hlive, if_pos rfl]

/-! ## Outcomes -/

theorem keeps_outcomeBy {R : GameTree → GameTree → Prop} [IsPreorder GameTree R]
    {noMoves : TreeM Bool} (hmoves : Keeps R noMoves) : Keeps R (game.outcomeBy p noMoves) := by
  have hkeeps : @Sequential TreeM (Except EngineError) _ _ fun _ x _ => Keeps R x :=
    ⟨Keeps.pure, Keeps.bind⟩
  exact hkeeps.outcomeBy (.ok true) hmoves (.of_exec_eq (exec_lift _)) game

theorem keeps_stuck {R : GameTree → GameTree → Prop} [IsPreorder GameTree R]
    (hmoves : Keeps R (legalMoves id)) : Keeps R (List.isEmpty <$> legalMoves id) := by
  rw [← bind_pure_comp]
  exact hmoves.bind fun _ => .pure _

theorem unfolds_outcome (id : NodeId) : Keeps Unfolds (GameTree.outcome id) := by
  unfold GameTree.outcome
  refine (Keeps.of_exec_eq fun tree => exec_node tree id).bind fun node => ?_
  cases node.outcome with
  | some o => exact .pure o
  | none =>
      refine Keeps.get.bind fun tree => ?_
      refine (keeps_outcomeBy (keeps_stuck (unfolds_legalMoves id))).bind fun o =>
        .bind ?_ fun _ => .pure o
      exact fun tree => unfolds_modify tree id (fun _ => rfl) fun _ => rfl

end BoardGame.GameTree
