import Mathlib.Data.List.Nodup
import BoardGame.Proofs.GameTree.Arena
/-!
# Eviction of plies

A ply is evicted slot by slot. `Dropped` describes the tree after a part of the
ply, the induction over the ply keeps it, and what is left after the whole of it
is read off at the end.
-/

namespace BoardGame.GameTree

variable {tree : GameTree} {id : NodeId} {d : Nat}

/-! ## One slot -/

theorem drop_start (d : Nat) (tree : GameTree) :
    drop d tree tree.start = { tree with plies := enlist tree.plies d tree.start } := by
  unfold drop
  rw [if_pos rfl]

theorem drop_of_ne (hne : id ≠ tree.start) (hlive : tree.node? id ≠ none) :
    drop d tree id =
      { tree with slots := tree.slots.setIfInBounds id.index none, free := id :: tree.free } := by
  obtain ⟨node, hnode⟩ := Option.ne_none_iff_exists'.mp hlive
  unfold drop
  rw [if_neg hne, hnode]

theorem node?_drop (hlive : tree.node? id ≠ none) (a : NodeId) :
    (drop d tree id).node? a = if a = id ∧ a ≠ tree.start then none else tree.node? a := by
  by_cases hstart : id = tree.start
  · subst hstart
    rw [drop_start, if_neg fun h => h.2 h.1]
    rfl
  · rw [drop_of_ne hstart hlive]
    show (tree.slots.setIfInBounds id.index none)[a.index]?.join = _
    rw [Array.getElem?_setIfInBounds]
    by_cases heq : a = id
    · subst heq
      rw [if_pos rfl, if_pos (c := a = a ∧ a ≠ tree.start) ⟨rfl, hstart⟩]
      split <;> rfl
    · have hne : id.index ≠ a.index := by
        intro hindex
        exact heq (by cases id; cases a; simpa using hindex.symm)
      rw [if_neg hne, if_neg fun h => heq h.1]
      rfl

/-! ## A list of slots -/

/-- What dropping the listed slots leaves: only the start keeps its node, and it is
listed again. -/
structure Dropped (d : Nat) (ids : List NodeId) (before after : GameTree) : Prop where
  game : after.game = before.game
  start : after.start = before.start
  size : after.slots.size = before.slots.size
  free : after.free = (ids.filter (· ≠ before.start)).reverse ++ before.free
  node? : ∀ id, after.node? id =
    if id ∈ ids ∧ id ≠ before.start then none else before.node? id
  ply : ∀ e, after.ply e =
    if d = e then before.ply e ++ ids.filter (· = before.start) else before.ply e

theorem dropped_nil (d : Nat) (tree : GameTree) : Dropped d [] tree tree where
  game := rfl
  start := rfl
  size := rfl
  free := rfl
  node? id := by simp
  ply e := by simp

theorem dropped_drop (hlive : tree.node? id ≠ none) : Dropped d [id] tree (drop d tree id) := by
  by_cases hstart : id = tree.start
  · subst hstart
    have hnode := node?_drop (d := d) hlive
    rw [drop_start] at hnode ⊢
    refine ⟨rfl, rfl, rfl, by simp, by simpa using hnode, fun e => ?_⟩
    show ((enlist tree.plies d tree.start).getD e #[]).toList = _
    rw [getD_enlist]
    by_cases hd : d = e
    · rw [if_pos hd, if_pos hd, Array.toList_push]
      simp [ply]
    · rw [if_neg hd, if_neg hd]
      rfl
  · have hnode := node?_drop (d := d) hlive
    rw [drop_of_ne hstart hlive] at hnode ⊢
    refine ⟨rfl, rfl, Array.size_setIfInBounds, by simp [hstart], by simpa using hnode, ?_⟩
    intro e
    simp [hstart]
    rfl

theorem Dropped.trans {ids rest : List NodeId} {before middle after : GameTree}
    (h : Dropped d ids before middle) (h' : Dropped d rest middle after) :
    Dropped d (ids ++ rest) before after where
  game := h'.game.trans h.game
  start := h'.start.trans h.start
  size := h'.size.trans h.size
  free := by
    rw [h'.free, h.free, h.start, List.filter_append, List.reverse_append, List.append_assoc]
  node? id := by
    rw [h'.node?, h.node?, h.start]
    by_cases hrest : id ∈ rest ∧ id ≠ before.start
    · rw [if_pos hrest, if_pos ⟨List.mem_append_right _ hrest.1, hrest.2⟩]
    · rw [if_neg hrest]
      have hiff : id ∈ ids ∧ id ≠ before.start ↔ id ∈ ids ++ rest ∧ id ≠ before.start := by
        rw [List.mem_append]
        constructor
        · exact fun hid => ⟨.inl hid.1, hid.2⟩
        · exact fun hid => ⟨hid.1.resolve_right fun hr => hrest ⟨hr, hid.2⟩, hid.2⟩
      simp only [hiff]
  ply e := by
    rw [h'.ply, h.ply, h.start]
    by_cases hd : d = e
    · simp only [if_pos hd, List.filter_append, List.append_assoc]
    · simp only [if_neg hd]

theorem dropped_foldl {ids : List NodeId} (hnodup : ids.Nodup)
    (hlive : ∀ id ∈ ids, tree.node? id ≠ none) :
    Dropped d ids tree (ids.foldl (drop d) tree) := by
  induction ids generalizing tree with
  | nil => exact dropped_nil d tree
  | cons id rest ih =>
      have hfirst : Dropped d [id] tree (drop d tree id) :=
        dropped_drop (hlive id List.mem_cons_self)
      have hrest := List.nodup_cons.mp hnodup
      -- the slots after the first are other slots, so they are still live
      have hlive' : ∀ a ∈ rest, (drop d tree id).node? a ≠ none := by
        intro a ha
        have hne : a ∉ [id] := by
          rw [List.mem_singleton]
          intro heq
          exact hrest.1 (heq ▸ ha)
        rw [hfirst.node?, if_neg fun heq => hne heq.1]
        exact hlive a (List.mem_cons_of_mem id ha)
      rw [List.foldl_cons]
      exact hfirst.trans (ih hrest.2 hlive')

/-! ## Forgotten successors -/

theorem node?_foldl_forget (ids : List NodeId) (tree : GameTree) (id : NodeId) :
    (ids.foldl forget tree).node? id =
      if id ∈ ids then (tree.node? id).map fun node => { node with successors := none }
      else tree.node? id := by
  induction ids generalizing tree with
  | nil => simp
  | cons a rest ih =>
      rw [List.foldl_cons, ih, forget, node?_modify]
      by_cases ha : id = a
      · have hmem : id ∈ a :: rest := ha ▸ List.mem_cons_self
        rw [if_pos ha, if_pos hmem, Option.map_map]
        exact ite_self _
      · simp [ha]

theorem foldl_forget_game (ids : List NodeId) (tree : GameTree) :
    (ids.foldl forget tree).game = tree.game := by
  induction ids generalizing tree with
  | nil => rfl
  | cons a rest ih => exact ih (tree.forget a)

theorem foldl_forget_start (ids : List NodeId) (tree : GameTree) :
    (ids.foldl forget tree).start = tree.start := by
  induction ids generalizing tree with
  | nil => rfl
  | cons a rest ih => exact ih (tree.forget a)

theorem Arena.foldl_forget (h : Arena tree) (ids : List NodeId) :
    Arena (ids.foldl forget tree) := by
  induction ids generalizing tree with
  | nil => exact h
  | cons a rest ih =>
      rw [List.foldl_cons]
      exact ih (h.modify a fun _ => rfl)

/-! ## A ply -/

/-- The tree after ply `d` has been dropped and before the ply above it forgets. -/
def dropPly (tree : GameTree) (d : Nat) : GameTree :=
  (tree.ply d).foldl (drop d) { tree with plies := tree.plies.erase d }

theorem evictDepth_of_none (h : tree.plies[d]? = none) : tree.evictDepth d = tree := by
  unfold evictDepth
  rw [h]

theorem ply_eq_of_getElem? {ids : Array NodeId} (h : tree.plies[d]? = some ids) :
    tree.ply d = ids.toList := by
  unfold ply
  rw [Std.TreeMap.getD_eq_getD_getElem?, h]
  rfl

theorem ply_eq_nil_of_none (h : tree.plies[d]? = none) : tree.ply d = [] := by
  unfold ply
  rw [Std.TreeMap.getD_eq_getD_getElem?, h]
  rfl

theorem evictDepth_zero {ids : Array NodeId} (h : tree.plies[0]? = some ids) :
    tree.evictDepth 0 = tree.dropPly 0 := by
  unfold evictDepth dropPly
  rw [h, ply_eq_of_getElem? h, Array.foldl_toList]

theorem evictDepth_succ {ids : Array NodeId} (h : tree.plies[d + 1]? = some ids) :
    tree.evictDepth (d + 1) =
      ((tree.dropPly (d + 1)).ply d).foldl forget (tree.dropPly (d + 1)) := by
  have hdrop : Array.foldl (drop (d + 1)) { tree with plies := tree.plies.erase (d + 1) } ids =
      tree.dropPly (d + 1) := by
    unfold dropPly
    rw [ply_eq_of_getElem? h, Array.foldl_toList]
  unfold evictDepth
  rw [h]
  show Array.foldl forget _ _ = _
  rw [hdrop]
  exact (Array.foldl_toList ..).symm

theorem Arena.node?_ne_none_of_mem_ply (h : Arena tree) {id : NodeId} (hid : id ∈ tree.ply d) :
    tree.node? id ≠ none := by
  obtain ⟨p, hp, -⟩ := (h.mem_ply id d).mp hid
  obtain ⟨node, hnode, -⟩ := position?_eq_some.mp hp
  rw [hnode]
  exact Option.some_ne_none node

theorem Arena.dropped_dropPly (h : Arena tree) (d : Nat) :
    Dropped d (tree.ply d) { tree with plies := tree.plies.erase d } (tree.dropPly d) :=
  dropped_foldl (h.ply_nodup d) fun _ hid => h.node?_ne_none_of_mem_ply hid

theorem ply_erase (tree : GameTree) (d e : Nat) :
    ply { tree with plies := tree.plies.erase d } e = if d = e then [] else tree.ply e := by
  show ((tree.plies.erase d).getD e #[]).toList = _
  rw [Std.TreeMap.getD_erase]
  by_cases hd : d = e
  · rw [if_pos (Nat.compare_eq_eq.mpr hd), if_pos hd]
  · rw [if_neg (mt Nat.compare_eq_eq.mp hd), if_neg hd]
    rfl

theorem Arena.ply_dropPly (h : Arena tree) (d e : Nat) :
    (tree.dropPly d).ply e =
      if d = e then (tree.ply e).filter (· = tree.start) else tree.ply e := by
  rw [(h.dropped_dropPly d).ply, ply_erase]
  by_cases hd : d = e
  · simp [hd]
  · simp [hd]

theorem Arena.node?_dropPly (h : Arena tree) (d : Nat) (id : NodeId) :
    (tree.dropPly d).node? id =
      if id ∈ tree.ply d ∧ id ≠ tree.start then none else tree.node? id :=
  (h.dropped_dropPly d).node? id

theorem Arena.position?_dropPly (h : Arena tree) (d : Nat) (id : NodeId) :
    (tree.dropPly d).position? id =
      if id ∈ tree.ply d ∧ id ≠ tree.start then none else tree.position? id := by
  unfold position?
  rw [h.node?_dropPly]
  split <;> rfl

theorem Arena.mem_ply_dropPly (h : Arena tree) (d e : Nat) (id : NodeId) :
    id ∈ (tree.dropPly d).ply e ↔ id ∈ tree.ply e ∧ (d = e → id = tree.start) := by
  rw [h.ply_dropPly]
  by_cases hd : d = e
  · simp [hd]
  · simp [hd]

theorem Arena.dropPly (h : Arena tree) (d : Nat) : Arena (tree.dropPly d) where
  mem_free id := by
    rw [(h.dropped_dropPly d).free, (h.dropped_dropPly d).size, h.node?_dropPly, List.mem_append,
      List.mem_reverse, List.mem_filter, decide_eq_true_eq]
    show _ ∨ id ∈ tree.free ↔ id.index < tree.slots.size ∧ _
    by_cases hid : id ∈ tree.ply d ∧ id ≠ tree.start
    · have hlt : id.index < tree.slots.size := Nat.lt_of_not_le fun hle =>
        h.node?_ne_none_of_mem_ply hid.1 (node?_eq_none_of_le hle)
      simp [hid, hlt]
    · rw [if_neg hid, ← h.mem_free]
      exact or_iff_right hid
  free_nodup := by
    rw [(h.dropped_dropPly d).free]
    apply List.nodup_append.mpr
    refine ⟨(List.nodup_reverse.mpr ((h.ply_nodup d).filter _)), h.free_nodup, ?_⟩
    intro a ha b hb hab
    have hply : a ∈ tree.ply d := (List.mem_filter.mp (List.mem_reverse.mp ha)).1
    exact h.node?_ne_none_of_mem_ply hply (hab ▸ h.node?_of_mem_free hb)
  mem_ply id e := by
    rw [h.mem_ply_dropPly, h.position?_dropPly]
    by_cases hid : id ∈ tree.ply d ∧ id ≠ tree.start
    · -- the slot is listed under `d` alone, and there it has been dropped
      rw [if_pos hid]
      refine iff_of_false (fun hlisted => hid.2 (hlisted.2 ?_)) nofun
      obtain ⟨p, hp, rfl⟩ := (h.mem_ply id d).mp hid.1
      obtain ⟨q, hq, rfl⟩ := (h.mem_ply id e).mp hlisted.1
      rw [Option.some.inj (hp.symm.trans hq)]
    · rw [if_neg hid, ← h.mem_ply]
      refine and_iff_left_of_imp fun hlisted hd => ?_
      by_contra hstart
      exact hid ⟨hd ▸ hlisted, hstart⟩
  ply_nodup e := by
    rw [h.ply_dropPly]
    by_cases hd : d = e
    · rw [if_pos hd]
      exact (h.ply_nodup e).filter _
    · rw [if_neg hd]
      exact h.ply_nodup e
  start_live := by
    rw [(h.dropped_dropPly d).start, h.node?_dropPly]
    show (if _ ∧ tree.start ≠ tree.start then none else tree.node? tree.start) ≠ none
    rw [if_neg fun hid => hid.2 rfl]
    exact h.start_live

/-! ## Eviction -/

theorem evictDepth_game (tree : GameTree) (h : Arena tree) (d : Nat) :
    (tree.evictDepth d).game = tree.game := by
  cases hply : tree.plies[d]? with
  | none => rw [evictDepth_of_none hply]
  | some ids =>
      have hdrop := (h.dropped_dropPly d).game
      cases d with
      | zero => rw [evictDepth_zero hply, hdrop]
      | succ d => rw [evictDepth_succ hply, foldl_forget_game, hdrop]

theorem evictDepth_start (tree : GameTree) (h : Arena tree) (d : Nat) :
    (tree.evictDepth d).start = tree.start := by
  cases hply : tree.plies[d]? with
  | none => rw [evictDepth_of_none hply]
  | some ids =>
      have hdrop := (h.dropped_dropPly d).start
      cases d with
      | zero => rw [evictDepth_zero hply, hdrop]
      | succ d => rw [evictDepth_succ hply, foldl_forget_start, hdrop]

theorem Arena.evictDepth (h : Arena tree) (d : Nat) : Arena (tree.evictDepth d) := by
  cases hply : tree.plies[d]? with
  | none =>
      rw [evictDepth_of_none hply]
      exact h
  | some ids =>
      cases d with
      | zero =>
          rw [evictDepth_zero hply]
          exact h.dropPly 0
      | succ d =>
          rw [evictDepth_succ hply]
          exact (h.dropPly (d + 1)).foldl_forget _

/-- What eviction of ply `d` leaves of a node. -/
def remainder (tree : GameTree) (d : Nat) (id : NodeId) (node : Node) : Option Node :=
  if node.position.depth = d ∧ id ≠ tree.start then none
  else if node.position.depth + 1 = d then some { node with successors := none }
  else some node

theorem remainder_eq_some {node after : Node} (h : tree.remainder d id node = some after) :
    ¬ (node.position.depth = d ∧ id ≠ tree.start) ∧ after.position = node.position ∧
      after.outcome = node.outcome ∧ ∀ ids, after.successors = some ids →
        node.position.depth + 1 ≠ d ∧ node.successors = some ids := by
  obtain ⟨hkept, hrest⟩ := Option.ite_none_left_eq_some.mp h
  refine ⟨hkept, ?_⟩
  by_cases hd : node.position.depth + 1 = d
  · rw [if_pos hd] at hrest
    obtain rfl := Option.some.inj hrest
    exact ⟨rfl, rfl, nofun⟩
  · rw [if_neg hd] at hrest
    obtain rfl := Option.some.inj hrest
    exact ⟨rfl, rfl, fun ids hids => ⟨hd, hids⟩⟩

theorem Arena.mem_ply_iff (h : Arena tree) {node : Node} (hnode : tree.node? id = some node) :
    id ∈ tree.ply d ↔ node.position.depth = d := by
  rw [h.mem_ply]
  unfold position?
  simp [hnode]

theorem Arena.node?_evictDepth (h : Arena tree) {ids : Array NodeId}
    (hply : tree.plies[d]? = some ids) (id : NodeId) :
    (tree.evictDepth d).node? id = (tree.node? id).bind (tree.remainder d id) := by
  have hdrop := h.node?_dropPly d id
  cases hnode : tree.node? id with
  | none =>
      rw [hnode, ite_self] at hdrop
      cases d with
      | zero => rw [evictDepth_zero hply, hdrop, Option.bind_none]
      | succ d =>
          rw [evictDepth_succ hply, node?_foldl_forget, hdrop, Option.bind_none, Option.map_none,
            ite_self]
  | some node =>
      simp only [hnode, h.mem_ply_iff hnode] at hdrop
      rw [Option.bind_some]
      unfold remainder
      cases d with
      | zero =>
          rw [evictDepth_zero hply, hdrop, if_neg (Nat.succ_ne_zero node.position.depth)]
      | succ d =>
          rw [evictDepth_succ hply, node?_foldl_forget, hdrop, h.ply_dropPly,
            if_neg (Nat.succ_ne_self d)]
          simp only [h.mem_ply_iff hnode]
          by_cases hgone : node.position.depth = d + 1 ∧ id ≠ tree.start
          · rw [if_pos hgone, if_pos hgone, Option.map_none, ite_self]
          · simp only [if_neg hgone, Nat.add_right_cancel_iff, Option.map_some]

/-- Eviction empties the slots of a ply, the start's apart, and changes no position. -/
theorem Arena.position?_evictDepth (h : Arena tree) (d : Nat) (id : NodeId) :
    (tree.evictDepth d).position? id =
      if id ∈ tree.ply d ∧ id ≠ tree.start then none else tree.position? id := by
  cases hply : tree.plies[d]? with
  | none => simp [evictDepth_of_none hply, ply_eq_nil_of_none hply]
  | some ids =>
      unfold position?
      rw [h.node?_evictDepth hply]
      cases hnode : tree.node? id with
      | none => simp
      | some node =>
          rw [Option.bind_some]
          simp only [h.mem_ply_iff hnode]
          unfold remainder
          by_cases hgone : node.position.depth = d ∧ id ≠ tree.start
          · rw [if_pos hgone, if_pos hgone, Option.map_none]
          · rw [if_neg hgone, if_neg hgone]
            split <;> rfl

end BoardGame.GameTree
