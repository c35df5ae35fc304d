import BoardGame.GameTree
/-!
# Bookkeeping of a game tree

The slots, the list of free slots and the lists of the plies describe one set of
nodes. `Arena` says how they fit together; adding a position keeps them together.
-/

namespace BoardGame.GameTree

/-! ## Views of a tree -/

/-- The slots listed under a depth. -/
def ply (tree : GameTree) (depth : Nat) : List NodeId :=
  (tree.plies.getD depth #[]).toList

/-- The position in a slot, if it holds one. -/
def position? (tree : GameTree) (id : NodeId) : Option Position :=
  (tree.node? id).map (·.position)

variable {tree : GameTree} {id : NodeId}

theorem node?_eq_none_of_le (h : tree.slots.size ≤ id.index) : tree.node? id = none := by
  unfold node?
  rw [Array.getElem?_eq_none h]
  rfl

theorem position?_eq_some {p : Position} :
    tree.position? id = some p ↔ ∃ node, tree.node? id = some node ∧ node.position = p := by
  unfold position?
  exact Option.map_eq_some_iff

theorem position_eq_of_node? {node : Node} {p : Position} (hnode : tree.node? id = some node)
    (hp : tree.position? id = some p) : node.position = p := by
  obtain ⟨node', hnode', rfl⟩ := position?_eq_some.mp hp
  exact congrArg Node.position (Option.some.inj (hnode.symm.trans hnode'))

theorem getD_enlist (plies : Std.TreeMap Nat (Array NodeId)) (d e : Nat) (id : NodeId) :
    (enlist plies d id).getD e #[] =
      if d = e then (plies.getD e #[]).push id else plies.getD e #[] := by
  unfold enlist
  rw [Std.TreeMap.getD_alter]
  by_cases h : d = e
  · subst h
    rw [if_pos (Nat.compare_eq_eq.mpr rfl), if_pos rfl, Std.TreeMap.getD_eq_getD_getElem?]
    rfl
  · rw [if_neg (mt Nat.compare_eq_eq.mp h), if_neg h]

/-! ## The parts fit together -/

structure Arena (tree : GameTree) : Prop where
  /-- The free slots are the empty ones. -/
  mem_free : ∀ id, id ∈ tree.free ↔ id.index < tree.slots.size ∧ tree.node? id = none
  free_nodup : tree.free.Nodup
  /-- A slot is listed under the depth of its position and nowhere else. -/
  mem_ply : ∀ id d, id ∈ tree.ply d ↔ ∃ p, tree.position? id = some p ∧ p.depth = d
  ply_nodup : ∀ d, (tree.ply d).Nodup
  start_live : tree.node? tree.start ≠ none

/-! ## Insertion -/

theorem insert_of_nil (hfree : tree.free = []) (p : Position) :
    tree.insert p = (⟨tree.slots.size⟩,
      { tree with
        slots := tree.slots.push (some { position := p })
        plies := enlist tree.plies p.depth ⟨tree.slots.size⟩ }) := by
  cases tree
  subst hfree
  rfl

theorem insert_of_cons {rest : List NodeId} (hfree : tree.free = id :: rest) (p : Position) :
    tree.insert p = (id,
      { tree with
        slots := tree.slots.setIfInBounds id.index (some { position := p })
        free := rest
        plies := enlist tree.plies p.depth id }) := by
  cases tree
  subst hfree
  rfl

theorem insert_game (tree : GameTree) (p : Position) : (tree.insert p).2.game = tree.game := by
  cases hfree : tree.free with
  | nil => rw [insert_of_nil hfree]
  | cons id rest => rw [insert_of_cons hfree]

theorem insert_start (tree : GameTree) (p : Position) :
    (tree.insert p).2.start = tree.start := by
  cases hfree : tree.free with
  | nil => rw [insert_of_nil hfree]
  | cons id rest => rw [insert_of_cons hfree]

theorem insert_free (tree : GameTree) (p : Position) :
    (tree.insert p).2.free = tree.free.tail := by
  cases hfree : tree.free with
  | nil => rw [insert_of_nil hfree, hfree, List.tail_nil]
  | cons id rest => rw [insert_of_cons hfree, List.tail_cons]

theorem insert_plies (tree : GameTree) (p : Position) :
    (tree.insert p).2.plies = enlist tree.plies p.depth (tree.insert p).1 := by
  cases hfree : tree.free with
  | nil => rw [insert_of_nil hfree]
  | cons id rest => rw [insert_of_cons hfree]

theorem ply_insert (tree : GameTree) (p : Position) (d : Nat) :
    (tree.insert p).2.ply d =
      if p.depth = d then tree.ply d ++ [(tree.insert p).1] else tree.ply d := by
  unfold ply
  rw [insert_plies, getD_enlist]
  by_cases h : p.depth = d
  · rw [if_pos h, if_pos h, Array.toList_push]
  · rw [if_neg h, if_neg h]

namespace Arena

theorem node?_of_mem_free (h : Arena tree) (hid : id ∈ tree.free) : tree.node? id = none :=
  ((h.mem_free id).mp hid).2

theorem node?_insert_fst (h : Arena tree) (p : Position) :
    tree.node? (tree.insert p).1 = none := by
  cases hfree : tree.free with
  | nil =>
      rw [insert_of_nil hfree]
      exact node?_eq_none_of_le (Nat.le_refl _)
  | cons id rest =>
      rw [insert_of_cons hfree]
      have hid : id ∈ tree.free := by
        rw [hfree]
        exact List.mem_cons_self
      exact h.node?_of_mem_free hid

theorem node?_insert (h : Arena tree) (p : Position) (id : NodeId) :
    (tree.insert p).2.node? id =
      if id = (tree.insert p).1 then some { position := p } else tree.node? id := by
  cases hfree : tree.free with
  | nil =>
      rw [insert_of_nil hfree]
      show (tree.slots.push (some { position := p }))[id.index]?.join = _
      rw [Array.getElem?_push]
      by_cases heq : id = ⟨tree.slots.size⟩
      · subst heq
        rw [if_pos rfl, if_pos rfl]
        rfl
      · have hne : id.index ≠ tree.slots.size := by
          intro hindex
          exact heq (by rw [← hindex])
        rw [if_neg hne, if_neg heq]
        rfl
  | cons a rest =>
      have ha : a.index < tree.slots.size := by
        have hmem : a ∈ tree.free := by
          rw [hfree]
          exact List.mem_cons_self
        exact ((h.mem_free a).mp hmem).1
      rw [insert_of_cons hfree]
      show (tree.slots.setIfInBounds a.index (some { position := p }))[id.index]?.join = _
      rw [Array.getElem?_setIfInBounds]
      by_cases heq : id = a
      · subst heq
        rw [if_pos rfl, if_pos ha, if_pos rfl]
        rfl
      · have hne : a.index ≠ id.index := by
          intro hindex
          exact heq (by cases id; cases a; simpa using hindex.symm)
        rw [if_neg hne, if_neg heq]
        rfl

theorem position?_insert (h : Arena tree) (p : Position) (id : NodeId) :
    (tree.insert p).2.position? id =
      if id = (tree.insert p).1 then some p else tree.position? id := by
  unfold position?
  rw [h.node?_insert]
  by_cases heq : id = (tree.insert p).1
  · rw [if_pos heq, if_pos heq]
    rfl
  · rw [if_neg heq, if_neg heq]

theorem mem_free_insert (h : Arena tree) (p : Position) (id : NodeId) :
    id ∈ (tree.insert p).2.free ↔
      id.index < (tree.insert p).2.slots.size ∧ (tree.insert p).2.node? id = none := by
  rw [h.node?_insert, insert_free]
  have hfree := h.mem_free id
  have hnodup := h.free_nodup
  cases hcase : tree.free with
  | nil =>
      rw [insert_of_nil hcase]
      rw [hcase] at hfree
      simp only [List.tail_nil, List.not_mem_nil, false_iff, not_and, Array.size_push] at hfree ⊢
      intro hlt
      by_cases heq : id = ⟨tree.slots.size⟩
      · rw [if_pos heq]
        simp
      · rw [if_neg heq]
        apply hfree
        have hne : id.index ≠ tree.slots.size := fun hindex => heq (by rw [← hindex])
        omega
  | cons a rest =>
      rw [insert_of_cons hcase]
      rw [hcase] at hfree hnodup
      simp only [List.tail_cons, Array.size_setIfInBounds]
      by_cases heq : id = a
      · subst heq
        rw [if_pos rfl]
        simp [(List.nodup_cons.mp hnodup).1]
      · rw [if_neg heq, ← hfree, List.mem_cons]
        simp [heq]

theorem insert (h : Arena tree) (p : Position) : Arena (tree.insert p).2 where
  mem_free := h.mem_free_insert p
  free_nodup := by
    rw [insert_free]
    exact h.free_nodup.sublist (List.tail_sublist _)
  mem_ply id d := by
    rw [ply_insert, h.position?_insert]
    -- the slot that is filled held nothing, so nothing lists it yet
    have hfresh : tree.position? (tree.insert p).1 = none := by
      unfold position?
      rw [h.node?_insert_fst]
      rfl
    by_cases hd : p.depth = d
    · rw [if_pos hd, List.mem_append, List.mem_singleton, h.mem_ply]
      by_cases heq : id = (tree.insert p).1
      · simp [heq, hd]
      · simp [heq]
    · rw [if_neg hd, h.mem_ply]
      by_cases heq : id = (tree.insert p).1
      · rw [heq, hfresh]
        simp [hd]
      · simp [heq]
  ply_nodup d := by
    rw [ply_insert]
    by_cases hd : p.depth = d
    · rw [if_pos hd]
      have hnew : (tree.insert p).1 ∉ tree.ply d := by
        intro hmem
        obtain ⟨q, hq, -⟩ := (h.mem_ply _ _).mp hmem
        unfold position? at hq
        rw [h.node?_insert_fst] at hq
        cases hq
      apply List.nodup_append.mpr
      refine ⟨h.ply_nodup d, by simp, ?_⟩
      intro a ha b hb hab
      rw [List.mem_singleton.mp hb] at hab
      exact hnew (hab ▸ ha)
    · rw [if_neg hd]
      exact h.ply_nodup d
  start_live := by
    rw [insert_start, h.node?_insert]
    by_cases heq : tree.start = (tree.insert p).1
    · rw [if_pos heq]
      simp
    · rw [if_neg heq]
      exact h.start_live

end Arena

/-! ## Changes of one node -/

theorem node?_modify (tree : GameTree) (a id : NodeId) (change : Node → Node) :
    (tree.modify a change).node? id =
      if id = a then (tree.node? id).map change else tree.node? id := by
  unfold modify node?
  rw [Array.getElem?_modify]
  by_cases heq : id = a
  · subst heq
    rw [if_pos rfl, if_pos rfl]
    cases tree.slots[id.index]? <;> rfl
  · have hne : a.index ≠ id.index := by
      intro hindex
      exact heq (by cases id; cases a; simpa using hindex.symm)
    rw [if_neg hne, if_neg heq]

theorem position?_modify (tree : GameTree) (a id : NodeId) {change : Node → Node}
    (hchange : ∀ node, (change node).position = node.position) :
    (tree.modify a change).position? id = tree.position? id := by
  unfold position?
  rw [node?_modify]
  by_cases heq : id = a
  · rw [if_pos heq]
    cases tree.node? id with
    | none => rfl
    | some node => exact congrArg some (hchange node)
  · rw [if_neg heq]

theorem node?_eq_none_iff : tree.node? id = none ↔ tree.position? id = none := by
  unfold position?
  rw [Option.map_eq_none_iff]

/-- The bookkeeping is about positions only. -/
theorem Arena.of_position?_eq {after : GameTree} (h : Arena tree)
    (hsize : after.slots.size = tree.slots.size) (hfree : after.free = tree.free)
    (hplies : ∀ d, after.ply d = tree.ply d) (hstart : after.start = tree.start)
    (hposition : ∀ id, after.position? id = tree.position? id) : Arena after where
  mem_free id := by
    rw [hfree, hsize, node?_eq_none_iff, hposition, ← node?_eq_none_iff]
    exact h.mem_free id
  free_nodup := by
    rw [hfree]
    exact h.free_nodup
  mem_ply id d := by
    rw [hplies, hposition]
    exact h.mem_ply id d
  ply_nodup d := by
    rw [hplies]
    exact h.ply_nodup d
  start_live := by
    rw [hstart, Ne, node?_eq_none_iff, hposition, ← node?_eq_none_iff]
    exact h.start_live

theorem Arena.modify (h : Arena tree) (a : NodeId) {change : Node → Node}
    (hchange : ∀ node, (change node).position = node.position) : Arena (tree.modify a change) :=
  h.of_position?_eq (Array.size_modify ..) rfl (fun _ => rfl) rfl
    fun id => position?_modify tree a id hchange

/-! ## The first tree -/

theorem node?_ofPosition (game : Game) (p : Position) (id : NodeId) :
    (ofPosition game p).node? id = if id = ⟨0⟩ then some { position := p } else none := by
  show (#[].push (some { position := p } : Option Node))[id.index]?.join = _
  rw [Array.getElem?_push]
  by_cases heq : id = ⟨0⟩
  · subst heq
    rfl
  · have hne : id.index ≠ 0 := fun hindex => heq (by rw [← hindex])
    rw [if_neg heq, if_neg (by simpa using hne)]
    rfl

theorem arena_ofPosition (game : Game) (p : Position) : Arena (ofPosition game p) where
  mem_free id := by
    rw [node?_ofPosition]
    show id ∈ [] ↔ id.index < 1 ∧ _
    by_cases heq : id = ⟨0⟩
    · rw [if_pos heq]
      simp
    · have hne : id.index ≠ 0 := fun hindex => heq (by rw [← hindex])
      simp only [List.not_mem_nil, false_iff, not_and]
      omega
  free_nodup := List.nodup_nil
  mem_ply id d := by
    unfold position?
    rw [node?_ofPosition]
    show id ∈ ((enlist ∅ p.depth ⟨0⟩).getD d #[]).toList ↔ _
    rw [getD_enlist, Std.TreeMap.getD_emptyc]
    by_cases heq : id = ⟨0⟩
    · by_cases hd : p.depth = d
      · simp [heq, hd]
      · simp [heq, hd]
    · by_cases hd : p.depth = d
      · simp [heq, hd]
      · simp [heq, hd]
  ply_nodup d := by
    show ((enlist ∅ p.depth ⟨0⟩).getD d #[]).toList.Nodup
    rw [getD_enlist, Std.TreeMap.getD_emptyc]
    by_cases hd : p.depth = d
    · simp [hd]
    · simp [hd]
  start_live := by
    rw [node?_ofPosition]
    show (if (⟨0⟩ : NodeId) = ⟨0⟩ then some _ else none) ≠ none
    rw [if_pos rfl]
    simp

end BoardGame.GameTree
