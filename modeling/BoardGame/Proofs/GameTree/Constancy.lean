import BoardGame.Proofs.GameTree.Bookkeeping
/-!
# What a tree tells, it tells again

Questions make a tree remember more, and what it remembers is what it would have found out: a
node that has been there keeps its position, lists the same successors and has the same outcome.
This needs no more than that the parts of the tree fit together; the tree may even remember
successors that have been dropped.
-/

namespace BoardGame.GameTree

open Stateful (Keeps)

variable {game : Game} {before after tree : GameTree} {id a : NodeId} {ids : List NodeId}
  {node node' : Node} {next : List Position} {o : Outcome}

/-! ## What a node tells -/

/-- Whether a node has no successor: from what it remembers, or else from the game. -/
def stuckAt (tree : GameTree) (node : Node) : Except EngineError Bool :=
  match node.successors with
  | some ids => .ok ids.isEmpty
  | none => tree.game.stuck node.position

/-- The outcome of a node: from what it remembers, or else from the game. -/
def outcomeAt (tree : GameTree) (node : Node) : Except EngineError Outcome :=
  match node.outcome with
  | some o => .ok o
  | none => tree.game.outcomeBy node.position (tree.stuckAt node)

/-- `node'` remembers what `node` does, and what it remembers besides `node` would have told. -/
structure Recalls (before after : GameTree) (node node' : Node) : Prop where
  position : node'.position = node.position
  successors : node'.successors = node.successors ∨ node.successors = none ∧ ∃ next ids,
    before.game.successors node.position = .ok next ∧ node'.successors = some ids ∧
      ids.map after.position? = next.map some
  outcome : node'.outcome = node.outcome ∨ node.outcome = none ∧ ∃ o,
    before.outcomeAt node = .ok o ∧ node'.outcome = some o

/-- The nodes of `before` are in `after` and tell there what they have told. -/
structure Echoes (before after : GameTree) : Prop where
  game : after.game = before.game
  node : ∀ id node, before.node? id = some node →
    ∃ node', after.node? id = some node' ∧ Recalls before after node node'

theorem isEmpty_eq_of_map (h : ids.map tree.position? = next.map some) :
    ids.isEmpty = next.isEmpty := by
  have hlength := congrArg List.isEmpty h
  rw [List.isEmpty_map, List.isEmpty_map] at hlength
  exact hlength

theorem stuck_of_successors {p : Position} (hnext : game.successors p = .ok next) :
    game.stuck p = .ok next.isEmpty := by
  rw [game.stuck_eq_isEmpty, hnext]
  rfl

namespace Recalls

theorem refl (tree : GameTree) (node : Node) : Recalls tree after node node :=
  ⟨rfl, .inl rfl, .inl rfl⟩

theorem stuckAt_eq (h : Recalls before after node node') (hgame : after.game = before.game) :
    after.stuckAt node' = before.stuckAt node := by
  unfold stuckAt
  rcases h.successors with hsame | ⟨hnone, next, ids, hnext, hsome, hmap⟩
  · rw [hsame, h.position, hgame]
  · rw [hsome, hnone]
    show Except.ok ids.isEmpty = before.game.stuck node.position
    rw [stuck_of_successors hnext, isEmpty_eq_of_map hmap]

theorem outcomeAt_eq (h : Recalls before after node node') (hgame : after.game = before.game) :
    after.outcomeAt node' = before.outcomeAt node := by
  rcases h.outcome with hsame | ⟨hnone, o, ho, hsome⟩
  · unfold outcomeAt
    rw [hsame, h.stuckAt_eq hgame, h.position, hgame]
  · rw [ho]
    unfold outcomeAt
    rw [hsome]

end Recalls

namespace Echoes

theorem refl (tree : GameTree) : Echoes tree tree :=
  ⟨rfl, fun _ node hnode => ⟨node, hnode, .refl tree node⟩⟩

theorem position? (h : Echoes before after) (id : NodeId) (p : Position)
    (hp : before.position? id = some p) : after.position? id = some p := by
  obtain ⟨node, hnode, rfl⟩ := position?_eq_some.mp hp
  obtain ⟨node', hnode', hrecalls⟩ := h.node id node hnode
  exact position?_eq_some.mpr ⟨node', hnode', hrecalls.position⟩

theorem map_position? (h : Echoes before after) (hids : ids.map before.position? = next.map some) :
    ids.map after.position? = next.map some := by
  rw [← hids]
  apply List.map_congr_left
  intro c hc
  obtain ⟨q, -, hq⟩ := exists_position_of_mem hids hc
  rw [h.position? c q hq, hq]

theorem trans {later : GameTree} (h : Echoes before after) (h' : Echoes after later) :
    Echoes before later := by
  refine ⟨h'.game.trans h.game, fun id node hnode => ?_⟩
  obtain ⟨node', hnode', hrecalls⟩ := h.node id node hnode
  obtain ⟨node'', hnode'', hrecalls'⟩ := h'.node id node' hnode'
  refine ⟨node'', hnode'', hrecalls'.position.trans hrecalls.position, ?_, ?_⟩
  · rcases hrecalls'.successors with hsame | ⟨hnone, next, ids, hnext, hsome, hmap⟩
    · rw [hsame]
      refine hrecalls.successors.imp_right ?_
      rintro ⟨hnone, next, ids, hnext, hsome, hmap⟩
      exact ⟨hnone, next, ids, hnext, hsome, h'.map_position? hmap⟩
    · rcases hrecalls.successors with hsame | ⟨-, _, _, -, hsome', -⟩
      · rw [h.game, hrecalls.position] at hnext
        exact .inr ⟨hsame ▸ hnone, next, ids, hnext, hsome, hmap⟩
      · rw [hsome'] at hnone
        cases hnone
  · rcases hrecalls'.outcome with hsame | ⟨hnone, o, ho, hsome⟩
    · rw [hsame]
      exact hrecalls.outcome
    · rcases hrecalls.outcome with hsame | ⟨-, _, -, hsome'⟩
      · rw [hrecalls.outcomeAt_eq h.game] at ho
        exact .inr ⟨hsame ▸ hnone, o, ho, hsome⟩
      · rw [hsome'] at hnone
        cases hnone

end Echoes

/-- Where the parts of `before` fit together, so do those of `after`, which tells the same. -/
def Repeats (before after : GameTree) : Prop :=
  Arena before → Arena after ∧ Echoes before after

instance : IsPreorder GameTree Repeats where
  refl tree h := ⟨h, Echoes.refl tree⟩
  trans a b c hab hbc h := by
    obtain ⟨hb, hechoes⟩ := hab h
    obtain ⟨hc, hechoes'⟩ := hbc hb
    exact ⟨hc, hechoes.trans hechoes'⟩

/-! ## Writing down -/

theorem Added.echoes (h : Added before ids next after) : Echoes before after :=
  ⟨h.game, fun _ node hnode => ⟨node, h.node?_eq hnode, .refl before node⟩⟩

theorem Echoes.modify {change : Node → Node} (hnode : tree.node? a = some node)
    (hchange : Recalls tree (tree.modify a change) node (change node)) :
    Echoes tree (tree.modify a change) := by
  refine ⟨rfl, fun id other hother => ?_⟩
  rw [node?_modify]
  by_cases hid : id = a
  · subst hid
    obtain rfl := Option.some.inj (hnode.symm.trans hother)
    exact ⟨change node, by rw [if_pos rfl, hnode, Option.map_some], hchange⟩
  · exact ⟨other, by rw [if_neg hid, hother], .refl tree other⟩

theorem echoes_remember_successors (hnode : tree.node? a = some node)
    (hnone : node.successors = none) (hnext : tree.game.successors node.position = .ok next)
    (hids : ids.map tree.position? = next.map some) :
    Echoes tree (tree.modify a fun node => { node with successors := some ids }) := by
  refine .modify hnode ⟨rfl, .inr ⟨hnone, next, ids, hnext, rfl, ?_⟩, .inl rfl⟩
  rw [← hids]
  exact List.map_congr_left fun c _ => position?_modify tree a c fun _ => rfl

theorem echoes_remember_outcome (hnode : tree.node? a = some node)
    (ho : tree.outcomeAt node = .ok o) :
    Echoes tree (tree.modify a fun node => { node with outcome := some o }) := by
  refine .modify hnode ⟨rfl, .inl rfl, ?_⟩
  cases hmemo : node.outcome with
  | none => exact .inr ⟨rfl, o, ho, rfl⟩
  | some o' =>
      rw [outcomeAt, hmemo] at ho
      exact .inl (congrArg some (Except.ok.inj ho).symm)

/-! ## Successors -/

theorem repeats_legalMoves (a : NodeId) : Keeps Repeats (legalMoves a) := by
  intro tree h
  refine ⟨(unfolds_legalMoves a tree h).1, ?_⟩
  change Echoes tree (exec (legalMoves a) tree)
  cases hnode : tree.node? a with
  | none =>
      have hexec : exec (legalMoves a) tree = tree := by
        unfold legalMoves
        rw [exec_bind_of_error (value_node_of_none hnode), exec_node]
      rw [hexec]
      exact .refl tree
  | some node =>
      cases hmemo : node.successors with
      | some ids =>
          rw [(legalMoves_of_children? (children?_eq_some.mpr ⟨node, hnode, hmemo⟩)).2]
          exact .refl tree
      | none =>
          rcases legalMoves_cases h hnode hmemo with ⟨-, -, -, heq⟩ |
            ⟨next, ids, after, hnext, -, hadded, heq⟩
          · rw [heq]
            exact .refl tree
          · rw [heq]
            rw [← hadded.game] at hnext
            exact hadded.echoes.trans (echoes_remember_successors (hadded.node?_eq hnode) hmemo
              hnext hadded.map_position?)

theorem value_stuck (h : Arena tree) (hnode : tree.node? id = some node) :
    value (List.isEmpty <$> legalMoves id) tree = tree.stuckAt node := by
  rw [← bind_pure_comp]
  unfold stuckAt
  cases hmemo : node.successors with
  | some ids =>
      rw [value_bind_of_ok (legalMoves_of_children? (children?_eq_some.mpr ⟨node, hnode, hmemo⟩)).1]
      rfl
  | none =>
      rcases legalMoves_cases h hnode hmemo with ⟨e, hnext, hvalue, -⟩ |
        ⟨next, ids, after, hnext, hvalue, hadded, -⟩
      · rw [value_bind_of_error hvalue]
        dsimp only
        rw [tree.game.stuck_eq_isEmpty, hnext]
        rfl
      · rw [value_bind_of_ok hvalue]
        dsimp only
        rw [stuck_of_successors hnext, ← isEmpty_eq_of_map hadded.map_position?]
        rfl

/-! ## Outcomes -/

/-- On whatever tells what `tree` has told, finding out an outcome by asking for moves comes to
what the game says. -/
theorem value_outcomeBy (h : Arena tree) (hnode : tree.node? id = some node) :
    value (tree.game.outcomeBy node.position (List.isEmpty <$> legalMoves id)) tree =
      tree.game.outcomeBy node.position (tree.stuckAt node) := by
  let Like (later : GameTree) : Prop := Arena later ∧ Echoes tree later
  have hlike : @Sequential TreeM (Except EngineError) _ _ fun _ x r =>
      ∀ later, Like later → value x later = r ∧ Like (exec x later) := by
    refine ⟨fun _ _ hlater => ⟨rfl, hlater⟩, fun {_ _ x r f g} hx hf later hlater => ?_⟩
    obtain ⟨hvalue, hafter⟩ := hx later hlater
    cases r with
    | error e =>
        rw [value_bind_of_error hvalue, exec_bind_of_error hvalue]
        exact ⟨rfl, hafter⟩
    | ok c =>
        rw [value_bind_of_ok hvalue, exec_bind_of_ok hvalue]
        exact hf c _ hafter
  refine (hlike.outcomeBy (tree.stuckAt node) ?_ ?_ tree.game tree ⟨h, .refl tree⟩).1
  · rintro later ⟨harena, hechoes⟩
    obtain ⟨node', hnode', hrecalls⟩ := hechoes.node id node hnode
    refine ⟨(value_stuck harena hnode').trans (hrecalls.stuckAt_eq hechoes.game), ?_⟩
    obtain ⟨harena', hechoes'⟩ := keeps_stuck (repeats_legalMoves id) later harena
    exact ⟨harena', hechoes.trans hechoes'⟩
  · intro later hlater
    rw [value_lift, exec_lift]
    exact ⟨rfl, hlater⟩

theorem value_outcome (h : Arena tree) (hnode : tree.node? id = some node) :
    value (outcome id) tree = tree.outcomeAt node := by
  have hvalue := value_node hnode
  unfold outcome outcomeAt
  rw [value_bind_of_ok hvalue, exec_node]
  cases node.outcome with
  | some o => rfl
  | none =>
      have hget : value (get : TreeM GameTree) tree = .ok tree := rfl
      have hby := value_outcomeBy h hnode
      dsimp only
      rw [value_bind_of_ok hget, exec_get]
      cases hfound : tree.game.outcomeBy node.position (tree.stuckAt node) with
      | error e =>
          rw [hfound] at hby
          rw [value_bind_of_error hby]
      | ok o =>
          rw [hfound] at hby
          rw [value_bind_of_ok hby]
          rfl

theorem repeats_outcome (id : NodeId) : Keeps Repeats (outcome id) := by
  intro tree h
  refine ⟨(unfolds_outcome id tree h).1, ?_⟩
  change Echoes tree (exec (outcome id) tree)
  unfold outcome
  cases hnode : tree.node? id with
  | none =>
      rw [exec_bind_of_error (value_node_of_none hnode), exec_node]
      exact .refl tree
  | some node =>
      rw [exec_bind_of_ok (value_node hnode), exec_node]
      cases hmemo : node.outcome with
      | some o => exact .refl tree
      | none =>
          have hget : value (get : TreeM GameTree) tree = .ok tree := rfl
          have hby := value_outcomeBy h hnode
          have hkeeps : Keeps Repeats
              (tree.game.outcomeBy node.position (List.isEmpty <$> legalMoves id)) :=
            keeps_outcomeBy (keeps_stuck (repeats_legalMoves id))
          obtain ⟨-, hechoes⟩ := hkeeps tree h
          change Echoes tree (exec _ tree) at hechoes
          dsimp only
          rw [exec_bind_of_ok hget, exec_get]
          -- asking for the moves may have changed the tree, but not what it tells
          cases hfound : tree.game.outcomeBy node.position (tree.stuckAt node) with
          | error e =>
              rw [hfound] at hby
              rw [exec_bind_of_error hby]
              exact hechoes
          | ok o =>
              rw [hfound] at hby
              rw [exec_bind_of_ok hby]
              obtain ⟨node', hnode', hrecalls⟩ := hechoes.node id node hnode
              have ho : tree.outcomeAt node = .ok o := by
                rw [outcomeAt, hmemo]
                exact hfound
              rw [← hrecalls.outcomeAt_eq hechoes.game] at ho
              exact hechoes.trans (echoes_remember_outcome hnode' ho)

theorem inquisitive_repeats : Inquisitive Repeats where
  legalMoves := repeats_legalMoves
  outcome := repeats_outcome

/-! ## Reports -/

/-- The positions of the successors that a tree lists for a node. -/
def successorsOf (tree : GameTree) (id : NodeId) : Except EngineError (List (Option Position)) :=
  (value (legalMoves id) tree).map fun ids => ids.map (exec (legalMoves id) tree).position?

/-- What `after` reports of the nodes of `before` is what `before` has reported. -/
structure SameReports (before after : GameTree) : Prop where
  position : ∀ id p, before.position? id = some p → after.position? id = some p
  outcome : ∀ id, before.position? id ≠ none →
    value (GameTree.outcome id) after = value (GameTree.outcome id) before
  /-- A list of successors that is remembered is the same list of nodes. -/
  remembered : ∀ id ids, before.children? id = some ids →
    value (legalMoves id) before = .ok ids ∧ value (legalMoves id) after = .ok ids
  /-- A list of successors that is not has the same positions. -/
  successors : ∀ id, before.position? id ≠ none → before.children? id = none →
    after.successorsOf id = before.successorsOf id

theorem successorsOf_of_none (h : Arena tree) (hnode : tree.node? id = some node)
    (hnone : node.successors = none) :
    tree.successorsOf id = (tree.game.successors node.position).map (·.map some) := by
  unfold successorsOf
  rcases legalMoves_cases h hnode hnone with ⟨e, hnext, hvalue, -⟩ |
    ⟨next, ids, after, hnext, hvalue, hadded, heq⟩
  · rw [hnext, hvalue]
    rfl
  · rw [hnext, hvalue, heq]
    have hsame : ids.map (after.modify id fun node =>
        { node with successors := some ids }).position? = ids.map after.position? :=
      List.map_congr_left fun c _ => position?_modify after id c fun _ => rfl
    exact congrArg Except.ok (hsame.trans hadded.map_position?)

theorem Echoes.sameReports (h : Echoes before after) (hbefore : Arena before)
    (hafter : Arena after) : SameReports before after := by
  refine ⟨h.position?, fun id hid => ?_, fun id ids hids => ?_, fun id hid hnone => ?_⟩
  · obtain ⟨node, hnode⟩ := Option.ne_none_iff_exists'.mp (mt node?_eq_none_iff.mp hid)
    obtain ⟨node', hnode', hrecalls⟩ := h.node id node hnode
    rw [value_outcome hafter hnode', value_outcome hbefore hnode, hrecalls.outcomeAt_eq h.game]
  · obtain ⟨node, hnode, hsuccessors⟩ := children?_eq_some.mp hids
    obtain ⟨node', hnode', hrecalls⟩ := h.node id node hnode
    have hsame : node'.successors = some ids := by
      rcases hrecalls.successors with hsame | ⟨hnone, -⟩
      · rw [hsame, hsuccessors]
      · rw [hnone] at hsuccessors
        cases hsuccessors
    exact ⟨(legalMoves_of_children? hids).1,
      (legalMoves_of_children? (children?_eq_some.mpr ⟨node', hnode', hsame⟩)).1⟩
  · obtain ⟨node, hnode⟩ := Option.ne_none_iff_exists'.mp (mt node?_eq_none_iff.mp hid)
    obtain ⟨node', hnode', hrecalls⟩ := h.node id node hnode
    have hold : node.successors = none := by
      rw [children?, hnode, Option.bind_some] at hnone
      exact hnone
    rw [successorsOf_of_none hbefore hnode hold]
    rcases hrecalls.successors with hsame | ⟨-, next, ids, hnext, hsome, hmap⟩
    · rw [successorsOf_of_none hafter hnode' (hsame.trans hold), h.game, hrecalls.position]
    · obtain ⟨hvalue, hexec⟩ :=
        legalMoves_of_children? (children?_eq_some.mpr ⟨node', hnode', hsome⟩)
      rw [successorsOf, hvalue, hexec, hnext]
      exact congrArg Except.ok hmap

end BoardGame.GameTree
