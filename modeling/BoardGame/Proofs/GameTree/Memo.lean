import BoardGame.Proofs.Outcome
import BoardGame.Proofs.GameTree.Coherence
/-!
# Remembered answers

On a coherent tree the successors and the outcome of a node are what the game says
of its position, whether they are computed or remembered.
-/

namespace BoardGame.GameTree

open Stateful (Keeps run_bind run_bind_congr)

variable {game : Game} {tree : GameTree} {id : NodeId} {p : Position}

/-! ## Writing down -/

theorem Coherent.remember_successors (h : Coherent game tree) (hp : tree.position? id = some p)
    {next : List Position} {ids : List NodeId} (hnext : game.successors p = .ok next)
    (hids : ids.map tree.position? = next.map some) :
    Coherent game (tree.modify id fun node => { node with successors := some ids }) ∧
      Grows tree (tree.modify id fun node => { node with successors := some ids }) := by
  refine h.modify id _ (fun _ => rfl) ?_ fun node o hnode ho => h.outcome id node o hnode ho
  intro node ids' hnode hids'
  obtain rfl := position_eq_of_node? hnode hp
  obtain rfl := Option.some.inj hids'
  exact ⟨next, hnext, hids⟩

theorem Coherent.remember_outcome (h : Coherent game tree) (hp : tree.position? id = some p)
    {o : Outcome} (ho : game.outcome p = .ok o) :
    Coherent game (tree.modify id fun node => { node with outcome := some o }) ∧
      Grows tree (tree.modify id fun node => { node with outcome := some o }) := by
  refine h.modify id _ (fun _ => rfl)
    (fun node ids hnode hids => h.successors id node ids hnode hids) ?_
  intro node o' hnode ho'
  obtain rfl := position_eq_of_node? hnode hp
  obtain rfl := Option.some.inj ho'
  exact ho

/-! ## Successors -/

theorem insertAll_spec (h : Coherent game tree) {positions : List Position}
    (hdepth : ∀ q ∈ positions, q.depth ≤ maxDepth) :
    ∃ ids, value (insertAll positions) tree = .ok ids ∧
      Coherent game (exec (insertAll positions) tree) ∧
      Grows tree (exec (insertAll positions) tree) ∧
      ids.map (exec (insertAll positions) tree).position? = positions.map some := by
  induction positions generalizing tree with
  | nil => exact ⟨[], rfl, h, Grows.refl tree, rfl⟩
  | cons q rest ih =>
      let add : TreeM NodeId := modifyGet fun tree => tree.insert q
      have hadd : value add tree = .ok (tree.insert q).1 := rfl
      have hafter : exec add tree = (tree.insert q).2 := rfl
      obtain ⟨hfirst, hgrows⟩ := h.insert (hdepth q List.mem_cons_self)
      obtain ⟨ids, hvalue, hcoherent, hgrows', hids⟩ :=
        ih hfirst fun q' hq' => hdepth q' (List.mem_cons_of_mem q hq')
      have hcons : insertAll (q :: rest) =
          add >>= fun id => insertAll rest >>= fun ids => pure (id :: ids) := List.mapM_cons
      have hexec : exec (insertAll (q :: rest)) tree = exec (insertAll rest) (tree.insert q).2 := by
        rw [hcons, exec_bind_of_ok hadd, hafter, exec_bind_of_ok hvalue]
        rfl
      refine ⟨(tree.insert q).1 :: ids, ?_, ?_⟩
      · rw [hcons, value_bind_of_ok hadd, hafter, value_bind_of_ok hvalue]
        rfl
      · rw [hexec]
        refine ⟨hcoherent, hgrows.trans hgrows', ?_⟩
        have hnew : (tree.insert q).2.position? (tree.insert q).1 = some q := by
          rw [h.arena.position?_insert, if_pos rfl]
        rw [List.map_cons, List.map_cons, hids, hgrows'.position? _ _ hnew]

/-- The successors of a node hold the successors of its position, in order; there are
none exactly when the game fails to give them. -/
theorem legalMoves_spec (h : Coherent game tree) (hp : tree.position? id = some p) :
    Coherent game (exec (legalMoves id) tree) ∧ Grows tree (exec (legalMoves id) tree) ∧
      match game.successors p with
      | .error e => value (legalMoves id) tree = .error e
      | .ok next => ∃ ids, value (legalMoves id) tree = .ok ids ∧
        ids.map (exec (legalMoves id) tree).position? = next.map some := by
  obtain ⟨node, hnode, rfl⟩ := position?_eq_some.mp hp
  have hvalue := value_node hnode
  have hexec := exec_node tree id
  unfold legalMoves
  rw [value_bind_of_ok hvalue, exec_bind_of_ok hvalue, hexec]
  cases hmemo : node.successors with
  | some ids =>
      obtain ⟨next, hnext, hids⟩ := h.successors id node ids hnode hmemo
      refine ⟨h, Grows.refl tree, ?_⟩
      rw [hnext]
      exact ⟨ids, rfl, hids⟩
  | none =>
      have hget : value (get : TreeM GameTree) tree = .ok tree := rfl
      have hgot : exec (get : TreeM GameTree) tree = tree := rfl
      -- not remembered: the game is asked, its answer is put into slots and written down
      dsimp only
      rw [value_bind_of_ok hget, exec_bind_of_ok hget, hgot, h.game_eq]
      have hlift := value_lift (game.successors node.position) tree
      cases hnext : game.successors node.position with
      | error e =>
          rw [hnext] at hlift
          rw [value_bind_of_error hlift, exec_bind_of_error hlift]
          exact ⟨h, Grows.refl tree, rfl⟩
      | ok next =>
          rw [hnext] at hlift
          rw [value_bind_of_ok hlift, exec_bind_of_ok hlift, exec_lift]
          have hdepth : ∀ q ∈ next, q.depth ≤ maxDepth := fun q hq =>
            (Game.follows_of_mem_successors hnext hq).depth_le
          obtain ⟨ids, hids, hcoherent, hgrows, hmap⟩ := insertAll_spec h hdepth
          rw [value_bind_of_ok hids, exec_bind_of_ok hids]
          generalize exec (insertAll next) tree = after at hcoherent hgrows hmap ⊢
          obtain ⟨hwritten, hgrows'⟩ :=
            hcoherent.remember_successors (hgrows.position? id node.position hp) hnext hmap
          exact ⟨hwritten, hgrows.trans hgrows', ids, rfl, hgrows'.map_position? hmap⟩

theorem safe_legalMoves (id : NodeId) : Safe game (legalMoves id) := by
  intro tree h
  cases hnode : tree.node? id with
  | none =>
      have hvalue := value_node_of_none hnode
      unfold legalMoves
      rw [exec_bind_of_error hvalue, exec_node]
      exact ⟨h, Grows.refl tree⟩
  | some node =>
      have hspec := legalMoves_spec h (position?_eq_some.mpr ⟨node, hnode, rfl⟩)
      exact ⟨hspec.1, hspec.2.1⟩

/-! ## Outcomes -/

theorem yields_stuck : Yields game id p (List.isEmpty <$> legalMoves id) (game.stuck p) := by
  intro tree h hp
  obtain ⟨hcoherent, hgrows, hvalue⟩ := legalMoves_spec h hp
  rw [game.stuck_eq_isEmpty, ← bind_pure_comp]
  cases hnext : game.successors p with
  | error e =>
      rw [hnext] at hvalue
      rw [value_bind_of_error hvalue, exec_bind_of_error hvalue]
      exact ⟨rfl, hcoherent, hgrows⟩
  | ok next =>
      rw [hnext] at hvalue
      obtain ⟨ids, hids, hmap⟩ := hvalue
      rw [value_bind_of_ok hids, exec_bind_of_ok hids]
      refine ⟨?_, hcoherent, hgrows⟩
      have hlength := congrArg List.isEmpty hmap
      rw [List.isEmpty_map, List.isEmpty_map] at hlength
      show Except.ok ids.isEmpty = Except.ok next.isEmpty
      rw [hlength]

theorem yields_outcomeBy {noMoves : TreeM Bool} {r : Except EngineError Bool}
    (hmoves : Yields game id p noMoves r) :
    Yields game id p (game.outcomeBy p noMoves) (game.outcomeBy p r) := by
  have hyields : @Sequential TreeM (Except EngineError) _ _ fun _ x r => Yields game id p x r :=
    ⟨Yields.pure, Yields.bind⟩
  exact hyields.outcomeBy r hmoves (Yields.lift _) game

theorem yields_outcome : Yields game id p (GameTree.outcome id) (game.outcome p) := by
  intro tree h hp
  obtain ⟨node, hnode, hposition⟩ := position?_eq_some.mp hp
  have hvalue := value_node hnode
  unfold GameTree.outcome
  rw [value_bind_of_ok hvalue, exec_bind_of_ok hvalue, exec_node]
  cases hmemo : node.outcome with
  | some o =>
      rw [← hposition, h.outcome id node o hnode hmemo]
      exact ⟨rfl, h, Grows.refl tree⟩
  | none =>
      have hget : value (get : TreeM GameTree) tree = .ok tree := rfl
      have hgot : exec (get : TreeM GameTree) tree = tree := rfl
      dsimp only
      rw [value_bind_of_ok hget, exec_bind_of_ok hget, hgot, h.game_eq, hposition]
      have hstuck : Yields game id p (List.isEmpty <$> legalMoves id) (game.stuck p) :=
        yields_stuck
      obtain ⟨hby, hcoherent, hgrows⟩ := yields_outcomeBy hstuck tree h hp
      change value _ tree = game.outcome p at hby
      cases ho : game.outcome p with
      | error e =>
          rw [ho] at hby
          rw [value_bind_of_error hby, exec_bind_of_error hby]
          exact ⟨rfl, hcoherent, hgrows⟩
      | ok o =>
          rw [ho] at hby
          rw [value_bind_of_ok hby, exec_bind_of_ok hby]
          generalize exec (game.outcomeBy p (List.isEmpty <$> legalMoves id)) tree = after
            at hcoherent hgrows ⊢
          obtain ⟨hwritten, hgrows'⟩ :=
            hcoherent.remember_outcome (hgrows.position? id p hp) ho
          exact ⟨rfl, hwritten, hgrows.trans hgrows'⟩

theorem safe_outcome (id : NodeId) : Safe game (GameTree.outcome id) := by
  intro tree h
  cases hnode : tree.node? id with
  | none =>
      have hvalue := value_node_of_none hnode
      unfold GameTree.outcome
      rw [exec_bind_of_error hvalue, exec_node]
      exact ⟨h, Grows.refl tree⟩
  | some node =>
      have hspec := yields_outcome tree h (position?_eq_some.mpr ⟨node, hnode, rfl⟩)
      exact hspec.2

/-! ## Searching the successors -/

theorem exec_position (tree : GameTree) (id : NodeId) : exec (position id) tree = tree := by
  cases hnode : tree.node? id with
  | none =>
      unfold position
      rw [exec_bind_of_error (value_node_of_none hnode), exec_node]
  | some node =>
      unfold position
      rw [exec_bind_of_ok (value_node hnode), exec_node]
      rfl

theorem run_position_bind {α : Type} (hp : tree.position? id = some p) (f : Position → TreeM α) :
    (position id >>= f).run.run tree = (f p).run.run tree := by
  have hvalue : Stateful.value (position id) tree = .ok p := value_position hp
  rw [run_bind, hvalue]
  exact congrArg (f p).run.run (exec_position tree id)

theorem value_moveName {c : NodeId} {q : Position} (hgame : tree.game = game)
    (hq : tree.position? c = some q) :
    value (moveName c) tree = .ok (game.moveName q) ∧ exec (moveName c) tree = tree := by
  have hget : value (get : TreeM GameTree) tree = .ok tree := rfl
  have hposition := value_position hq
  unfold moveName
  rw [value_bind_of_ok hget, exec_bind_of_ok hget, exec_get, value_bind_of_ok hposition,
    exec_bind_of_ok hposition, exec_position, hgame]
  exact ⟨rfl, rfl⟩

theorem value_moveNameFrom {c : NodeId} {q : Position} (hgame : tree.game = game)
    (hp : tree.position? id = some p) (hq : tree.position? c = some q) :
    value (moveNameFrom id c) tree = .ok (game.moveName q) ∧
      exec (moveNameFrom id c) tree = tree := by
  unfold value exec moveNameFrom
  rw [run_position_bind hp]
  exact value_moveName hgame hq

/-- `r` is a slot that holds `q`, or there is neither. -/
def Shows (tree : GameTree) (r : Option NodeId) (q : Option Position) : Prop :=
  r.map tree.position? = q.map some

theorem shows_some {c : NodeId} {q : Position} (h : tree.position? c = some q) :
    Shows tree (some c) (some q) :=
  congrArg some h

theorem Shows.exists_slot {r : Option NodeId} {q : Position} (h : Shows tree r (some q)) :
    ∃ c, r = some c ∧ tree.position? c = some q := by
  cases r with
  | none => cases h
  | some c => exact ⟨c, rfl, Option.some.inj h⟩

theorem Shows.eq_none {r : Option NodeId} (h : Shows tree r none) : r = none :=
  Option.map_eq_none_iff.mp h

/-- Looking for a slot by a test of its position finds where the first such position is. -/
theorem findM?_spec {test : NodeId → TreeM Bool} {accepts : Position → Bool}
    (htest : ∀ c q, tree.position? c = some q →
      value (test c) tree = .ok (accepts q) ∧ exec (test c) tree = tree)
    {ids : List NodeId} {next : List Position} (hids : ids.map tree.position? = next.map some) :
    ∃ r, value (ids.findM? test) tree = .ok r ∧ exec (ids.findM? test) tree = tree ∧
      Shows tree r (next.find? accepts) ∧ ∀ c ∈ r, c ∈ ids := by
  induction ids generalizing next with
  | nil =>
      have hnext : next = [] := by simpa using hids.symm
      subst hnext
      exact ⟨none, rfl, rfl, rfl, nofun⟩
  | cons c ids ih =>
      cases next with
      | nil => cases hids
      | cons q next =>
          obtain ⟨hq, hrest⟩ := List.cons.inj hids
          obtain ⟨hvalue, hexec⟩ := htest c q hq
          unfold List.findM?
          rw [value_bind_of_ok hvalue, exec_bind_of_ok hvalue, hexec, List.find?_cons]
          cases accepts q with
          | true =>
              refine ⟨some c, rfl, rfl, shows_some hq, fun c' hc' => ?_⟩
              exact Option.some.inj hc' ▸ List.mem_cons_self
          | false =>
              obtain ⟨r, hr, hafter, hshows, hmem⟩ := ih hrest
              exact ⟨r, hr, hafter, hshows, fun c' hc' => List.mem_cons_of_mem c (hmem c' hc')⟩

section

variable {next : List Position}

theorem search_spec (h : Coherent game tree) (hp : tree.position? id = some p)
    (hnext : game.successors p = .ok next) {test : NodeId → TreeM Bool}
    {accepts : Position → Bool} (htest : ∀ after : GameTree, after.game = game →
      ∀ c q, after.position? c = some q →
        value (test c) after = .ok (accepts q) ∧ exec (test c) after = after) :
    ∃ r, value (legalMoves id >>= fun ids => ids.findM? test) tree = .ok r ∧
      Shows (exec (legalMoves id >>= fun ids => ids.findM? test) tree) r (next.find? accepts) := by
  obtain ⟨hcoherent, -, hspec⟩ := legalMoves_spec h hp
  rw [hnext] at hspec
  obtain ⟨ids, hids, hmap⟩ := hspec
  rw [value_bind_of_ok hids, exec_bind_of_ok hids]
  obtain ⟨r, hvalue, hexec, hshows, -⟩ := findM?_spec (htest _ hcoherent.game_eq) hmap
  rw [hvalue, hexec]
  exact ⟨r, rfl, hshows⟩

theorem named_spec (name : String) (hgame : tree.game = game) {c : NodeId} {q : Position}
    (hq : tree.position? c = some q) :
    value (do return (← moveName c) == name) tree = .ok (game.moveName q == name) ∧
      exec (do return (← moveName c) == name) tree = tree := by
  obtain ⟨hvalue, hexec⟩ := value_moveName hgame hq
  rw [value_bind_of_ok hvalue, exec_bind_of_ok hvalue, hexec]
  exact ⟨rfl, rfl⟩

theorem run_findNamed (h : Coherent game tree) (hp : tree.position? id = some p) (name : String) :
    (findNamed id name).run.run tree = (legalMoves id >>= fun ids =>
      ids.findM? fun c => do return (← moveName c) == name).run.run tree :=
  run_bind_congr fun _ _ =>
    run_position_bind ((legalMoves_spec h hp).2.1.position? id p hp) _

theorem findNamed_spec (h : Coherent game tree) (hp : tree.position? id = some p)
    (hnext : game.successors p = .ok next) (name : String) :
    ∃ r, value (findNamed id name) tree = .ok r ∧ Shows (exec (findNamed id name) tree) r
      (next.find? fun q => game.moveName q == name) := by
  unfold value exec
  rw [run_findNamed h hp]
  exact search_spec h hp hnext fun after hgame c q hq => named_spec name hgame hq

theorem findMove_spec (h : Coherent game tree) (hp : tree.position? id = some p)
    (hnext : game.successors p = .ok next) (origin : Option Square) (target : Square) :
    ∃ r, value (findMove id origin target) tree = .ok r ∧
      Shows (exec (findMove id origin target) tree) r
        (next.find? fun q => q.last.target == target && origin.all (· == q.last.origin)) := by
  apply search_spec h hp hnext
  intro after _ c q hq
  have hvalue := value_position hq
  rw [value_bind_of_ok hvalue, exec_bind_of_ok hvalue, exec_position]
  exact ⟨rfl, rfl⟩

end

/-! ## Questions -/

/-- `T` allows what asking about a node does to a tree. -/
structure Inquisitive (T : GameTree → GameTree → Prop) : Prop where
  legalMoves : ∀ id, Keeps T (legalMoves id)
  outcome : ∀ id, Keeps T (GameTree.outcome id)

theorem inquisitive_extends (game : Game) : Inquisitive (Extends game) where
  legalMoves := safe_legalMoves
  outcome := safe_outcome

section

variable {T : GameTree → GameTree → Prop} [IsPreorder GameTree T]

theorem keeps_position (id : NodeId) : Keeps T (position id) :=
  .of_exec_eq fun tree => exec_position tree id

theorem keeps_sameMover (a b : NodeId) : Keeps T (sameMover a b) :=
  (keeps_position a).bind fun _ => (keeps_position b).bind fun _ => .pure _

theorem keeps_moveName (child : NodeId) : Keeps T (moveName child) :=
  Keeps.get.bind fun _ => (keeps_position child).bind fun _ => .pure _

theorem keeps_moveNameFrom (parent child : NodeId) : Keeps T (moveNameFrom parent child) :=
  (keeps_position parent).bind fun _ => keeps_moveName child

namespace Inquisitive

theorem wins (h : Inquisitive T) (child parent : NodeId) : Keeps T (wins child parent) :=
  (h.outcome child).bind fun _ => (keeps_sameMover child parent).bind fun _ => .pure _

theorem loses (h : Inquisitive T) (child parent : NodeId) : Keeps T (loses child parent) :=
  (h.outcome child).bind fun _ => (keeps_sameMover child parent).bind fun _ => .pure _

theorem findMove (h : Inquisitive T) (id : NodeId) (origin : Option Square) (target : Square) :
    Keeps T (findMove id origin target) :=
  (h.legalMoves id).bind (.findM? fun child => (keeps_position child).bind fun _ => .pure _)

theorem findNamed (h : Inquisitive T) (id : NodeId) (name : String) :
    Keeps T (findNamed id name) :=
  (h.legalMoves id).bind fun ids => (keeps_position id).bind fun _ =>
    .findM? (fun child => (keeps_moveName child).bind fun _ => .pure _) ids

end Inquisitive

end

end BoardGame.GameTree
