import BoardGame.Player
import BoardGame.Proofs.GameTree.Memo
/-!
# Searches only add to the tree

Whatever a search does, and wherever it fails, the tree that it works on stays coherent and
keeps its nodes. Of the strategies it is used only that they leave the counting of visits to
the search: their parts keep every relation between states that allows all the rest.
-/

namespace BoardGame

open Stateful

variable {V : Type} {game : Game} {α β : Type}

namespace SearchM

/-- The tree of a search has changed as `T` allows. -/
def OnTrees (T : GameTree → GameTree → Prop) (before after : SearchState V) : Prop :=
  T before.tree after.tree

instance {T : GameTree → GameTree → Prop} [IsPreorder GameTree T] :
    IsPreorder (SearchState V) (OnTrees T) where
  refl s := refl_of T s.tree
  trans a b c := trans_of T (a := a.tree) (b := b.tree) (c := c.tree)

/-- The tree of a search has grown. -/
abbrev Extends (game : Game) : SearchState V → SearchState V → Prop :=
  OnTrees (GameTree.Extends game)

/-- `x` adds to coherent trees and keeps them coherent. -/
abbrev Safe (game : Game) (x : SearchM V α) : Prop :=
  Keeps (Extends game) x

/-! ## Parts of a search -/

theorem exec_onTree (x : TreeM α) (s : SearchState V) :
    exec (onTree x) s = ⟨GameTree.exec x s.tree, s.statistics, s.generator⟩ := rfl

section

variable {R : SearchState V → SearchState V → Prop} [IsPreorder (SearchState V) R]

theorem keeps_onTree_of_exec_eq {x : TreeM α} (h : ∀ tree, GameTree.exec x tree = tree) :
    Keeps R (onTree x : SearchM V α) := by
  refine .of_exec_eq fun s => ?_
  rw [exec_onTree, h s.tree]

theorem keeps_onTree_bind {x : TreeM α} {f : α → TreeM β} (hx : Keeps R (onTree x : SearchM V α))
    (hf : ∀ a, Keeps R (onTree (f a) : SearchM V β)) :
    Keeps R (onTree (x >>= f) : SearchM V β) := by
  intro s
  rw [exec_onTree]
  cases hvalue : GameTree.value x s.tree with
  | error e =>
      rw [GameTree.exec_bind_of_error hvalue]
      exact hx s
  | ok a =>
      rw [GameTree.exec_bind_of_ok hvalue]
      exact trans_of R (hx s) (hf a ⟨GameTree.exec x s.tree, s.statistics, s.generator⟩)

theorem keeps_onTree_pure (a : α) : Keeps R (onTree (pure a) : SearchM V α) :=
  keeps_onTree_of_exec_eq fun _ => rfl

theorem keeps_game : Keeps R (SearchM.game : SearchM V Game) :=
  .of_exec_eq fun _ => rfl

theorem keeps_position (id : NodeId) :
    Keeps R (onTree (GameTree.position id) : SearchM V Position) :=
  keeps_onTree_of_exec_eq fun tree => GameTree.exec_position tree id

theorem keeps_depth (id : NodeId) : Keeps R (onTree (GameTree.depth id) : SearchM V Nat) :=
  keeps_onTree_bind (keeps_position id) fun _ => keeps_onTree_pure _

theorem keeps_sameMover (a b : NodeId) :
    Keeps R (onTree (GameTree.sameMover a b) : SearchM V Bool) :=
  keeps_onTree_bind (keeps_position a) fun _ =>
    keeps_onTree_bind (keeps_position b) fun _ => keeps_onTree_pure _

theorem keeps_stat [Inhabited V] (id : NodeId) : Keeps R (stat id : SearchM V (Stat V)) :=
  (keeps_depth id).bind fun _ => Keeps.get.bind fun _ => .pure _

theorem keeps_recordSlice (root : NodeId) (moves : List NodeId) (shares : List Float) :
    Keeps R (recordSlice root moves shares : SearchM V Slice) :=
  keeps_game.bind fun _ => (keeps_position root).bind fun _ =>
    (Keeps.mapM (fun (child, _) => (keeps_position child).bind fun _ => .pure _) _).bind fun _ =>
      .pure _

theorem keeps_expanded [Inhabited V] (id : NodeId) :
    Keeps R (Strategy.expanded id : SearchM V Bool) :=
  (keeps_stat id).bind fun _ => .pure _

end

/-- `R` allows a search to look: to ask the tree and to draw. -/
structure Curious (R : SearchState V → SearchState V → Prop) : Prop where
  legalMoves : ∀ id, Keeps R (onTree (GameTree.legalMoves id) : SearchM V (List NodeId))
  outcome : ∀ id, Keeps R (onTree (GameTree.outcome id) : SearchM V Outcome)
  byChance : ∀ {α : Type} (x : ChanceM α), Keeps R (byChance x : SearchM V α)

/-- `R` allows a search all but counting visits: to look, and to value nodes. -/
structure Permissive [Inhabited V] (R : SearchState V → SearchState V → Prop) : Prop
    extends Curious R where
  value : ∀ (id : NodeId) (change : Stat V → V),
    Keeps R (changeStat id fun stat => { stat with value := change stat })

namespace Curious

variable {R : SearchState V → SearchState V → Prop} [IsPreorder (SearchState V) R]

theorem wins (h : Curious R) (child parent : NodeId) :
    Keeps R (onTree (GameTree.wins child parent) : SearchM V Bool) :=
  keeps_onTree_bind (h.outcome child) fun _ =>
    keeps_onTree_bind (keeps_sameMover child parent) fun _ => keeps_onTree_pure _

theorem loses (h : Curious R) (child parent : NodeId) :
    Keeps R (onTree (GameTree.loses child parent) : SearchM V Bool) :=
  keeps_onTree_bind (h.outcome child) fun _ =>
    keeps_onTree_bind (keeps_sameMover child parent) fun _ => keeps_onTree_pure _

theorem verdicts (h : Curious R) (parent : NodeId) (moves : List NodeId) :
    Keeps R (verdicts parent moves : SearchM V (List Verdict)) :=
  (keeps_position parent).bind fun _ => .mapM (fun child =>
    (h.outcome child).bind fun _ => (keeps_position child).bind fun _ => .pure _) moves

theorem terminalBias (h : Curious R) (parent child : NodeId) :
    Keeps R (terminalBias parent child : SearchM V Float) :=
  (h.wins child parent).bind fun _ => .ite (.pure _) <|
    (h.loses child parent).bind fun _ => .ite (.pure _) (.pure _)

end Curious

/-! ## Trees -/

section

variable {T : GameTree → GameTree → Prop}

theorem keeps_onTree {x : TreeM α} (h : Keeps T x) : Keeps (OnTrees T) (onTree x : SearchM V α) :=
  fun s => h s.tree

variable [IsPreorder GameTree T]

theorem keeps_of_tree_eq {x : SearchM V α} (h : ∀ s, (exec x s).tree = s.tree) :
    Keeps (OnTrees T) x := by
  intro s
  unfold OnTrees
  rw [h s]
  exact refl_of T s.tree

theorem keeps_evictAround (depth : Nat) :
    Keeps (OnTrees T) (evictAround depth : SearchM V Unit) :=
  keeps_of_tree_eq fun _ => rfl

theorem keeps_changeStat [Inhabited V] (id : NodeId) (change : Stat V → Stat V) :
    Keeps (OnTrees T) (changeStat id change : SearchM V Unit) :=
  (keeps_depth id).bind fun _ => keeps_of_tree_eq fun _ => rfl

theorem permissive_onTrees [Inhabited V] (hT : GameTree.Inquisitive T) :
    Permissive (OnTrees T : SearchState V → SearchState V → Prop) where
  legalMoves id := keeps_onTree (hT.legalMoves id)
  outcome id := keeps_onTree (hT.outcome id)
  byChance _ := keeps_of_tree_eq fun _ => rfl
  value id _ := keeps_changeStat id _

end

/-! ## Picking a move -/

section Picking

variable {root : NodeId} {pick : α → NodeId}

/-- `x` only adds to the tree, and if it comes to a result it picks a successor of the
position that `root` holds. -/
def Finds (game : Game) (root : NodeId) (pick : α → NodeId) (x : SearchM V α) : Prop :=
  ∀ s p, GameTree.Coherent game s.tree → s.tree.position? root = some p →
    (GameTree.Coherent game (exec x s).tree ∧ GameTree.Grows s.tree (exec x s).tree) ∧
      ∀ a, value x s = .ok a → ∃ next, game.successors p = .ok next ∧
        ∃ q ∈ next, (exec x s).tree.position? (pick a) = some q

theorem Finds.bind {x : SearchM V β} {f : β → SearchM V α} (hx : Safe game x)
    (hf : ∀ b, Finds game root pick (f b)) : Finds game root pick (x >>= f) := by
  intro s p hs hp
  obtain ⟨hs', hgrows⟩ := hx s hs
  cases hb : value x s with
  | error e =>
      rw [exec_bind_of_error hb, value_bind_of_error hb]
      exact ⟨⟨hs', hgrows⟩, nofun⟩
  | ok b =>
      obtain ⟨⟨hs'', hgrows'⟩, hpick⟩ := hf b _ p hs' (hgrows.position? root p hp)
      rw [exec_bind_of_ok hb, value_bind_of_ok hb]
      exact ⟨⟨hs'', hgrows.trans hgrows'⟩, hpick⟩

theorem Finds.of_legalMoves {f : List NodeId → SearchM V α} (hsafe : ∀ moves, Safe game (f moves))
    (hmem : ∀ moves, Returns (fun a => pick a ∈ moves) (f moves)) :
    Finds game root pick (onTree (GameTree.legalMoves root) >>= f) := by
  intro s p hs hp
  refine ⟨(keeps_onTree ((GameTree.inquisitive_extends game).legalMoves root)).bind hsafe s hs,
    fun a ha => ?_⟩
  obtain ⟨moves, hmoves, hpick⟩ := value_bind_eq_ok ha
  rw [exec_bind_of_ok hmoves]
  obtain ⟨hs', -, hspec⟩ := GameTree.legalMoves_spec hs hp
  have hvalue : GameTree.value (GameTree.legalMoves root) s.tree = .ok moves := hmoves
  cases hnext : game.successors p with
  | error e =>
      rw [hnext, hvalue] at hspec
      cases hspec
  | ok next =>
      rw [hnext, hvalue] at hspec
      obtain ⟨ids, hids, hmap⟩ := hspec
      obtain rfl := Except.ok.inj hids
      obtain ⟨-, hgrows⟩ := hsafe moves (exec (onTree (GameTree.legalMoves root)) s) hs'
      exact ⟨next, rfl, GameTree.exists_position_of_mem (hgrows.map_position? hmap)
        (hmem moves _ a hpick)⟩

theorem mem_of_bind_getElem? {index : Option Nat} {moves : List NodeId} {child : NodeId}
    (h : index.bind (moves[·]?) = some child) : child ∈ moves := by
  obtain ⟨i, -, hi⟩ := Option.bind_eq_some_iff.mp h
  exact List.mem_of_getElem? hi

end Picking

end SearchM

/-! ## Searches by any strategy -/

open SearchM

/-- `x` lists the moves from a node and then does what every permissive relation allows. -/
def SearchM.Appraises [Inhabited V] (id : NodeId) (x : SearchM V Unit) : Prop :=
  ∃ judge : List NodeId → SearchM V Unit, x = onTree (GameTree.legalMoves id) >>= judge ∧
    ∀ (R : SearchState V → SearchState V → Prop) [IsPreorder (SearchState V) R],
      Permissive R → ∀ moves, Keeps R (judge moves)

/-- To judge moves a strategy only looks, and to appraise a node it does nothing but what every
permissive relation allows. -/
structure Strategy.Tame [Inhabited V] (strategy : Strategy V) : Prop where
  priority : ∀ (R : SearchState V → SearchState V → Prop) [IsPreorder (SearchState V) R],
    Curious R → ∀ parent child, Keeps R (strategy.priority parent child)
  appraise : ∀ id, Appraises id (strategy.appraise id)
  weigh : ∀ (R : SearchState V → SearchState V → Prop) [IsPreorder (SearchState V) R],
    Curious R → ∀ depth root moves, Keeps R (strategy.weigh depth root moves)

variable [Inhabited V] {strategy : Strategy V}

theorem Strategy.Tame.keeps_appraise {R : SearchState V → SearchState V → Prop}
    [IsPreorder (SearchState V) R] (h : strategy.Tame) (hR : Permissive R) (id : NodeId) :
    Keeps R (strategy.appraise id) := by
  obtain ⟨judge, heq, hjudge⟩ := h.appraise id
  rw [heq]
  exact (hR.legalMoves id).bind (hjudge R hR)

namespace MonteCarlo

omit [Inhabited V] in
/-- After a child there is a best one: the child or the one that was the best before. -/
theorem exists_bestFrom_cons (strategy : Strategy V) (parent child : NodeId)
    (best : Option (NodeId × Float)) (rest : List NodeId) :
    ∃ better : Float → NodeId × Float,
      (∀ priority, better priority = (child, priority) ∨ best = some (better priority)) ∧
        bestFrom strategy parent best (child :: rest) =
          strategy.priority parent child >>= fun priority =>
            bestFrom strategy parent (some (better priority)) rest := by
  cases best with
  | none => exact ⟨fun priority => (child, priority), fun _ => .inl rfl, rfl⟩
  | some b =>
      refine ⟨fun priority => if decide (b.2 < priority) then (child, priority) else b,
        fun priority => ?_, ?_⟩
      · by_cases hbetter : decide (b.2 < priority) = true
        · exact .inl (if_pos hbetter)
        · exact .inr (congrArg some (if_neg hbetter).symm)
      · refine bind_congr fun priority => ?_
        dsimp only
        rw [apply_ite some]

section

variable {R : SearchState V → SearchState V → Prop} [IsPreorder (SearchState V) R]

theorem keeps_bestFrom (h : strategy.Tame) (hR : Curious R) (parent : NodeId)
    (best : Option (NodeId × Float)) (moves : List NodeId) :
    Keeps R (bestFrom strategy parent best moves) := by
  induction moves generalizing best with
  | nil => exact .pure _
  | cons child rest ih => exact (h.priority R hR parent child).bind fun _ => ih _

theorem keeps_bestChild (h : strategy.Tame) (hR : Curious R) (parent : NodeId) :
    Keeps R (bestChild strategy parent) := by
  refine (hR.legalMoves parent).bind fun moves => (keeps_bestFrom h hR parent none moves).bind ?_
  intro best
  cases best with
  | none => exact .throw _
  | some child => exact .pure child

theorem keeps_passable (hR : Curious R) (id : NodeId) :
    Keeps R (passable id : SearchM V Bool) :=
  (keeps_expanded id).bind fun _ => .ite ((hR.outcome id).bind fun _ => .pure _) (.pure _)

theorem keeps_descendFrom (h : strategy.Tame) (hR : Curious R) (fuel : Nat) (node : NodeId) :
    Keeps R (descendFrom strategy fuel node) := by
  induction fuel generalizing node with
  | zero => exact .pure _
  | succ fuel ih =>
      refine (keeps_passable hR node).bind fun _ => .ite ?_ (.pure _)
      exact (keeps_bestChild h hR node).bind fun child => (ih child).bind fun _ => .pure _

theorem keeps_descend (h : strategy.Tame) (hR : Curious R) (root : NodeId) :
    Keeps R (descend strategy root) :=
  Keeps.get.bind fun _ => keeps_descendFrom h hR _ root

omit [Inhabited V] in
theorem keeps_ensurePlayable (hR : Curious R) (id : NodeId) :
    Keeps R (onTree (ensurePlayable id) : SearchM V Unit) := by
  refine keeps_onTree_bind (hR.outcome id) fun outcome => ?_
  cases outcome.isTerminal with
  | true => exact keeps_onTree_of_exec_eq fun _ => rfl
  | false =>
      refine keeps_onTree_bind (hR.legalMoves id) fun moves => ?_
      cases moves.isEmpty with
      | true => exact keeps_onTree_of_exec_eq fun _ => rfl
      | false => exact keeps_onTree_pure ()

end

end MonteCarlo

namespace Strategy

/-- What is looked at to draw one of the moves that have been listed, and the move drawn. -/
def drawFrom (strategy : Strategy V) (depth : Nat) (root : NodeId) (moves : List NodeId) :
    SearchM V (Slice × Option NodeId) := do
  let weighed ← strategy.weigh depth root moves
  let slice ← SearchM.recordSlice root moves weighed.2
  let verdicts ← SearchM.verdicts root moves
  let index ← pickIndex verdicts weighed.1
  return (slice, index.bind (moves[·]?))

/-- What is done to pick one of the moves that have been listed. -/
def pickFrom (strategy : Strategy V) (root : NodeId) (moves : List NodeId) :
    SearchM V (NodeId × Slice) := do
  if moves.isEmpty then
    throw (.invariant .noMovesToPickFrom)
  let depth ← GameTree.depth root
  let drawn ← strategy.drawFrom depth root moves
  match drawn.2 with
  | none => throw (.invariant .noPick)
  | some child =>
    SearchM.evictAround depth
    return (child, drawn.1)

omit [Inhabited V] in
theorem pickMove_eq (strategy : Strategy V) (root : NodeId) :
    strategy.pickMove root = onTree (GameTree.legalMoves root) >>= strategy.pickFrom root := by
  unfold pickFrom drawFrom
  simp only [bind_assoc, pure_bind]
  rfl

theorem keeps_drawFrom {R : SearchState V → SearchState V → Prop} [IsPreorder (SearchState V) R]
    (h : strategy.Tame) (hR : Curious R) (depth : Nat) (root : NodeId) (moves : List NodeId) :
    Keeps R (strategy.drawFrom depth root moves) :=
  (h.weigh R hR depth root moves).bind fun weighed =>
    (keeps_recordSlice root moves weighed.2).bind fun _ => (hR.verdicts root moves).bind fun _ =>
      (hR.byChance _).bind fun _ => .pure _

omit [Inhabited V] in
theorem returns_drawFrom (strategy : Strategy V) (depth : Nat) (root : NodeId)
    (moves : List NodeId) :
    Returns (fun drawn => ∀ child ∈ drawn.2, child ∈ moves)
      (strategy.drawFrom depth root moves) :=
  .bind fun _ => .bind fun _ => .bind fun _ => .bind fun _ =>
    .pure fun _ hchild => mem_of_bind_getElem? hchild

omit [Inhabited V] in
/-- The move that is drawn is picked, and the statistics of the ply are dropped. -/
theorem pickFrom_spec {strategy : Strategy V} {root child : NodeId} {moves : List NodeId}
    {slice : Slice} {s : SearchState V}
    (hvalue : value (strategy.pickFrom root moves) s = .ok (child, slice)) :
    ∃ depth, value (onTree (GameTree.depth root)) s = .ok depth ∧
      value (strategy.drawFrom depth root moves) s = .ok (slice, some child) ∧
      exec (strategy.pickFrom root moves) s =
        exec (evictAround depth) (exec (strategy.drawFrom depth root moves) s) := by
  unfold pickFrom at hvalue ⊢
  cases hempty : moves.isEmpty with
  | true =>
      rw [hempty] at hvalue
      cases hvalue
  | false =>
      rw [hempty] at hvalue
      obtain ⟨depth, hdepth, hrest⟩ := value_bind_eq_ok hvalue
      have hfirst : Runs (onTree (GameTree.depth root) : SearchM V Nat) s (.ok depth) s :=
        Prod.ext hdepth (keeps_depth (R := Eq) root s).symm
      rw [show exec (GameTree.depth root : SearchM V Nat) s = s from hfirst.exec_eq] at hrest
      obtain ⟨⟨slice', drawn⟩, hdraw, hpick⟩ := value_bind_eq_ok hrest
      cases drawn with
      | none => cases hpick
      | some child' =>
          obtain ⟨rfl, rfl⟩ := Prod.mk.inj (Except.ok.inj hpick)
          exact ⟨depth, hdepth, hdraw,
            (hfirst.bind ((Runs.of_value hdraw).bind (.self _ _))).exec_eq⟩

omit [Inhabited V] in
theorem returns_pickFrom (strategy : Strategy V) (root : NodeId) (moves : List NodeId) :
    Returns (fun picked => picked.1 ∈ moves) (strategy.pickFrom root moves) := by
  intro s picked hvalue
  obtain ⟨depth, -, hdraw, -⟩ := pickFrom_spec hvalue
  exact returns_drawFrom strategy depth root moves s _ hdraw picked.1 rfl

section

variable {T : GameTree → GameTree → Prop} [IsPreorder GameTree T]

theorem keeps_pickFrom (h : strategy.Tame) (hT : GameTree.Inquisitive T) (root : NodeId)
    (moves : List NodeId) : Keeps (OnTrees T) (strategy.pickFrom root moves) := by
  refine .ite (.throw _) ((keeps_depth root).bind fun depth => ?_)
  refine (keeps_drawFrom h (permissive_onTrees hT).toCurious depth root moves).bind fun drawn => ?_
  cases drawn.2 with
  | none => exact .throw _
  | some child => exact (keeps_evictAround depth).bind fun _ => .pure _

theorem keeps_pickMove (h : strategy.Tame) (hT : GameTree.Inquisitive T) (root : NodeId) :
    Keeps (OnTrees T) (strategy.pickMove root) := by
  rw [pickMove_eq]
  exact (keeps_onTree (hT.legalMoves root)).bind (keeps_pickFrom h hT root)

theorem keeps_expand (h : strategy.Tame) (hT : GameTree.Inquisitive T) (id : NodeId) :
    Keeps (OnTrees T) (strategy.expand id) :=
  (keeps_onTree (hT.outcome id)).bind fun _ => .ite
    ((h.keeps_appraise (permissive_onTrees hT) id).bind fun _ => keeps_changeStat id _)
    (keeps_changeStat id _)

theorem keeps_carryUp (strategy : Strategy V) (value : V) (leaf : NodeId) (depth : Nat)
    (ancestor : NodeId) : Keeps (OnTrees T) (strategy.carryUp value leaf depth ancestor) :=
  (keeps_sameMover ancestor leaf).bind fun _ => (keeps_depth ancestor).bind fun _ =>
    keeps_changeStat ancestor _

theorem keeps_backprop (strategy : Strategy V) (path : List NodeId) (leaf : NodeId) :
    Keeps (OnTrees T) (strategy.backprop path leaf) :=
  (keeps_stat leaf).bind fun _ => (keeps_depth leaf).bind fun _ =>
    .forM (fun ancestor => keeps_carryUp strategy _ leaf _ ancestor) path

end

theorem finds_pickMove (h : strategy.Tame) (root : NodeId) :
    Finds game root (·.1) (strategy.pickMove root) := by
  rw [pickMove_eq]
  exact .of_legalMoves (keeps_pickFrom h (GameTree.inquisitive_extends game) root)
    (returns_pickFrom strategy root)

end Strategy

namespace MonteCarlo

section

variable {T : GameTree → GameTree → Prop} [IsPreorder GameTree T]

theorem keeps_iterate (h : strategy.Tame) (hT : GameTree.Inquisitive T) (root : NodeId) :
    Keeps (OnTrees T) (iterate strategy root) :=
  (keeps_descend h (permissive_onTrees hT).toCurious root).bind fun (path, leaf) =>
    (Strategy.keeps_expand h hT leaf).bind fun _ => Strategy.keeps_backprop strategy path leaf

theorem keeps_iterateTimes (h : strategy.Tame) (hT : GameTree.Inquisitive T) (root : NodeId)
    (n : Nat) : Keeps (OnTrees T) (iterateTimes strategy root n) := by
  induction n with
  | zero => exact .pure _
  | succ n ih => exact (keeps_iterate h hT root).bind fun _ => ih

theorem keeps_search (h : strategy.Tame) (hT : GameTree.Inquisitive T) (root : NodeId) :
    Keeps (OnTrees T) (search strategy root) :=
  (keeps_ensurePlayable (permissive_onTrees hT).toCurious root).bind fun _ =>
    (keeps_iterateTimes h hT root _).bind fun _ => Strategy.keeps_pickMove h hT root

end

theorem finds_search (h : strategy.Tame) (root : NodeId) :
    Finds game root (·.1) (search strategy root) :=
  have hT := GameTree.inquisitive_extends game
  .bind (keeps_ensurePlayable (permissive_onTrees hT).toCurious root) fun _ =>
    .bind (keeps_iterateTimes h hT root _) fun _ => Strategy.finds_pickMove h root

end MonteCarlo

/-! ## Picking by chance -/

namespace Player

/-- One of the moves that have been listed is picked by chance. -/
def pickByChanceFrom (root : NodeId) (moves : List NodeId) : SearchM Unit NodeId := do
  let verdicts ← SearchM.verdicts root moves
  match (← pickIndex verdicts (moves.map fun _ => 1)).bind (moves[·]?) with
  | some child => return child
  | none => throw (.invariant .noPick)

variable {T : GameTree → GameTree → Prop} [IsPreorder GameTree T]

theorem keeps_pickByChanceFrom (hT : GameTree.Inquisitive T) (root : NodeId)
    (moves : List NodeId) : Keeps (OnTrees T) (pickByChanceFrom root moves) := by
  have hR := permissive_onTrees (V := Unit) hT
  refine (hR.verdicts root moves).bind fun verdicts => (hR.byChance _).bind fun index => ?_
  cases index.bind (moves[·]?) with
  | none => exact .throw _
  | some child => exact .pure child

theorem keeps_pickByChance (hT : GameTree.Inquisitive T) (root : NodeId) :
    Keeps (OnTrees T) (pickByChance root) :=
  (MonteCarlo.keeps_ensurePlayable (permissive_onTrees hT).toCurious root).bind fun _ =>
    (keeps_onTree (hT.legalMoves root)).bind fun moves => keeps_pickByChanceFrom hT root moves

theorem finds_pickByChance (root : NodeId) : Finds game root id (pickByChance root) := by
  have hT := GameTree.inquisitive_extends game
  apply Finds.bind (MonteCarlo.keeps_ensurePlayable (permissive_onTrees hT).toCurious root)
  intro _
  apply Finds.of_legalMoves (keeps_pickByChanceFrom hT root)
  intro moves
  refine .bind fun verdicts => .bind fun index => ?_
  cases hchild : index.bind (moves[·]?) with
  | none => exact .throw _
  | some child => exact .pure (mem_of_bind_getElem? hchild)

end Player

end BoardGame
