import BoardGame.Proofs.Ending.Measure
import BoardGame.Proofs.GameTree.Development
import BoardGame.Proofs.Search.Safety
/-!
# Computations that succeed

On a coherent tree the questions that a search asks about a node are answered, unless the game
has no answer. The answers are about positions, so they stay right while the tree develops.
-/

namespace BoardGame

open Stateful
open GameTree (Coherent Develops)

variable {σ V α β : Type} {game : Game} {tree : GameTree} {id parent child : NodeId}
  {p q : Position} {next : List Position} {o : Outcome}

/-- On a coherent tree that has developed from `tree`, `x` comes to a result with the property
`P`, and leaves such a tree too. `view` is the tree in a state. -/
def Succeeds (view : σ → GameTree) (game : Game) (tree : GameTree) (P : GameTree → α → Prop)
    (x : ExceptT EngineError (StateM σ) α) : Prop :=
  ∀ s, Coherent game (view s) → Develops tree (view s) → ∃ a after, Runs x s (.ok a) after ∧
    Coherent game (view after) ∧ Develops (view s) (view after) ∧ P (view after) a

namespace Succeeds

variable {view : σ → GameTree} {P : GameTree → α → Prop} {Q : GameTree → β → Prop}
  {x : ExceptT EngineError (StateM σ) α} {f : α → ExceptT EngineError (StateM σ) β}

theorem bind (hx : Succeeds view game tree P x)
    (hf : ∀ a later, Develops tree later → P later a → Succeeds view game later Q (f a)) :
    Succeeds view game tree Q (x >>= f) := by
  intro s hs hdevelops
  obtain ⟨a, after, hruns, hafter, hlater, ha⟩ := hx s hs hdevelops
  obtain ⟨b, final, hruns', hfinal, hfinished, hb⟩ :=
    hf a (view after) (hdevelops.trans hlater) ha after hafter (Develops.refl _)
  exact ⟨b, final, hruns.bind hruns', hfinal, hlater.trans hfinished, hb⟩

theorem pure {a : α} (h : ∀ later, Develops tree later → P later a) :
    Succeeds view game tree P (Pure.pure a) :=
  fun s hs hdevelops => ⟨a, s, rfl, hs, Develops.refl _, h (view s) hdevelops⟩

theorem imp {P' : GameTree → α → Prop} (hx : Succeeds view game tree P x)
    (h : ∀ later a, Develops tree later → P later a → P' later a) :
    Succeeds view game tree P' x := by
  intro s hs hdevelops
  obtain ⟨a, after, hruns, hafter, hlater, ha⟩ := hx s hs hdevelops
  exact ⟨a, after, hruns, hafter, hlater, h _ a (hdevelops.trans hlater) ha⟩

theorem later {after : GameTree} (hx : Succeeds view game tree P x) (h : Develops tree after) :
    Succeeds view game after P x :=
  fun s hs hdevelops => hx s hs (h.trans hdevelops)

theorem mapM {R : α → β → Prop} {g : α → ExceptT EngineError (StateM σ) β} {l : List α}
    (h : ∀ a ∈ l, Succeeds view game tree (fun _ b => R a b) (g a)) :
    Succeeds view game tree (fun _ bs => List.Forall₂ R l bs) (l.mapM g) := by
  induction l with
  | nil => exact pure fun _ _ => .nil
  | cons a l ih =>
      obtain ⟨ha, hl⟩ := List.forall_mem_cons.mp h
      rw [List.mapM_cons]
      refine ha.bind fun b after hafter hb => ?_
      exact ((ih hl).later hafter).bind fun bs _ _ hbs => pure fun _ _ => .cons hb hbs

theorem forM {g : α → ExceptT EngineError (StateM σ) PUnit} {l : List α}
    (h : ∀ a ∈ l, Succeeds view game tree (fun _ _ => True) (g a)) :
    Succeeds view game tree (fun _ _ => True) (l.forM g) := by
  induction l with
  | nil => exact pure fun _ _ => trivial
  | cons a l ih =>
      obtain ⟨ha, hl⟩ := List.forall_mem_cons.mp h
      exact ha.bind fun _ after hafter _ => (ih hl).later hafter

end Succeeds

/-! ## Questions about the tree -/

namespace GameTree

/-- A computation on the tree succeeds. -/
abbrev Answers (game : Game) (tree : GameTree) (P : GameTree → α → Prop) (x : TreeM α) : Prop :=
  Succeeds (fun tree => tree) game tree P x

theorem answers_of_exec_eq {P : GameTree → α → Prop} {x : TreeM α}
    (hexec : ∀ tree, exec x tree = tree)
    (hvalue : ∀ later, Coherent game later → Develops tree later →
      ∃ a, value x later = .ok a ∧ P later a) : Answers game tree P x := by
  intro later hlater hdevelops
  obtain ⟨a, hvalue, ha⟩ := hvalue later hlater hdevelops
  exact ⟨a, later, Prod.ext hvalue (hexec later), hlater, Develops.refl _, ha⟩

theorem answers_position (hp : tree.position? id = some p) :
    Answers game tree (fun _ q => q = p) (position id) :=
  answers_of_exec_eq (fun tree => exec_position tree id) fun _ _ hdevelops =>
    ⟨p, value_position (hdevelops.position? id p hp), rfl⟩

theorem answers_depth (hp : tree.position? id = some p) :
    Answers game tree (fun _ d => d = p.depth) (depth id) :=
  (answers_position hp).bind fun _ _ _ hq => .pure fun _ _ => congrArg Position.depth hq

theorem answers_sameMover (hp : tree.position? parent = some p)
    (hq : tree.position? child = some q) :
    Answers game tree (fun _ same => same = (p.mover == q.mover)) (sameMover parent child) :=
  (answers_position hp).bind fun _ _ hlater ha =>
    (answers_position (hlater.position? child q hq)).bind fun _ _ _ hb => .pure fun _ _ => by
      rw [ha, hb]

theorem answers_outcome (hp : tree.position? id = some p) (ho : game.outcome p = .ok o) :
    Answers game tree (fun _ o' => o' = o) (outcome id) := by
  intro later hlater hdevelops
  obtain ⟨hvalue, hcoherent, -⟩ := yields_outcome later hlater (hdevelops.position? id p hp)
  exact ⟨o, exec (outcome id) later, Prod.ext (hvalue.trans ho) rfl, hcoherent,
    (unfolds_outcome id later hlater.arena).2.1, rfl⟩

theorem answers_legalMoves (hp : tree.position? id = some p)
    (hnext : game.successors p = .ok next) :
    Answers game tree (fun later ids => ids.map later.position? = next.map some ∧
      later.children? id = some ids) (legalMoves id) := by
  intro later hlater hdevelops
  obtain ⟨hcoherent, -, hspec⟩ := legalMoves_spec hlater (hdevelops.position? id p hp)
  rw [hnext] at hspec
  obtain ⟨ids, hvalue, hids⟩ := hspec
  exact ⟨ids, exec (legalMoves id) later, Prod.ext hvalue rfl, hcoherent,
    (unfolds_legalMoves id later hlater.arena).2.1, hids, children?_legalMoves hlater.arena hvalue⟩

theorem answers_wins (hp : tree.position? parent = some p) (hq : tree.position? child = some q)
    (ho : game.outcome q = .ok o) : Answers game tree (fun _ _ => True) (wins child parent) :=
  (answers_outcome hq ho).bind fun _ _ hlater _ =>
    (answers_sameMover (hlater.position? child q hq) (hlater.position? parent p hp)).bind
      fun _ _ _ _ => .pure fun _ _ => trivial

theorem answers_loses (hp : tree.position? parent = some p) (hq : tree.position? child = some q)
    (ho : game.outcome q = .ok o) : Answers game tree (fun _ _ => True) (loses child parent) :=
  (answers_outcome hq ho).bind fun _ _ hlater _ =>
    (answers_sameMover (hlater.position? child q hq) (hlater.position? parent p hp)).bind
      fun _ _ _ _ => .pure fun _ _ => trivial

end GameTree

/-! ## Parts of a search -/

namespace SearchM

/-- A computation of a search succeeds. -/
abbrev Succeeds (game : Game) (tree : GameTree) (P : GameTree → α → Prop) (x : SearchM V α) :
    Prop :=
  BoardGame.Succeeds SearchState.tree game tree P x

theorem succeeds_onTree {P : GameTree → α → Prop} {x : TreeM α}
    (h : GameTree.Answers game tree P x) : Succeeds game tree P (onTree x : SearchM V α) := by
  intro s hs hdevelops
  obtain ⟨a, after, hruns, hafter, hlater, ha⟩ := h s.tree hs hdevelops
  refine ⟨a, ⟨after, s.statistics, s.generator⟩, ?_, hafter, hlater, ha⟩
  show ((x.run.run s.tree).1,
    (⟨(x.run.run s.tree).2, s.statistics, s.generator⟩ : SearchState V)) = _
  rw [hruns]

theorem succeeds_of_tree_eq {P : GameTree → α → Prop} {x : SearchM V α}
    (h : ∀ s, Coherent game s.tree → Develops tree s.tree → ∃ a after, Runs x s (.ok a) after ∧
      after.tree = s.tree ∧ P s.tree a) : Succeeds game tree P x := by
  intro s hs hdevelops
  obtain ⟨a, after, hruns, heq, ha⟩ := h s hs hdevelops
  rw [← heq] at hs ha
  exact ⟨a, after, hruns, hs, heq ▸ Develops.refl _, ha⟩

theorem succeeds_byChance {P : α → Prop} {x : ChanceM α}
    (h : ∀ g, ∃ a after, Runs x g (.ok a) after ∧ P a) :
    Succeeds game tree (fun _ a => P a) (byChance x : SearchM V α) := by
  refine succeeds_of_tree_eq fun s _ _ => ?_
  obtain ⟨a, after, hruns, ha⟩ := h s.generator
  refine ⟨a, ⟨s.tree, s.statistics, after⟩, ?_, rfl, ha⟩
  show ((x.run.run s.generator).1,
    (⟨s.tree, s.statistics, (x.run.run s.generator).2⟩ : SearchState V)) = _
  rw [hruns]

theorem succeeds_game :
    Succeeds game tree (fun _ g => g = game) (SearchM.game : SearchM V Game) :=
  succeeds_of_tree_eq fun s hs _ => ⟨s.tree.game, s, rfl, rfl, hs.game_eq⟩

theorem succeeds_evictAround (depth : Nat) :
    Succeeds game tree (fun _ _ => True) (evictAround depth : SearchM V Unit) :=
  succeeds_of_tree_eq fun s _ _ =>
    ⟨(), ⟨s.tree, s.statistics.evictAround depth, s.generator⟩, rfl, rfl, trivial⟩

section

variable [Inhabited V]

theorem succeeds_stat (hp : tree.position? id = some p) :
    Succeeds game tree (fun _ _ => True) (stat id : SearchM V (Stat V)) :=
  (succeeds_onTree (GameTree.answers_depth hp)).bind fun d _ _ _ =>
    succeeds_of_tree_eq fun s _ _ => ⟨s.statistics.read d id, s, rfl, rfl, trivial⟩

theorem succeeds_changeStat (hp : tree.position? id = some p) (change : Stat V → Stat V) :
    Succeeds game tree (fun _ _ => True) (changeStat id change : SearchM V Unit) :=
  (succeeds_onTree (GameTree.answers_depth hp)).bind fun d _ _ _ =>
    succeeds_of_tree_eq fun s _ _ =>
      ⟨(), ⟨s.tree, s.statistics.modify d id change, s.generator⟩, rfl, rfl, trivial⟩

end

theorem succeeds_terminalBias (hp : tree.position? parent = some p)
    (hq : tree.position? child = some q) (ho : game.outcome q = .ok o) :
    Succeeds game tree (fun _ _ => True) (terminalBias parent child : SearchM V Float) := by
  refine (succeeds_onTree (GameTree.answers_wins hp hq ho)).bind fun wins later hlater _ => ?_
  cases wins with
  | true => exact .pure fun _ _ => trivial
  | false =>
      have hp := hlater.position? parent p hp
      have hq := hlater.position? child q hq
      refine (succeeds_onTree (GameTree.answers_loses hp hq ho)).bind fun loses _ _ _ => ?_
      cases loses with
      | true => exact .pure fun _ _ => trivial
      | false => exact .pure fun _ _ => trivial

end SearchM

end BoardGame
