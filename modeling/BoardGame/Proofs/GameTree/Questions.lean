import BoardGame.Proofs.Audit
import BoardGame.Proofs.GameTree.Memo
/-!
# Questions to live nodes

Whoever holds on to a node of a tree risks that it is evicted. A question about a node that the
tree still has may fail for many reasons, but not for that one, and a computation that asks
such questions only can be audited while the tree grows under it.
-/

namespace BoardGame

open Stateful

variable {σ γ α β : Type} {game : Game} {p q : Position}

/-! ## Failures -/

/-- A node was asked about after its eviction. -/
def EngineError.IsEviction (e : EngineError) : Prop :=
  ∃ index, e = .invariant (.evictedNode index)

/-- There is a result with the property `P`, or a failure that no eviction is to blame for. -/
def Met (P : α → Prop) : Except EngineError α → Prop
  | .ok a => P a
  | .error e => ¬ e.IsEviction

theorem Met.imp {P Q : α → Prop} {r : Except EngineError α} (h : Met P r)
    (himp : ∀ a, P a → Q a) : Met Q r := by
  cases r with
  | ok a => exact himp a h
  | error e => exact h

theorem Met.bind {P : α → Prop} {Q : β → Prop} {r : Except EngineError α}
    {f : α → Except EngineError β} (h : Met P r) (hf : ∀ a, P a → Met Q (f a)) :
    Met Q (r >>= f) := by
  cases r with
  | ok a => exact hf a h
  | error e => exact h

theorem Met.map {P : α → Prop} {Q : β → Prop} {r : Except EngineError α} {f : α → β}
    (h : Met P r) (hf : ∀ a, P a → Q (f a)) : Met Q (r.map f) := by
  cases r with
  | ok a => exact hf a h
  | error e => exact h

theorem Met.mapM {f : α → Except EngineError β} (h : ∀ a, Met (fun _ => True) (f a))
    (l : List α) : Met (fun _ => True) (l.mapM f) := by
  induction l with
  | nil => exact trivial
  | cons a l ih =>
      rw [List.mapM_cons]
      exact (h a).bind fun _ _ => ih.bind fun _ _ => trivial

theorem FailsByRules.met {r : Except EngineError α} (h : FailsByRules r) :
    Met (fun _ => True) r := by
  cases r with
  | ok a => exact trivial
  | error e =>
      obtain ⟨cause, rfl⟩ := h e rfl
      exact nofun

namespace Game

theorem met_successors (game : Game) (p : Position) : Met (fun _ => True) (game.successors p) :=
  (game.successors_failsByRules p).met

theorem met_outcome (game : Game) (p : Position) : Met (fun _ => True) (game.outcome p) :=
  (game.outcome_failsByRules p).met

end Game

/-! ## Questions -/

namespace GameTree

variable {tree : GameTree} {id a b : NodeId} {least : Nat}

/-- A node is live and no shallower than `least`. -/
def Deep (least : Nat) (tree : GameTree) (id : NodeId) : Prop :=
  ∃ p, tree.position? id = some p ∧ least ≤ p.depth

theorem Deep.later {later : GameTree} (h : Deep least tree id) (hgrows : Grows tree later) :
    Deep least later id :=
  let ⟨p, hp, hle⟩ := h
  ⟨p, hgrows.position? id p hp, hle⟩

theorem Deep.mono {least' : Nat} (h : Deep least tree id) (hle : least' ≤ least) :
    Deep least' tree id :=
  let ⟨p, hp, hdeep⟩ := h
  ⟨p, hp, Nat.le_trans hle hdeep⟩

/-- On a coherent tree that has grown from `tree`, the computation adds to the tree and keeps it
coherent. It comes to a result with the property `P`, unless it fails otherwise than by
eviction. -/
def Replies (game : Game) (tree : GameTree) (P : GameTree → α → Prop) (x : TreeM α) : Prop :=
  ∀ later, Coherent game later → Grows tree later → Coherent game (exec x later) ∧
    Grows later (exec x later) ∧ Met (P (exec x later)) (value x later)

namespace Replies

variable {P : GameTree → α → Prop} {Q : GameTree → β → Prop} {x : TreeM α} {f : α → TreeM β}

theorem pure {c : α} (h : ∀ later, Grows tree later → P later c) :
    Replies game tree P (Pure.pure c) :=
  fun later hlater hgrows => ⟨hlater, Grows.refl later, h later hgrows⟩

theorem throw {e : EngineError} (h : ¬ e.IsEviction) : Replies game tree P (throw e) :=
  fun later hlater _ => ⟨hlater, Grows.refl later, h⟩

theorem bind (hx : Replies game tree P x)
    (hf : ∀ c later, Grows tree later → P later c → Replies game later Q (f c)) :
    Replies game tree Q (x >>= f) := by
  intro later hlater hgrows
  obtain ⟨hcoherent, hgrows', hmet⟩ := hx later hlater hgrows
  cases hvalue : value x later with
  | error e =>
      rw [hvalue] at hmet
      rw [value_bind_of_error hvalue, exec_bind_of_error hvalue]
      exact ⟨hcoherent, hgrows', hmet⟩
  | ok c =>
      rw [hvalue] at hmet
      obtain ⟨hcoherent', hgrows'', hmet'⟩ :=
        hf c _ (hgrows.trans hgrows') hmet _ hcoherent (Grows.refl _)
      rw [value_bind_of_ok hvalue, exec_bind_of_ok hvalue]
      exact ⟨hcoherent', hgrows'.trans hgrows'', hmet'⟩

theorem of_yields {r : Except EngineError α} (hx : Yields game id p x r)
    (hr : Met (fun _ => True) r) (hp : tree.position? id = some p) :
    Replies game tree (fun _ a => r = .ok a) x := by
  intro later hlater hgrows
  obtain ⟨hvalue, hcoherent, hgrows'⟩ := hx later hlater (hgrows.position? id p hp)
  refine ⟨hcoherent, hgrows', ?_⟩
  rw [hvalue]
  cases r with
  | ok a => exact rfl
  | error e => exact hr

end Replies

theorem replies_position (hp : tree.position? id = some p) :
    Replies game tree (fun _ q => q = p) (position id) := by
  intro later hlater hgrows
  rw [exec_position, value_position (hgrows.position? id p hp)]
  exact ⟨hlater, Grows.refl later, rfl⟩

theorem replies_depth (hp : tree.position? id = some p) :
    Replies game tree (fun _ d => d = p.depth) (depth id) :=
  (replies_position hp).bind fun _ _ _ hq => .pure fun _ _ => congrArg Position.depth hq

theorem replies_sameMover (ha : Deep least tree a) (hb : Deep least tree b) :
    Replies game tree (fun _ _ => True) (sameMover a b) := by
  obtain ⟨p, hp, -⟩ := ha
  refine (replies_position hp).bind fun _ _ hgrows _ => ?_
  obtain ⟨q, hq, -⟩ := hb.later hgrows
  exact (replies_position hq).bind fun _ _ _ _ => .pure fun _ _ => trivial

theorem replies_moveName (hp : tree.position? id = some p) :
    Replies game tree (fun _ name => name = game.moveName p) (moveName id) := by
  intro later hlater hgrows
  obtain ⟨hvalue, hexec⟩ := value_moveName hlater.game_eq (hgrows.position? id p hp)
  rw [hvalue, hexec]
  exact ⟨hlater, Grows.refl later, rfl⟩

theorem replies_outcome (hp : tree.position? id = some p) :
    Replies game tree (fun _ o => game.outcome p = .ok o) (outcome id) :=
  .of_yields yields_outcome (game.met_outcome p) hp

theorem replies_moveNameFrom {parent : NodeId} {p q : Position}
    (hp : tree.position? parent = some p) (hq : tree.position? id = some q) :
    Replies game tree (fun _ name => name = game.moveName q) (moveNameFrom parent id) :=
  (replies_position hp).bind fun _ _ hgrows _ => replies_moveName (hgrows.position? id q hq)

theorem replies_legalMoves (hp : tree.position? id = some p) :
    Replies game tree (fun later ids => ∀ c ∈ ids, Deep p.depth later c) (legalMoves id) := by
  intro later hlater hgrows
  have hp := hgrows.position? id p hp
  obtain ⟨hcoherent, hgrows', hspec⟩ := legalMoves_spec hlater hp
  refine ⟨hcoherent, hgrows', ?_⟩
  have hmet := game.met_successors p
  cases hnext : game.successors p with
  | error e =>
      rw [hnext] at hspec hmet
      rw [hspec]
      exact hmet
  | ok next =>
      rw [hnext] at hspec
      obtain ⟨ids, hids, hmap⟩ := hspec
      rw [hids]
      intro c hc
      obtain ⟨q, hq, hposition⟩ := exists_position_of_mem hmap hc
      have hfollows := Game.follows_of_mem_successors hnext hq
      exact ⟨q, hposition, hfollows.le_depth (hlater.depth_le id p hp)⟩

theorem replies_wins (hchild : Deep least tree a) (hparent : Deep least tree b) :
    Replies game tree (fun _ _ => True) (wins a b) := by
  have ⟨q, hq, _⟩ := hchild
  exact (replies_outcome hq).bind fun _ _ hgrows _ =>
    (replies_sameMover (hchild.later hgrows) (hparent.later hgrows)).bind fun _ _ _ _ =>
      .pure fun _ _ => trivial

theorem replies_loses (hchild : Deep least tree a) (hparent : Deep least tree b) :
    Replies game tree (fun _ _ => True) (loses a b) := by
  have ⟨q, hq, _⟩ := hchild
  exact (replies_outcome hq).bind fun _ _ hgrows _ =>
    (replies_sameMover (hchild.later hgrows) (hparent.later hgrows)).bind fun _ _ _ _ =>
      .pure fun _ _ => trivial

end GameTree

end BoardGame
