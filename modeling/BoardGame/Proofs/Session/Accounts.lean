import BoardGame.Proofs.Search.Decision
import BoardGame.Proofs.SelfPlay.Accounts
import BoardGame.Proofs.Session.Commands
/-!
# Sessions kept to account

A session has one player, whose statistics outlive the plies that it goes past. They do not
outlive a new line: the player forgets its game before the tree is replaced. So after any
commands the ledger covers what the player may still ask for.
-/

namespace BoardGame.Session

open Stateful
open GameTree (Coherent Deep Grows Replies)

variable {α : Type} {game : Game} {tree : GameTree} {node child : NodeId} {p q : Position}
  {s : Session} {l : Ledger}

/-- The computation neither asks the player anything nor changes it, and leaves the tree alone. -/
def Blind (x : SessionM α) : Prop :=
  ∀ s player, value x { s with player } = value x s ∧
    exec x { s with player } = { exec x s with player } ∧ (exec x s).tree = s.tree

/-- The steps of a session, and what they make of the ledger. A move of the player has to be
traced through it. -/
inductive Step : ∀ α : Type, SessionM α → Session → Ledger → Ledger → Prop
  | onTree {α : Type} (x : TreeM α) (s : Session) (l : Ledger) :
      Step α (onTree x) s l (l.carry s.tree (GameTree.exec x s.tree))
  | blind {α : Type} {x : SessionM α} (h : Blind x) (s : Session) (l : Ledger) : Step α x s l l
  | nextMove {id : NodeId} {s : Session} {l l' : Ledger} (h : s.player.Traced s.tree id l l') :
      Step (NodeId × Option Slice) (nextMove id) s l l'
  | reset (game : Game) (base : Position) (s : Session) (l : Ledger) :
      Step Unit (reset game base) s l .blank

/-- The commands are performed one after the other, and each can be traced from what the ones
before have made of the ledger. -/
inductive Traced : Session → Ledger → List (String × List String) → Prop
  | nil (s : Session) (l : Ledger) : Traced s l []
  | cons {s : Session} {l l' : Ledger} {command : String} {args : List String}
      {rest : List (String × List String)}
      (h : Stateful.Traced Step (dispatch command args) s l l')
      (hrest : Traced (s.execute command args).2 l' rest) : Traced s l ((command, args) :: rest)

/-! ## What the steps keep -/

/-- The current node is live, and the ledger covers what the player remembers from there on. -/
structure Standing (game : Game) (s : Session) (l : Ledger) : Prop where
  provided : s.player.Provided
  coherent : Coherent game s.tree
  current : ∃ p, s.tree.position? s.current = some p ∧ s.player.Covered p.depth s.tree l

theorem Standing.grow (h : Standing game s l) (hcoherent : Coherent game tree)
    (hgrows : Grows s.tree tree) : Standing game { s with tree } (l.carry s.tree tree) := by
  obtain ⟨p, hp, hcovered⟩ := h.current
  exact ⟨h.provided, hcoherent, p, hgrows.position? _ p hp,
    hcovered.carry (Nat.le_refl _) (hgrows.holdsFrom p.depth)⟩

theorem Standing.descend (h : Standing game s l) (hp : s.tree.position? s.current = some p)
    (hq : s.tree.position? child = some q) (hle : p.depth ≤ q.depth) (line : List String) :
    let tree := s.tree.retainFrom q.depth
    Standing game { s with line, current := child, tree } (l.carry s.tree tree) := by
  obtain ⟨p', hp', hcovered⟩ := h.current
  obtain rfl := Option.some.inj (hp.symm.trans hp')
  obtain ⟨start, hroot⟩ := h.coherent.arena.exists_rooted
  obtain ⟨hcoherent, -, -, hkept⟩ :=
    h.coherent.retainFrom hroot (Or.inr (h.coherent.depth_le child q hq))
  exact ⟨h.provided, hcoherent, q, hkept child q hq (Nat.le_refl _), hcovered.carry hle hkept⟩

variable {K : Session → Ledger → Prop}

end BoardGame.Session

namespace BoardGame

open Stateful

end BoardGame
