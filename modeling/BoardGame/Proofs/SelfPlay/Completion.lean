import BoardGame.Proofs.Search.Decision
import BoardGame.Proofs.SelfPlay.Accounts
/-!
# Games are played to the end

Between players that always find a move, a game that ends is never broken off: whatever the
match asks of its tree is answered, and at the end there is a record.
-/

namespace BoardGame

open Stateful
open GameTree (Answers Coherent Develops Grows)

variable {α : Type} {game : Game} {tree : GameTree} {id : NodeId} {p : Position} {n : Nat}
  {m : Match}

theorem Player.Standard.next {player : Player} (h : player.Standard) (tree : GameTree)
    (id : NodeId) : (player.next tree id).2.1.Standard := by
  cases h with
  | random generator => exact .random _
  | vanilla params statistics generator => exact .vanilla params _ _
  | alphaZero hevaluator params statistics generator => exact .alphaZero hevaluator params _ _
  | dirichlet params statistics generator => exact .dirichlet params _ _

theorem Player.Standard.provided {player : Player} (h : player.Standard) : player.Provided := by
  cases h with
  | random generator => exact .random generator
  | vanilla params statistics generator => exact .vanilla params statistics generator
  | alphaZero _ params statistics generator => exact .alphaZero _ params statistics generator
  | dirichlet params statistics generator => exact .dirichlet params statistics generator

theorem GameTree.answers_moveNameFrom {parent : NodeId} {p q : Position}
    (hp : tree.position? parent = some p) (hq : tree.position? id = some q) :
    Answers game tree (fun _ name => name = game.moveName q) (moveNameFrom parent id) := by
  intro later hlater hdevelops
  obtain ⟨hvalue, hexec⟩ := value_moveNameFrom hlater.game_eq
    (hdevelops.position? parent p hp) (hdevelops.position? id q hq)
  exact ⟨_, later, Prod.ext hvalue hexec, hlater, Develops.refl later, rfl⟩

namespace Match

/-- The players of a match always find a move. -/
structure Ready (game : Game) (m : Match) : Prop where
  coherent : Coherent game m.tree
  standard : ∀ side, (m.player side).Standard

namespace Ready

theorem asks {P : GameTree → α → Prop} {x : TreeM α} (h : Ready game m)
    (hx : Answers game m.tree P x) :
    ∃ a after, Runs (onTree x) m (.ok a) after ∧ Ready game after ∧ Grows m.tree after.tree ∧
      P after.tree a := by
  obtain ⟨a, tree, hruns, hcoherent, hdevelops, ha⟩ :=
    hx m.tree h.coherent (Develops.refl m.tree)
  exact ⟨a, { m with tree }, runs_onTree hruns, ⟨hcoherent, h.standard⟩, hdevelops.toGrows, ha⟩

theorem moves (h : Ready game m) (hends : game.Ends) (hencodable : game.Encodable)
    (hp : m.tree.position? id = some p) (hreachable : game.Reachable p)
    (hopen : game.outcome p = .ok .undetermined) {next : List Position}
    (hnext : game.successors p = .ok next) :
    ∃ move after, Runs (Match.next p.mover id) m (.ok move) after ∧ Ready game after ∧
      after.tree.position? id = some p ∧ ∃ q ∈ next, after.tree.position? move.1 = some q := by
  have hstandard := h.standard p.mover
  have hmoves := hstandard.provided.next h.coherent hp
  obtain ⟨child, slice, hmove, ⟨⟨moves, -, hlisted, hchild⟩, -⟩, -⟩ :=
    hstandard.decides hends hencodable h.coherent ⟨hp, hreachable⟩ hopen hnext
  obtain ⟨q, hq, hposition⟩ := GameTree.exists_position_of_mem hlisted hchild
  have hruns := runs_next m p.mover id
  dsimp only at hruns
  rw [hmove] at hruns
  refine ⟨(child, slice), _, hruns, ⟨?_, ?_⟩, ?_, q, hq, ?_⟩
  · rw [tree_after]
    exact hmoves.coherent
  · rw [player_after]
    exact (Function.forall_update_iff m.player fun _ player => player.Standard).mpr
      ⟨hstandard.next m.tree id, fun other _ => h.standard other⟩
  · rw [tree_after]
    exact hmoves.grows.position? id p hp
  · rw [tree_after]
    exact hposition

theorem advances (h : Ready game m) (hp : m.tree.position? id = some p)
    (hcounted : p.depth ≤ maxDepth) :
    ∃ after, Runs (onTree (Match.advance id)) m (.ok ()) after ∧ Ready game after ∧
      after.tree.position? id = some p := by
  obtain ⟨start, hroot⟩ := h.coherent.arena.exists_rooted
  obtain ⟨hcoherent, -, -, hkept⟩ := h.coherent.retainFrom hroot (Or.inr hcounted)
  obtain ⟨hvalue, hexec⟩ := Session.runs_advance hp
  exact ⟨{ m with tree := m.tree.retainFrom p.depth }, runs_onTree (Prod.ext hvalue hexec),
    ⟨hcoherent, h.standard⟩, hkept id p hp (Nat.le_refl _)⟩

/-- The match goes on until the game is over. -/
theorem exists_playFrom (h : Ready game m) (hends : game.Ends) (hencodable : game.Encodable)
    (hp : m.tree.position? id = some p) (hreachable : game.Reachable p)
    (hleft : game.EndsWithin n p) {fuel : Nat} (hfuel : n < fuel) :
    ∃ rest after final, Runs (playFrom fuel id) m (.ok rest) after ∧ Coherent game after.tree ∧
      after.tree.position? rest.2.2 = some final ∧
        ∃ o, game.outcome final = .ok o ∧ o.isTerminal = true := by
  obtain ⟨fuel, rfl⟩ := Nat.exists_eq_add_one_of_ne_zero (Nat.ne_zero_of_lt hfuel)
  induction hleft generalizing m id fuel with
  | @ended n p next o hnext ho hover =>
      obtain ⟨o', m₁, hruns₁, h₁, hgrows₁, rfl⟩ := h.asks (GameTree.answers_outcome hp ho)
      have hover : o'.isTerminal = true := bne_iff_ne.mpr hover
      refine ⟨([], [], id), m₁, p, hruns₁.bind ?_, h₁.coherent, hgrows₁.position? id p hp, o', ho,
        hover⟩
      rw [if_pos hover]
      rfl
  | @onward n p next hnext hopen _ _ ih =>
      obtain ⟨o, m₁, hruns₁, h₁, hgrows₁, rfl⟩ := h.asks (GameTree.answers_outcome hp hopen)
      have hp := hgrows₁.position? id p hp
      obtain ⟨pos, m₂, hruns₂, h₂, hgrows₂, rfl⟩ := h₁.asks (GameTree.answers_position hp)
      have hp := hgrows₂.position? id pos hp
      obtain ⟨move, m₃, hruns₃, h₃, hparent, q, hq, hchild⟩ :=
        h₂.moves hends hencodable hp hreachable hopen hnext
      obtain ⟨name, m₄, hruns₄, h₄, hgrows₄, -⟩ :=
        h₃.asks (GameTree.answers_moveNameFrom hparent hchild)
      have hfollows := Game.follows_of_mem_successors hnext hq
      obtain ⟨m₅, hruns₅, h₅, hchild⟩ :=
        h₄.advances (hgrows₄.position? _ q hchild) hfollows.depth_le
      obtain ⟨fuel, rfl⟩ : ∃ k, fuel = k + 1 := ⟨fuel - 1, by omega⟩
      obtain ⟨rest, after, final, hruns, hrest⟩ :=
        ih q hq h₅ hchild (hreachable.step hnext hq) fuel (by omega)
      refine ⟨(name :: rest.1, move.2.toList ++ rest.2.1, rest.2.2), after, final,
        hruns₁.bind ?_, hrest⟩
      exact hruns₂.bind (hruns₃.bind (hruns₄.bind (hruns₅.bind (hruns.bind rfl))))

end Ready

theorem exists_certify {rest : List String × List Slice × NodeId} {final : Position} {o : Outcome}
    (hcoherent : Coherent game m.tree) (hfinal : m.tree.position? rest.2.2 = some final)
    (ho : game.outcome final = .ok o) (hover : o.isTerminal = true) :
    ∃ r after, Runs (certify rest) m (.ok r) after := by
  obtain ⟨o', tree, houtcome, -, hdevelops, rfl⟩ :=
    GameTree.answers_outcome hfinal ho m.tree hcoherent (Develops.refl _)
  have hposition : Runs (GameTree.position rest.2.2) tree (.ok final) tree :=
    Prod.ext (GameTree.value_position (hdevelops.position? _ final hfinal))
      (GameTree.exec_position tree _)
  obtain ⟨instances, hlabels⟩ :
      ∃ instances, TrainingInstance.ofGame final o' rest.2.1 = .ok instances :=
    ⟨_, if_pos hover⟩
  refine ⟨⟨final, o', rest.1, instances⟩, { m with tree },
    (runs_onTree houtcome).bind ((runs_onTree hposition).bind ?_)⟩
  rw [hlabels]
  rfl

theorem exists_record (hends : game.Ends) (hencodable : game.Encodable) {start : Position}
    (hstart : game.initial = .ok start) (hcoherent : Coherent game m.tree)
    (hroot : m.tree.Rooted start) (hstandard : ∀ side, (m.player side).Standard) :
    ∃ r, value play m = .ok r := by
  obtain ⟨n, hn, hleft⟩ := hends start (.initial hstart)
  have hready : Ready game m := ⟨hcoherent, hstandard⟩
  have hstarts : Runs (onTree (do return (← get).start)) m (.ok m.tree.start) m := rfl
  obtain ⟨rest, m₁, final, hplayed, hcoherent, hfinal, o, ho, hover⟩ :=
    hready.exists_playFrom hends hencodable hroot (.initial hstart) hleft hn
  let m₂ : Match := ⟨m₁.tree, m₁.white.gameOver, m₁.black.gameOver⟩
  have hforgets : Runs gameOver m₁ (.ok ()) m₂ := rfl
  obtain ⟨r, after, hrecord⟩ := exists_certify (m := m₂) hcoherent hfinal ho hover
  rw [play_eq]
  exact ⟨r, (hstarts.bind (hplayed.bind (hforgets.bind hrecord))).value_eq⟩

end Match

end BoardGame
