import BoardGame.Proofs.SelfPlay.Completion
import BoardGame.Proofs.Session.Line
/-!
# Records of games

The record of a game can be checked against the rules alone, without the tree, the players and
chance. Its moves lead from the initial position to the final one, and its instances are the
positions on the way that a player has searched, labelled with the result.
-/

namespace BoardGame

open Stateful
open GameTree (Grows)

variable {game : Game} {searching : Side → Bool} {p q start final : Position}
  {next : List Position} {name : String} {names : List String} {slices : List Slice} {n : Nat}

/-! ## Lines -/

namespace Game

/-- The positions in which the moves of a line are made, one for each move. -/
def stations (game : Game) (p : Position) (names : List String) : List Position :=
  (List.range names.length).filterMap fun k => game.follow p (names.take k)

/-- Before each move of a line the game is open, and the move is the only one of its name. -/
def Allows (game : Game) (start : Position) (names : List String) : Prop :=
  ∀ k (hk : k < names.length), ∃ p next, game.follow start (names.take k) = some p ∧
    game.outcome p = .ok .undetermined ∧ game.successors p = .ok next ∧
      ∃! q, q ∈ next ∧ game.moveName q = names[k]

theorem follow_cons (hnext : game.successors p = .ok next)
    (hfind : (next.find? fun r => game.moveName r == name) = some q) :
    game.follow p (name :: names) = game.follow q names := by
  rw [follow, hnext]
  dsimp only
  rw [hfind]

theorem stations_cons (hnext : game.successors p = .ok next)
    (hfind : (next.find? fun r => game.moveName r == name) = some q) :
    game.stations p (name :: names) = p :: game.stations q names := by
  have hrest : (fun k => game.follow p ((name :: names).take k)) ∘ Nat.succ =
      fun k => game.follow q (names.take k) :=
    funext fun k => follow_cons hnext hfind
  unfold stations
  rw [List.length_cons, List.range_succ_eq_map, List.filterMap_cons, List.filterMap_map, hrest]
  rfl

end Game

/-! ## Results -/

theorem Outcome.eq_undetermined {o : Outcome} (hopen : o.isTerminal = false) :
    o = .undetermined :=
  bne_eq_false_iff_eq.mp hopen

theorem TrainingInstance.resultFor_spec {o : Outcome} (hover : o.isTerminal = true)
    (mover side : Side) :
    (resultFor (o.winner mover) side = 1 ↔ o.winner mover = some side) ∧
      (resultFor (o.winner mover) side = -1 ↔ o.winner mover = some side.opponent) ∧
      (resultFor (o.winner mover) side = 0 ↔ o = .draw) := by
  cases o <;> cases mover <;> cases side <;> first | contradiction | decide

theorem TrainingInstance.ofGame_eq_ok {o : Outcome} {instances : List TrainingInstance} :
    ofGame final o slices = .ok instances ↔ o.isTerminal = true ∧
      instances = slices.map fun s => ⟨s.board, s.mover, final.depth,
        resultFor (o.winner final.mover) s.mover, s.shares⟩ := by
  unfold ofGame
  split
  next hover =>
    exact ⟨fun h => ⟨hover, (Except.ok.inj h).symm⟩, fun h => congrArg Except.ok h.2.symm⟩
  next hopen => exact ⟨nofun, fun h => absurd h.1 hopen⟩

/-! ## Records -/

namespace GameRecord

/-- The instance shows a position, and what its mover made of the game. -/
structure Labels (r : GameRecord) (p : Position) (t : TrainingInstance) : Prop where
  board : t.board = p.board
  mover : t.mover = p.mover
  gameLength : t.gameLength = r.final.depth
  won : t.result = 1 ↔ r.winner = some p.mover
  lost : t.result = -1 ↔ r.winner = some p.mover.opponent
  drawn : t.result = 0 ↔ r.outcome = .draw

/-- A record that says what has been played from a position, in which `searching` tells the
sides whose positions have been recorded. -/
structure Faithful (game : Game) (searching : Side → Bool) (start : Position) (r : GameRecord) :
    Prop where
  replayed : game.follow start r.moves = some r.final
  length : r.moves.length = r.final.depth
  allowed : game.Allows start r.moves
  decided : game.outcome r.final = .ok r.outcome ∧ r.outcome.isTerminal = true
  instances : List.Forall₂ r.Labels
    ((game.stations start r.moves).filter fun p => searching p.mover) r.instances

end GameRecord

/-! ## Games that have been logged -/

namespace Match

namespace Logged

theorem follow (h : Logged game searching p names slices final) (hregular : game.Regular)
    (hp : game.Playable p) : game.follow p names = some final := by
  induction h with
  | ended => rfl
  | ply _ _ hnext hq _ _ ih =>
      rw [Game.follow_cons hnext (hregular.find?_moveName hp hnext hq)]
      exact ih (hp.step hnext hq)

theorem allowed (h : Logged game searching p names slices final) (hregular : game.Regular)
    (hp : game.Playable p) : game.Allows p names := by
  induction h with
  | ended => exact nofun
  | @ply p q final o next names slice slices ho hopen hnext hq _ _ ih =>
      intro k hk
      cases k with
      | zero =>
          rw [Outcome.eq_undetermined hopen] at ho
          refine ⟨p, next, rfl, ho, hnext, q, ⟨hq, rfl⟩, fun q' hq' => ?_⟩
          exact hregular.moveName p next hp hnext q' hq'.1 q hq hq'.2
      | succ k =>
          rw [List.take_succ_cons, Game.follow_cons hnext (hregular.find?_moveName hp hnext hq)]
          exact ih (hp.step hnext hq) k (Nat.lt_of_succ_lt_succ hk)

/-- A player that searches leaves a slice for each of its positions, and no other does. -/
theorem depicted (h : Logged game searching p names slices final) (hregular : game.Regular)
    (hp : game.Playable p) :
    List.Forall₂ (fun p slice => slice.Depicts p)
      ((game.stations p names).filter fun p => searching p.mover) slices := by
  induction h with
  | ended => exact .nil
  | @ply p q final o next names slice slices _ _ hnext hq hslice _ ih =>
      have hrest := ih (hp.step hnext hq)
      obtain ⟨hsearching, hdepicts⟩ := hslice
      rw [Game.stations_cons hnext (hregular.find?_moveName hp hnext hq)]
      cases slice with
      | none =>
          rw [List.filter_cons_of_neg (by simp [← hsearching])]
          exact hrest
      | some slice =>
          rw [List.filter_cons_of_pos (by simp [← hsearching])]
          exact .cons (hdepicts slice rfl) hrest

theorem length_add (h : Logged game searching p names slices final)
    (hends : game.EndsWithin n p) (hcounted : p.depth + n ≤ maxDepth) :
    names.length + p.depth = final.depth := by
  induction h generalizing n with
  | ended => exact Nat.zero_add _
  | @ply p q final o next names slice slices ho hopen hnext hq _ _ ih =>
      rw [Outcome.eq_undetermined hopen] at ho
      obtain ⟨m, rfl, hlater⟩ := hends.step ho hnext hq
      have hdepth := (Game.follows_of_mem_successors hnext hq).depth_eq
      have hroom : q.depth + m ≤ maxDepth := by omega
      have hrest := ih hlater hroom
      rw [List.length_cons]
      omega

end Logged

theorem Recorded.faithful {r : GameRecord} (h : Recorded game searching start r)
    (hregular : game.Regular) (hstart : game.initial = .ok start)
    (hends : game.EndsWithin n start) (hfew : n ≤ maxDepth) :
    r.Faithful game searching start := by
  obtain ⟨⟨slices, hlogged, hinstances⟩, houtcome⟩ := h
  obtain ⟨hover, hlabels⟩ := TrainingInstance.ofGame_eq_ok.mp hinstances
  have hplayable := Game.Playable.initial hstart
  have hdepth : start.depth = 0 := RuleSet.depth_initial (Game.initial_of_eq_ok hstart)
  refine ⟨hlogged.follow hregular hplayable, ?_, hlogged.allowed hregular hplayable,
    ⟨houtcome, hover⟩, ?_⟩
  · have hlength := hlogged.length_add hends (by omega)
    omega
  · rw [hlabels, List.forall₂_map_right_iff]
    refine (hlogged.depicted hregular hplayable).imp fun p slice hslice => ?_
    obtain ⟨hwon, hlost, hdrawn⟩ :=
      TrainingInstance.resultFor_spec hover r.final.mover slice.mover
    refine ⟨hslice.board, hslice.mover, rfl, ?_, ?_, hdrawn⟩
    · rw [← hslice.mover]
      exact hwon
    · rw [← hslice.mover]
      exact hlost

/-- Players of the built-in games that play from a fresh tree never come to ask about a position
that has been dropped, and the record that they leave is faithful. Unless an evaluator fails
them, they leave one. -/
theorem play_faithful {id : String} (hgame : Registry.builtIn.create id = .ok game)
    {tree : GameTree} (htree : GameTree.ofGame game = .ok tree) {white black : Player}
    (hwhite : white.Provided) (hblack : black.Provided) :
    let m : Match := ⟨tree, white, black⟩
    (∀ e, value play m = .error e → ¬ e.IsEviction) ∧
      (∀ r, value play m = .ok r → ∃ start, game.initial = .ok start ∧
        r.Faithful game (fun side => (m.player side).searches) start) ∧
      (white.Standard → black.Standard → ∃ r, value play m = .ok r) := by
  intro m
  obtain ⟨start, hstart, htree⟩ := bind_eq_ok.mp htree
  obtain rfl := Except.ok.inj htree
  have hcounted := (Game.Playable.initial hstart).depth_le
  have hcoherent := GameTree.coherent_ofPosition game hcounted
  have hroot := GameTree.rooted_ofPosition game start
  have hseated := seated_of_provided hcoherent hwhite hblack
  obtain ⟨_, -, hmet⟩ :=
    (auditor_seated game _).play hroot hcounted m () ⟨hseated, Grows.refl _⟩
  refine ⟨fun e he => ?_, fun r hr => ⟨start, hstart, ?_⟩, fun hwhite hblack => ?_⟩
  · rw [he] at hmet
    exact hmet
  · rw [hr] at hmet
    have hends := Registry.endsWithin_of_reachable hgame (.initial hstart)
    exact hmet.1.faithful (Registry.regular_of_create hgame) hstart hends (by decide)
  · refine exists_record (Registry.ends_of_create hgame) (Registry.encodable_of_create hgame)
      hstart hcoherent hroot fun side => ?_
    cases side with
    | white => exact hwhite
    | black => exact hblack

/-- White searches and black moves by chance. -/
theorem play_faithful_ticTacToe :
    let game : Game := ⟨BuiltIn.ticTacToe, .template⟩
    ∃ tree r start, GameTree.ofGame game = .ok tree ∧
      value play ⟨tree, .vanilla .forTesting, .random ⟨0⟩⟩ = .ok r ∧
        game.initial = .ok start ∧ r.Faithful game (fun side => side == .white) start := by
  intro game
  have hgame : Registry.builtIn.create "tictactoe" = .ok game :=
    Registry.create_eq_ok.mpr List.mem_cons_self
  let tree := GameTree.ofPosition game (Position.ofBoard 3 (Board.clear 3) .white .absent 0)
  have htree : GameTree.ofGame game = .ok tree := rfl
  have hwhite : (Player.vanilla .forTesting).Standard := .vanilla .forTesting .empty _
  have hblack : (Player.random ⟨0⟩).Standard := .random ⟨0⟩
  obtain ⟨-, hfaithful, hrecords⟩ :=
    play_faithful hgame htree hwhite.provided hblack.provided
  obtain ⟨r, hr⟩ := hrecords hwhite hblack
  obtain ⟨start, hstart, hrecord⟩ := hfaithful r hr
  have hsides : (fun side => (player ⟨tree, .vanilla .forTesting, .random ⟨0⟩⟩ side).searches) =
      fun side => side == .white := by
    funext side
    cases side <;> rfl
  exact ⟨tree, r, start, htree, hr, hstart, hsides ▸ hrecord⟩

end Match

end BoardGame
