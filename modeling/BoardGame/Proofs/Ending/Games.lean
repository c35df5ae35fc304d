import BoardGame.Proofs.Chess.Start
import BoardGame.Proofs.Ending.Othello
/-!
# The built-in games end

The games of drops end when the board is full, Othello when no side can turn anything, and
chess at its limit of plies, if not before. None of them leaves a side without a move in an
open position.
-/

namespace BoardGame

open BuiltIn

variable {game : Game} {p : Position} {next : List Position} {id : String} {bound : Nat}

/-! ## Drops -/

namespace RuleSet

theorem drops_ticTacToe : ∃ type rule, ticTacToe.Drops type rule :=
  ⟨_, _, valid_of_validate (by decide +kernel), rfl, rfl, rfl, rfl, rfl, rfl, rfl, rfl, rfl,
    ⟨.boardFull, 0, .draw⟩, by decide, rfl⟩

theorem drops_connectFour : ∃ type rule, connectFour.Drops type rule :=
  ⟨_, _, valid_of_validate (by decide +kernel), rfl, rfl, rfl, rfl, rfl, rfl, rfl, rfl, rfl,
    ⟨.boardFull, 0, .draw⟩, by decide, rfl⟩

theorem depth_le_of_moveLimit {rules : RuleSet} {limit : Nat} {decision : Decision}
    (hending : ⟨.moveLimit, limit, decision⟩ ∈ rules.endings)
    (hopen : Game.outcome ⟨rules, .template⟩ p = .ok .undetermined) : p.depth ≤ limit := by
  by_contra hpassed
  have hnone := endOutcome_eq_none hopen _ hending
  unfold endOutcome at hnone
  dsimp only at hnone
  rw [if_pos (Nat.lt_of_not_le hpassed)] at hnone
  cases Except.ok.inj hnone

end RuleSet

/-! ## Limits of plies -/

namespace Game

theorem measure_of_depth {Inv : Position → Prop} (hbound : bound ≤ maxDepth)
    (hinitial : ∀ p, game.initial = .ok p → Inv p)
    (hnext : ∀ p, Inv p → ∃ next, game.successors p = .ok next ∧ ∀ q ∈ next, Inv q)
    (hlimit : ∀ p next, Inv p → game.successors p = .ok next →
      game.outcome p = .ok .undetermined → next ≠ [] ∧ p.depth < bound) :
    game.Measure bound fun n p => Inv p ∧ bound ≤ n + p.depth where
  initial p hp := ⟨hinitial p hp, Nat.le_add_right _ _⟩
  successors n p hleft := by
    obtain ⟨hp, hdepth⟩ := hleft
    obtain ⟨next, hsuccessors, hall⟩ := hnext p hp
    refine ⟨next, hsuccessors, fun q hq => ⟨hall q hq, ?_⟩⟩
    rw [(follows_of_mem_successors hsuccessors hq).depth_eq]
    omega
  onward n p next hleft hsuccessors hopen := by
    obtain ⟨hp, hdepth⟩ := hleft
    obtain ⟨hne, hlt⟩ := hlimit p next hp hsuccessors hopen
    exact ⟨hne, by omega⟩

theorem measure_chess (hvalid : chess.Valid) :
    Measure ⟨chess, .template⟩ 201 fun n p => chess.Fits p ∧ 201 ≤ n + p.depth := by
  apply measure_of_depth (by decide)
  · intro p hp
    have hp := initial_of_eq_ok hp
    exact RuleSet.fits_initial hvalid.pieces_le hp
  · intro p hp
    obtain ⟨next, hnext, hall⟩ := hp.exists_successors hvalid
    exact ⟨next, successors_template.mpr hnext, hall⟩
  · intro p next _ hnext hopen
    have hending : ⟨.moveLimit, 200, .draw⟩ ∈ chess.endings := by decide
    have hle := RuleSet.depth_le_of_moveLimit hending hopen
    exact ⟨RuleSet.ne_nil_of_noLegalMove ⟨⟨.noLegalMove, 0, .draw⟩, by decide, rfl⟩
      (successors_template.mp hnext) hopen, by omega⟩

theorem measure_fullChess :
    Measure ⟨fullChess, .chess⟩ 200 fun n p => p.size = Chess.boardSize ∧ 200 ≤ n + p.depth := by
  apply measure_of_depth (by decide)
  · intro p hp
    exact Playable.size_eq rfl (.initial hp)
  · intro p hp
    have hnext : successors ⟨fullChess, .chess⟩ p = .ok (Chess.successors p) := successors_chess hp
    exact ⟨_, hnext, fun q hq => (follows_of_mem_successors hnext hq).size_eq.trans hp⟩
  · intro p next hp hnext hopen
    have hcheck : Chess.checkBoard p = .ok () := if_pos hp
    have hstuck : stuck ⟨fullChess, .chess⟩ p = .ok next.isEmpty := by
      rw [stuck_eq_isEmpty, hnext]
      rfl
    have houtcome : Chess.outcome p next.isEmpty = .undetermined := by
      unfold outcome at hopen
      rw [hstuck] at hopen
      change (Chess.checkBoard p >>= fun _ => _) = _ at hopen
      rw [hcheck] at hopen
      exact Except.ok.inj hopen
    unfold Chess.outcome at houtcome
    split at houtcome
    · split at houtcome <;> cases houtcome
    next hmoves =>
    split at houtcome
    · cases houtcome
    next hdrawn =>
    simp only [Chess.drawn, Bool.or_eq_true, not_or, decide_eq_true_eq] at hdrawn
    exact ⟨by simpa using hmoves, Nat.lt_of_not_le hdrawn.1.2⟩

end Game

/-! ## Starts -/

/-- What holds of the start of a game, found out by looking at it. -/
theorem exists_initial (game : Game) (P : Position → Prop) [DecidablePred P]
    (h : (match Position.initial game.rules with
      | .ok p => decide (P p)
      | .error _ => false) = true) : ∃ start, game.initial = .ok start ∧ P start := by
  cases hstart : Position.initial game.rules with
  | error e =>
      rw [hstart] at h
      cases h
  | ok start =>
      rw [hstart] at h
      refine ⟨start, ?_, of_decide_eq_true h⟩
      show liftM (Position.initial game.rules) = _
      rw [hstart]
      rfl

/-! ## All of them -/

namespace Registry

/-- The built-in games, each with the most plies that it takes. -/
def plyBounds : List (String × Nat) :=
  [("tictactoe", 9), ("connect4", 49), ("othello", 540), ("chess", 201), ("chess2", 200)]

/-- The squares of an empty board are counted down. -/
theorem exists_measure_drops {rules : RuleSet} (hdrops : ∃ type rule, rules.Drops type rule)
    (hstart : ∃ start, Game.initial ⟨rules, .template⟩ = .ok start ∧
      start.board.emptyCells = bound) :
    (∃ start, Game.initial ⟨rules, .template⟩ = .ok start) ∧
      ∃ left, Game.Measure ⟨rules, .template⟩ bound left := by
  obtain ⟨type, rule, hdrops⟩ := hdrops
  obtain ⟨start, hstart, hcells⟩ := hstart
  refine ⟨⟨start, hstart⟩, _, hdrops.measure fun p hp => ?_⟩
  rw [Game.initial_of_eq_ok hstart] at hp
  exact Except.ok.inj hp ▸ hcells

theorem exists_measure (hgame : builtIn.create id = .ok game) (h : (id, bound) ∈ plyBounds) :
    (∃ start, game.initial = .ok start) ∧ ∃ left, game.Measure bound left := by
  have hmem := create_eq_ok.mp hgame
  simp only [builtInGames, plyBounds, List.mem_cons, Prod.mk.injEq, List.not_mem_nil,
    or_false] at hmem h
  rcases hmem with ⟨rfl, rfl⟩ | ⟨rfl, rfl⟩ | ⟨rfl, rfl⟩ | ⟨rfl, rfl⟩ | ⟨rfl, rfl⟩ <;>
    simp only [String.reduceEq, false_and, true_and, false_or, or_false] at h <;> subst h
  · exact exists_measure_drops RuleSet.drops_ticTacToe (exists_initial _ _ (by decide +kernel))
  · exact exists_measure_drops RuleSet.drops_connectFour (exists_initial _ _ (by decide +kernel))
  · obtain ⟨start, hstart, hsize, hcells, hcodes, hempty⟩ := exists_initial
      ⟨othello, .template⟩ (fun p => p.size = 8 ∧ p.board.size = 64 ∧
        (∀ code ∈ p.board, code = 0 ∨ code = 1 ∨ code = -1) ∧ p.board.emptyCells = 60)
      (by decide +kernel)
    refine ⟨⟨start, hstart⟩, _, Othello.measure fun p hp => ?_⟩
    rw [Game.initial_of_eq_ok hstart] at hp
    obtain rfl := Except.ok.inj hp
    exact ⟨⟨hsize, hcells, hcodes⟩, by rw [hempty]⟩
  · obtain ⟨start, hstart, -⟩ := exists_initial ⟨chess, .template⟩ (fun _ => True)
      (by decide +kernel)
    exact ⟨⟨start, hstart⟩, _, Game.measure_chess (RuleSet.valid_of_validate rfl)⟩
  · exact ⟨⟨_, Chess.initial_eq⟩, _, Game.measure_fullChess⟩

theorem endsWithin_of_reachable (hgame : builtIn.create id = .ok game) (hp : game.Reachable p) :
    game.EndsWithin 540 p := by
  have hmem := create_eq_ok.mp hgame
  obtain ⟨bound, hbound, hle⟩ : ∃ bound, (id, bound) ∈ plyBounds ∧ bound ≤ 540 := by
    simp only [builtInGames, List.mem_cons, Prod.mk.injEq, List.not_mem_nil, or_false] at hmem
    rcases hmem with ⟨rfl, -⟩ | ⟨rfl, -⟩ | ⟨rfl, -⟩ | ⟨rfl, -⟩ | ⟨rfl, -⟩
    · exact ⟨9, by decide, by decide⟩
    · exact ⟨49, by decide, by decide⟩
    · exact ⟨540, by decide, by decide⟩
    · exact ⟨201, by decide, by decide⟩
    · exact ⟨200, by decide, by decide⟩
  obtain ⟨-, left, hmeasure⟩ := exists_measure hgame hbound
  exact (hmeasure.endsWithin_of_reachable hp).mono hle

theorem ends_of_create (hgame : builtIn.create id = .ok game) : game.Ends :=
  fun _ hp => ⟨540, by decide, endsWithin_of_reachable hgame hp⟩

/-- The built-in games end after no more plies than their bounds say. As long as a game is
open there are successors, an outcome and a move, so a rollout from wherever the game has
come to returns an outcome that decides it. -/
theorem courses_end (h : (id, bound) ∈ plyBounds) :
    ∃ game start, builtIn.create id = .ok game ∧ game.initial = .ok start ∧
      ∀ n p, game.Course n p → n ≤ bound ∧
        (∃ next o, game.successors p = .ok next ∧ game.outcome p = .ok o ∧
          (o = .undetermined → next ≠ [])) ∧
        ∀ g, ∃ side o, Stateful.value (rollout game p) g = .ok (side, o) ∧
          o.isTerminal = true := by
  obtain ⟨game, hmem⟩ : ∃ game, (id, game) ∈ builtInGames := by
    simp only [plyBounds, List.mem_cons, Prod.mk.injEq, List.not_mem_nil, or_false] at h
    rcases h with ⟨rfl, -⟩ | ⟨rfl, -⟩ | ⟨rfl, -⟩ | ⟨rfl, -⟩ | ⟨rfl, -⟩ <;> simp [builtInGames]
  have hgame := create_eq_ok.mpr hmem
  obtain ⟨⟨start, hstart⟩, left, hmeasure⟩ := exists_measure hgame h
  refine ⟨game, start, hgame, hstart, fun n p hcourse => ?_⟩
  have hends := hmeasure.endsWithin_of_reachable hcourse.reachable
  obtain ⟨m, hm, -⟩ := hcourse.endsWithin fun p hp =>
    hmeasure.endsWithin_of_reachable (.initial hp)
  refine ⟨by omega, hends.exists_next, fun g => ?_⟩
  have hfew : bound < Rollout.maxPlies := by
    have hle : ∀ entry ∈ plyBounds, entry.2 < Rollout.maxPlies := by decide
    exact hle _ h
  obtain ⟨side, o, after, hruns, ho⟩ := exists_rollout hends hfew g
  exact ⟨side, o, hruns.value_eq, by simpa [Outcome.isTerminal] using ho⟩

theorem courses_end_othello :
    ("othello", 540) ∈ plyBounds ∧
      ∃ game start, builtIn.create "othello" = .ok game ∧ game.initial = .ok start ∧
        ∀ n p, game.Course n p → n ≤ 540 ∧
          (∃ next o, game.successors p = .ok next ∧ game.outcome p = .ok o ∧
            (o = .undetermined → next ≠ [])) ∧
          ∀ g, ∃ side o, Stateful.value (rollout game p) g = .ok (side, o) ∧
            o.isTerminal = true :=
  ⟨by decide, courses_end (by decide)⟩

end Registry

end BoardGame
