import BoardGame.Proofs.Succession
import BoardGame.Proofs.Chess.Generator
import BoardGame.Proofs.Chess.Start
/-!
# Games of the chess engine

Whatever moves are chosen from the initial position on, the engine's position agrees
with the game that the laws make of the same moves. So its successors are the legal
moves, and what the laws keep holds of its boards.
-/

namespace BoardGame.Chess

open Laws

/-- The game after the given moves, the latest first. -/
def Laws.replay : List Move → State
  | [] => initial
  | m :: moves => (replay moves).play m

/-- The engine has come from the initial position by the given moves, the latest
first. -/
inductive Played : Position → List Move → Prop where
  | initial {pos : Position} (h : game.initial = .ok pos) : Played pos []
  | step {pos next : Position} {moves : List Move} {positions : List Position}
      (h : Played pos moves) (hs : game.successors pos = .ok positions)
      (hmem : next ∈ positions) : Played next (moveOf next :: moves)

variable {pos next : Position} {moves : List Move} {positions : List Position} {g : State}

theorem exists_played (h : game.Reachable pos) : ∃ moves, Played pos moves := by
  induction h with
  | initial h => exact ⟨[], .initial h⟩
  | step _ hs hmem ih =>
      obtain ⟨moves, hplayed⟩ := ih
      exact ⟨_, .step hplayed hs hmem⟩

theorem reachable_of_played (h : Played pos moves) : game.Reachable pos := by
  induction h with
  | initial h => exact .initial h
  | step _ hs hmem ih => exact .step ih hs hmem

theorem Agrees.successors_eq (h : Agrees pos g) : game.successors pos = .ok (successors pos) := by
  have hcheck : checkBoard pos = .ok () := by
    unfold checkBoard
    rw [if_pos h.size]
  show (do checkBoard pos; return successors pos : Except EngineError (List Position)) = _
  rw [hcheck]
  rfl

/-- The engine follows the laws. -/
theorem agrees_of_played (h : Played pos moves) :
    Agrees pos (replay moves) ∧ Sound (replay moves) := by
  induction h with
  | initial h =>
      rw [initial_eq] at h
      cases h
      exact ⟨agrees_start, sound_initial⟩
  | step _ hs hmem ih =>
      obtain ⟨hagrees, hsound⟩ := ih
      rw [hagrees.successors_eq] at hs
      cases hs
      obtain ⟨hlegal, hnext⟩ := hagrees.of_mem_successors hsound hmem
      exact ⟨hnext, hsound.play hlegal⟩

theorem Played.of_mem_successors (h : Played pos moves) (hmem : next ∈ successors pos) :
    Played next (moveOf next :: moves) :=
  .step h (agrees_of_played h).1.successors_eq hmem

/-! ## One opening move -/

/-- The white king's pawn has made a double step. -/
def opened : Position :=
  startPosition.successor (boardAfter startBoard ⟨4, 1⟩ ⟨4, 3⟩ 1) .black ⟨1, ⟨4, 1⟩, ⟨4, 3⟩⟩

theorem played_opened : Played opened [⟨⟨4, 1⟩, ⟨4, 3⟩⟩] := by
  have hking : kingSquare? startPosition.board startPosition.mover = some ⟨4, 0⟩ := by
    apply kingSquare?_eq valid_startBoard
    rw [placement_startBoard]
    exact start_king .white
  have hmem : opened ∈ successors startPosition := by
    rw [mem_successors, hking]
    refine ⟨⟨4, 1⟩, by decide, ?_⟩
    exact List.mem_cons_self
  exact .step (.initial initial_eq) agrees_start.successors_eq hmem

/-! ## Legal moves -/

/-- The successors of a position are its legal moves, each of them once, with the board
that the laws prescribe. -/
theorem successors_legal (h : Played pos moves) :
    placement pos.board = (replay moves).placement ∧ pos.mover = (replay moves).turn ∧
    ∃ positions, game.successors pos = .ok positions ∧ (positions.map moveOf).Nodup ∧
      (∀ m, m ∈ positions.map moveOf ↔ (replay moves).Legal m) ∧
      ∀ next ∈ positions, Valid next.board ∧
        placement next.board = (replay (moveOf next :: moves)).placement ∧
        next.mover = (replay (moveOf next :: moves)).turn := by
  obtain ⟨hagrees, hsound⟩ := agrees_of_played h
  refine ⟨hagrees.placement, hagrees.mover, successors pos, hagrees.successors_eq,
    hagrees.nodup_successors hsound, fun m => ?_, fun next hnext => ?_⟩
  · rw [List.mem_map]
    constructor
    · rintro ⟨next, hnext, rfl⟩
      exact (hagrees.of_mem_successors hsound hnext).1
    · exact hagrees.exists_mem_successors hsound
  · have hafter := (hagrees.of_mem_successors hsound hnext).2
    exact ⟨hafter.board, hafter.placement, hafter.mover⟩

theorem successors_legal_opened :
    ∃ positions, game.successors opened = .ok positions ∧ (positions.map moveOf).Nodup ∧
      ∀ m, m ∈ positions.map moveOf ↔ (replay [⟨⟨4, 1⟩, ⟨4, 3⟩⟩]).Legal m := by
  obtain ⟨-, -, positions, hs, hnodup, hlegal, -⟩ := successors_legal played_opened
  exact ⟨positions, hs, hnodup, hlegal⟩

/-! ## Safe kings -/

/-- No king is ever captured: each side has exactly one, the one of the side that has
moved is not attacked, and no move lands on a king. Pawns stay off the first and the
last rank. -/
theorem kings_safe (h : game.Reachable pos) :
    (∀ side : Side, ∃ k, OnBoard k ∧ ∀ s,
      (look pos.board s = Kind.king.code * side.sign ∨
        look pos.board s = Kind.unmovedKing.code * side.sign) ↔ s = k) ∧
    (∀ s, ((look pos.board s).natAbs : Int) = Kind.pawn.code → s.y ≠ 0 ∧ s.y ≠ 7) ∧
    ¬ InCheck (placement pos.board) pos.mover.opponent ∧
    ∃ positions, game.successors pos = .ok positions ∧ ∀ next ∈ positions,
      ((look pos.board next.last.target).natAbs : Int) ≠ Kind.king.code ∧
      ((look pos.board next.last.target).natAbs : Int) ≠ Kind.unmovedKing.code ∧
      ∀ s, placement pos.board s = some ⟨pos.mover.opponent, .king⟩ →
        placement next.board s = some ⟨pos.mover.opponent, .king⟩ := by
  obtain ⟨moves, hplayed⟩ := exists_played h
  obtain ⟨hagrees, hsound⟩ := agrees_of_played hplayed
  refine ⟨fun side => ?_, fun s hs => ?_, ?_, successors pos, hagrees.successors_eq,
    fun next hnext => ?_⟩
  · obtain ⟨k, hk⟩ := hsound.king side
    refine ⟨k, hsound.onBoard _ _ ((hk k).mpr rfl), fun s => ?_⟩
    rw [← man_eq_king (hagrees.board.code_le s), hagrees.man_look]
    exact hk s
  · obtain ⟨side, hside⟩ := exists_side hs
    exact hsound.pawn s side (hagrees.placement_of_look hside)
  · rw [hagrees.placement, hagrees.mover]
    exact hsound.safe
  · obtain ⟨hlegal, hafter⟩ := hagrees.of_mem_successors hsound hnext
    have hspared : ∀ k : Kind, k.piece = .king →
        ((look pos.board next.last.target).natAbs : Int) ≠ k.code := by
      intro k hk habs
      obtain ⟨side, hside⟩ := exists_side habs
      have hman : (replay moves).placement (moveOf next).target = some ⟨side, .king⟩ :=
        hk ▸ hagrees.placement_of_look hside
      have hopponent := Side.eq_opponent_of_ne (hlegal.1.2.1 _ hman)
      exact hsound.target_ne_king hlegal.1 (hopponent ▸ hman)
    refine ⟨hspared .king rfl, hspared .unmovedKing rfl, fun s => ?_⟩
    rw [hafter.placement, hagrees.placement, hagrees.mover]
    exact (hsound.opponent_king hlegal.1).mpr

theorem kings_safe_opened :
    game.Reachable opened ∧ ¬ InCheck (placement opened.board) .white ∧
      ∃ positions, game.successors opened = .ok positions ∧ ∀ next ∈ positions,
        placement next.board (kingHome .white) = some ⟨.white, .king⟩ := by
  have hreach := reachable_of_played played_opened
  obtain ⟨-, -, hsafe, positions, hs, hspared⟩ := kings_safe hreach
  have hking : placement opened.board (kingHome .white) = some ⟨.white, .king⟩ := by
    decide
  exact ⟨hreach, hsafe, positions, hs, fun next hnext => (hspared next hnext).2.2 _ hking⟩

end BoardGame.Chess
