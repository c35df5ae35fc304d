import BoardGame.Registry
import BoardGame.Proofs.Chess.Check
import BoardGame.Proofs.Chess.Agreement
/-!
# The start of a game of chess

The engine's initial position agrees with the start of the laws. What has to hold of
every square is checked square by square.
-/

namespace BoardGame.Chess

open Laws

def game : Game := ⟨BuiltIn.fullChess, .chess⟩

theorem create_chess2 : Registry.builtIn.create "chess2" = .ok game := by
  have hvalid : Game.ofRules BuiltIn.fullChess .chess = .ok game := rfl
  unfold Registry.builtIn Registry.create Registry.register
  simp [hvalid]

/-- The ranks from the first to the eighth. -/
def startBoard : Board := #[
  7, 2, 3, 5, 8, 3, 2, 7,
  1, 1, 1, 1, 1, 1, 1, 1,
  0, 0, 0, 0, 0, 0, 0, 0,
  0, 0, 0, 0, 0, 0, 0, 0,
  0, 0, 0, 0, 0, 0, 0, 0,
  0, 0, 0, 0, 0, 0, 0, 0,
  -1, -1, -1, -1, -1, -1, -1, -1,
  -7, -2, -3, -5, -8, -3, -2, -7]

def startPosition : Position := Position.ofBoard boardSize startBoard .white .absent 0

set_option maxRecDepth 10000 in
theorem initial_eq : game.initial = .ok startPosition := by
  have hboard : BuiltIn.fullChess.pieces.zipIdx.foldlM (Position.placeType BuiltIn.fullChess)
      (Board.clear BuiltIn.fullChess.boardSize) = .ok startBoard := rfl
  have hinitial : Position.initial BuiltIn.fullChess = .ok startPosition := by
    unfold Position.initial
    rw [hboard]
    rfl
  show (Position.initial BuiltIn.fullChess : Except EngineError Position) = _
  rw [hinitial]
  rfl

/-! ## Square by square -/

theorem start_of_not_onBoard {s : Square} (hs : ¬ OnBoard s) : start s = none := by
  unfold start
  unfold OnBoard at hs
  by_cases hx : s.x < 0
  · rw [if_pos hx]
  · rw [if_neg hx]
    by_cases hwide : 8 ≤ s.x
    · have hrank : firstRank[s.x.toNat]? = none := by
        rw [List.getElem?_eq_none_iff]
        show 8 ≤ s.x.toNat
        omega
      rw [hrank, Option.map_none, if_pos hwide]
      split
      · rfl
      · split <;> rfl
    · rw [if_neg (by omega), if_neg (by omega), if_neg hwide, if_neg (by omega),
        if_neg (by omega)]

theorem valid_startBoard : Valid startBoard where
  size := rfl
  code_le := by
    apply forall_square
    · decide
    · intro s hs
      rw [look_of_not_onBoard hs]
      decide

theorem placement_startBoard : placement startBoard = start := by
  funext s
  revert s
  apply forall_square
  · decide
  · intro s hs
    rw [placement_of_not_onBoard hs, start_of_not_onBoard hs]

theorem start_king (side : Side) (s : Square) :
    start s = some ⟨side, .king⟩ ↔ s = kingHome side := by
  revert s
  apply forall_square
  · cases side <;> decide
  · intro s hs
    rw [start_of_not_onBoard hs]
    constructor
    · intro hnone
      cases hnone
    · rintro rfl
      exact absurd (by cases side <;> decide) hs

theorem start_pawn (side : Side) (s : Square) (h : start s = some ⟨side, .pawn⟩) :
    s.y ≠ 0 ∧ s.y ≠ 7 := by
  revert s
  apply forall_square
  · cases side <;> decide
  · intro s hs h
    rw [start_of_not_onBoard hs] at h
    cases h

theorem look_startBoard_king (side : Side) (s : Square)
    (h : look startBoard s = Kind.unmovedKing.code * side.sign) : s = kingHome side := by
  revert s
  apply forall_square
  · cases side <;> decide
  · intro s hs h
    rw [look_of_not_onBoard hs] at h
    cases side <;> cases h

theorem look_startBoard_rook (side : Side) (s : Square)
    (h : look startBoard s = Kind.unmovedRook.code * side.sign) :
    s = Wing.queenside.corner side ∨ s = Wing.kingside.corner side := by
  revert s
  apply forall_square
  · cases side <;> decide
  · intro s hs h
    rw [look_of_not_onBoard hs] at h
    cases side <;> cases h

/-! ## The start of both -/

theorem sound_initial : Sound initial where
  onBoard s man hs := by
    by_cases hon : OnBoard s
    · exact hon
    · rw [show initial.placement = start from rfl, start_of_not_onBoard hon] at hs
      cases hs
  king side := ⟨kingHome side, start_king side⟩
  pawn s side hs := start_pawn side s hs
  safe := by
    show ¬ InCheck start .black
    rw [← placement_startBoard, ← inCheck_iff valid_startBoard (k := kingHome .black)]
    · decide
    · rw [placement_startBoard]
      exact start_king .black
  doubleStep m hm := by
    cases hm

theorem agrees_start : Agrees startPosition initial where
  size := rfl
  board := valid_startBoard
  placement := placement_startBoard
  mover := rfl
  last m hm := by
    cases hm
  no_last _ := rfl
  unmovedKing s side hs := look_startBoard_king side s hs
  unmovedRook s side hs := by
    refine ⟨by cases side <;> rfl, ?_⟩
    rcases look_startBoard_rook side s hs with hw | hw
    · exact ⟨_, hw⟩
    · exact ⟨_, hw⟩
  rights side w := by
    constructor
    · intro _
      constructor <;> intro m hm <;> cases hm
    · intro _
      cases side <;> cases w <;> rfl

end BoardGame.Chess
