import BoardGame.Proofs.Chess.Fen.Rights
import BoardGame.Proofs.Chess.Games
/-!
# Castling rights and the record of the game

The engine keeps castling rights in the codes of the pieces. Over whole games the codes
say what the record of the moves says: a right is there as long as no move has left the
king's home square and none has left or reached the rook's corner.
-/

namespace BoardGame.Chess

open Laws Fen

variable {pos : Position} {moves : List Move}

/-! ## Whole games -/

theorem Laws.record_replay (moves : List Move) : (replay moves).record = moves := by
  induction moves with
  | nil => rfl
  | cons m moves ih => exact congrArg (m :: ·) ih

/-- A side may castle with a rook exactly as long as no move of the game has left the
king's home square and none has left or reached the rook's corner; these are the rights
that are written in a record. Codes of unmoved pieces stand for nothing else. -/
theorem rights_follow_record (h : Played pos moves) :
    (∀ r ∈ Right.all,
      ((look pos.board r.rookHome = Kind.unmovedRook.code * r.side.sign ∧
          look pos.board r.kingHome = Kind.unmovedKing.code * r.side.sign) ↔
        (∀ m ∈ moves, m.origin ≠ r.kingHome) ∧
          ∀ m ∈ moves, m.origin ≠ r.rookHome ∧ m.target ≠ r.rookHome) ∧
      (r.flag ∈ (rightsText pos.board).toList ↔
        look pos.board r.rookHome = Kind.unmovedRook.code * r.side.sign ∧
          look pos.board r.kingHome = Kind.unmovedKing.code * r.side.sign)) ∧
    (∀ s side, look pos.board s = Kind.unmovedRook.code * side.sign →
      (∃ r ∈ Right.all, r.side = side ∧ s = r.rookHome) ∧
        look pos.board (kingHome side) = Kind.unmovedKing.code * side.sign) ∧
    ∀ s side, look pos.board s = Kind.unmovedKing.code * side.sign → s = kingHome side := by
  obtain ⟨hagrees, -⟩ := agrees_of_played h
  refine ⟨fun r hr => ⟨?_, ?_⟩, fun s side hs => ?_, hagrees.unmovedKing⟩
  · obtain ⟨w, hw⟩ := Right.exists_wing hr
    have hrights := hagrees.rights r.side w
    rw [State.Unmoved, record_replay] at hrights
    rw [r.kingHome_eq, hw, ← hrights]
    constructor
    · exact fun hheld => hheld.1
    · exact fun hrook => ⟨hrook, (hagrees.unmovedRook _ _ hrook).1⟩
  · rw [Right.flag_mem_rightsText hr, Right.held_iff]
  · obtain ⟨hking, w, hcorner⟩ := hagrees.unmovedRook s side hs
    obtain ⟨r, hr, hside, hrook⟩ := Right.exists_right side w
    exact ⟨⟨r, hr, hside, hcorner.trans hrook.symm⟩, hking⟩

/-- White has played its king's pawn and then its king, black a rook's pawn in between. -/
def kingWalked : Position :=
  let answered := opened.successor (boardAfter opened.board ⟨0, 6⟩ ⟨0, 5⟩ (-1)) .white
    ⟨-1, ⟨0, 6⟩, ⟨0, 5⟩⟩
  answered.successor (boardAfter answered.board ⟨4, 0⟩ ⟨4, 1⟩ 6) .black ⟨8, ⟨4, 0⟩, ⟨4, 1⟩⟩

/-- White has given up its rights and black still has both. -/
theorem rights_follow_record_kingWalked :
    let moves : List Move := [⟨⟨4, 0⟩, ⟨4, 1⟩⟩, ⟨⟨0, 6⟩, ⟨0, 5⟩⟩, ⟨⟨4, 1⟩, ⟨4, 3⟩⟩]
    Played kingWalked moves ∧ ∀ r ∈ Right.all,
      (r.flag ∈ (rightsText kingWalked.board).toList ↔ r.side = .black) := by
  intro moves
  have hanswered := played_opened.of_mem_successors (List.contains_iff_mem.mp
    (by decide +kernel : (successors opened).contains (opened.successor
      (boardAfter opened.board ⟨0, 6⟩ ⟨0, 5⟩ (-1)) .white ⟨-1, ⟨0, 6⟩, ⟨0, 5⟩⟩) = true))
  have hplayed : Played kingWalked moves := hanswered.of_mem_successors
    (List.contains_iff_mem.mp (by decide +kernel))
  obtain ⟨hrights, -⟩ := rights_follow_record hplayed
  have hrecord : ∀ r ∈ Right.all, ((∀ m ∈ moves, m.origin ≠ r.kingHome) ∧
      ∀ m ∈ moves, m.origin ≠ r.rookHome ∧ m.target ≠ r.rookHome) ↔ r.side = .black := by
    decide
  refine ⟨hplayed, fun r hr => ?_⟩
  rw [(hrights r hr).2, (hrights r hr).1]
  exact hrecord r hr

end BoardGame.Chess
