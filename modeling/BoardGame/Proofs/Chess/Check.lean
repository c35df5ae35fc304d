import BoardGame.Proofs.Chess.Attack
import BoardGame.Proofs.Chess.Invariants
/-!
# Check

The engine keeps to the first king of a side. Where a side has one king, that is the
king, and the engine's test for check is the check of the laws.
-/

namespace BoardGame.Chess

open Laws

variable {board : Board} {s k : Square} {side : Side}

theorem man_eq_king {code : Int} (hle : code.natAbs ≤ 8) :
    man code = some ⟨side, .king⟩ ↔
      code = Kind.king.code * side.sign ∨ code = Kind.unmovedKing.code * side.sign := by
  rw [man_eq_some hle]
  constructor
  · rintro ⟨k, hk, rfl⟩
    cases k
    case king => exact .inl rfl
    case unmovedKing => exact .inr rfl
    all_goals cases hk
  · rintro (rfl | rfl)
    · exact ⟨.king, rfl, rfl⟩
    · exact ⟨.unmovedKing, rfl, rfl⟩

theorem kingSquare?_eq (hboard : Valid board)
    (hk : ∀ s, placement board s = some ⟨side, .king⟩ ↔ s = k) :
    kingSquare? board side = some k := by
  have hking := (hk k).mpr rfl
  have hon := onBoard_iff_laws.mpr (onBoard_of_placement hking)
  have hlt : k.index boardSize < board.size := hboard.size ▸ Square.index_lt hon
  have htest : ∀ i (hi : i < board.size), ((board[i] == Kind.king.code * side.sign ||
      board[i] == Kind.unmovedKing.code * side.sign) = true ↔ Square.ofCell boardSize i = k) := by
    intro i hi
    rw [Bool.or_eq_true, beq_iff_eq, beq_iff_eq, hboard.getElem_eq_look hi,
      ← man_eq_king (hboard.code_le _)]
    exact hk _
  have hfound : (board.findIdx? fun code => code == Kind.king.code * side.sign ||
      code == Kind.unmovedKing.code * side.sign) = some (k.index boardSize) := by
    rw [Array.findIdx?_eq_some_iff_getElem]
    refine ⟨hlt, (htest _ hlt).mpr (Square.ofCell_index hon), fun j hj => ?_⟩
    have hj' : j < board.size := Nat.lt_trans hj hlt
    rw [Bool.not_eq_true, ← Bool.not_eq_true, htest j hj']
    intro heq
    rw [← heq, Square.index_ofCell (hboard.size ▸ hj')] at hj
    exact Nat.lt_irrefl j hj
  unfold kingSquare?
  rw [hfound, Option.map_some, Square.ofIndex_index (by decide) hon]

theorem exists_look_of_mem (hboard : Valid board) {code : Int} (h : code ∈ board) :
    ∃ s, look board s = code := by
  obtain ⟨i, hi, rfl⟩ := Array.getElem_of_mem h
  exact ⟨Square.ofCell boardSize i, (hboard.getElem_eq_look hi).symm⟩

theorem kingSquare?_eq_none (hboard : Valid board)
    (hnone : ∀ s, placement board s ≠ some ⟨side, .king⟩) : kingSquare? board side = none := by
  have hfound : (board.findIdx? fun code => code == Kind.king.code * side.sign ||
      code == Kind.unmovedKing.code * side.sign) = none := by
    rw [Array.findIdx?_eq_none_iff]
    intro code hcode
    obtain ⟨s, rfl⟩ := exists_look_of_mem hboard hcode
    rw [← Bool.not_eq_true, Bool.or_eq_true, beq_iff_eq, beq_iff_eq,
      ← man_eq_king (hboard.code_le s)]
    exact hnone s
  unfold kingSquare?
  rw [hfound]
  rfl

theorem inCheck_iff_attacked {p : Placement} (hk : ∀ s, p s = some ⟨side, .king⟩ ↔ s = k) :
    InCheck p side ↔ Attacked p side.opponent k := by
  constructor
  · rintro ⟨s, hs, hattack⟩
    rw [← (hk s).mp hs]
    exact hattack
  · intro hattack
    exact ⟨k, (hk k).mpr rfl, hattack⟩

theorem attacked_king_iff (hboard : Valid board)
    (hk : placement board k = some ⟨side, .king⟩) :
    attacked board k = true ↔ Attacked (placement board) side.opponent k := by
  obtain ⟨kind, -, hlook⟩ := hboard.placement_eq_some.mp hk
  exact attacked_iff hboard hlook

theorem inCheck_iff (hboard : Valid board)
    (hk : ∀ s, placement board s = some ⟨side, .king⟩ ↔ s = k) :
    inCheck board (some k) = true ↔ InCheck (placement board) side := by
  rw [inCheck_iff_attacked hk]
  exact attacked_king_iff hboard ((hk k).mpr rfl)

theorem kingSquare?_cases (hboard : Valid board)
    (hone : ∀ s t, placement board s = some ⟨side, .king⟩ → placement board t = some ⟨side, .king⟩ →
      s = t) :
    (∃ k, (∀ s, placement board s = some ⟨side, .king⟩ ↔ s = k) ∧
      kingSquare? board side = some k) ∨
    (∀ s, placement board s ≠ some ⟨side, .king⟩) ∧ kingSquare? board side = none := by
  by_cases hking : ∃ k, placement board k = some ⟨side, .king⟩
  · obtain ⟨k, hk⟩ := hking
    have hiff : ∀ s, placement board s = some ⟨side, .king⟩ ↔ s = k :=
      fun s => ⟨fun hs => hone s k hs hk, fun heq => heq ▸ hk⟩
    exact Or.inl ⟨k, hiff, kingSquare?_eq hboard hiff⟩
  · have hnone := not_exists.mp hking
    exact Or.inr ⟨hnone, kingSquare?_eq_none hboard hnone⟩

/-- Where a side has at most one king, the engine's test is the check of the laws. -/
theorem inCheck_kingSquare?_iff (hboard : Valid board)
    (hone : ∀ s t, placement board s = some ⟨side, .king⟩ → placement board t = some ⟨side, .king⟩ →
      s = t) :
    inCheck board (kingSquare? board side) = true ↔ InCheck (placement board) side := by
  rcases kingSquare?_cases hboard hone with ⟨k, hk, hfound⟩ | ⟨hnone, hfound⟩
  · rw [hfound]
    exact inCheck_iff hboard hk
  · rw [hfound]
    refine iff_of_false Bool.false_ne_true ?_
    rintro ⟨s, hs, -⟩
    exact hnone s hs

end BoardGame.Chess
