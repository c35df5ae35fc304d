import BoardGame.Chess.Moves
import BoardGame.Proofs.Board
import BoardGame.Proofs.Chess.Laws
/-!
# What the codes of a board stand for

A code names a man: its sign is the side and its size the kind, where a king or a
rook that has not moved is a king or a rook like any other. Boards of chess have
sixty-four cells and codes between minus eight and eight.
-/

namespace BoardGame.Chess

open Laws

/-! ## Kinds and codes -/

def Kind.piece : Kind → Piece
  | pawn => .pawn
  | knight => .knight
  | bishop => .bishop
  | rook | unmovedRook => .rook
  | queen => .queen
  | king | unmovedKing => .king

theorem Kind.piece_eq_pawn {k : Kind} : k.piece = .pawn ↔ k = .pawn := by
  cases k <;> decide

theorem Kind.code_injective {j k : Kind} (h : j.code = k.code) : j = k := by
  have hj := Kind.ofCode?_code j
  rw [h, Kind.ofCode?_code k] at hj
  exact (Option.some.inj hj).symm

theorem Kind.ofCode?_eq_some {code : Int} {k : Kind} :
    Kind.ofCode? code = some k ↔ code = k.code := by
  constructor
  · intro h
    have hfound := List.find?_some h
    exact (by simpa using hfound : k.code = code).symm
  · rintro rfl
    exact Kind.ofCode?_code k

theorem Kind.exists_code {code : Int} (hpos : 0 < code) (hle : code ≤ 8) :
    ∃ k : Kind, code = k.code := by
  have hcases : code = 1 ∨ code = 2 ∨ code = 3 ∨ code = 4 ∨ code = 5 ∨ code = 6 ∨ code = 7 ∨
      code = 8 := by omega
  rcases hcases with h | h | h | h | h | h | h | h
  · exact ⟨.pawn, h⟩
  · exact ⟨.knight, h⟩
  · exact ⟨.bishop, h⟩
  · exact ⟨.rook, h⟩
  · exact ⟨.queen, h⟩
  · exact ⟨.king, h⟩
  · exact ⟨.unmovedRook, h⟩
  · exact ⟨.unmovedKing, h⟩

theorem natAbs_code_mul (k : Kind) (side : Side) :
    ((k.code * side.sign).natAbs : Int) = k.code := by
  cases k <;> cases side <;> rfl

theorem sign_code_mul (k : Kind) (side : Side) : (k.code * side.sign).sign = side.sign := by
  cases k <;> cases side <;> rfl

theorem code_mul_mul_sign (k : Kind) (side : Side) : k.code * side.sign * side.sign = k.code := by
  cases k <;> cases side <;> rfl

theorem code_mul_inj {j k : Kind} {a b : Side} (h : j.code * a.sign = k.code * b.sign) :
    j = k ∧ a = b := by
  have habs := natAbs_code_mul j a
  rw [h, natAbs_code_mul] at habs
  have hsign := sign_code_mul j a
  rw [h, sign_code_mul] at hsign
  exact ⟨Kind.code_injective habs.symm, Side.sign_inj.mp hsign.symm⟩

theorem exists_kind {code : Int} (hne : code ≠ 0) (hle : code.natAbs ≤ 8) :
    ∃ (k : Kind) (side : Side), code = k.code * side.sign := by
  by_cases hpos : 0 < code
  · obtain ⟨k, hk⟩ := Kind.exists_code hpos (by omega)
    exact ⟨k, .white, by rw [← hk]; exact (Int.mul_one code).symm⟩
  · obtain ⟨k, hk⟩ := Kind.exists_code (by omega : 0 < -code) (by omega)
    refine ⟨k, .black, ?_⟩
    rw [← hk]
    simp [Side.sign]

theorem sign_eq_iff {code : Int} (hle : code.natAbs ≤ 8) {side : Side} :
    code.sign = side.sign ↔ ∃ k : Kind, code = k.code * side.sign := by
  constructor
  · intro hsign
    have hne : code ≠ 0 := by
      rintro rfl
      cases side <;> cases hsign
    obtain ⟨k, owner, rfl⟩ := exists_kind hne hle
    rw [sign_code_mul, Side.sign_inj] at hsign
    exact ⟨k, by rw [hsign]⟩
  · rintro ⟨k, rfl⟩
    exact sign_code_mul k side

theorem exists_side {code : Int} {k : Kind} (h : (code.natAbs : Int) = k.code) :
    ∃ side : Side, code = k.code * side.sign := by
  rcases Int.natAbs_eq code with heq | heq
  · refine ⟨.white, ?_⟩
    rw [← h]
    exact heq.trans (Int.mul_one _).symm
  · refine ⟨.black, ?_⟩
    rw [← h]
    exact heq.trans (Int.mul_neg_one _).symm

/-! ## Men -/

/-- The man that a code stands for. -/
def man (code : Int) : Option Man :=
  (Kind.ofCode? code.natAbs).map fun k => ⟨if 0 < code then .white else .black, k.piece⟩

@[simp] theorem man_zero : man 0 = none := rfl

@[simp] theorem man_code (k : Kind) (side : Side) :
    man (k.code * side.sign) = some ⟨side, k.piece⟩ := by
  cases k <;> cases side <;> rfl

theorem man_eq_none {code : Int} (hle : code.natAbs ≤ 8) : man code = none ↔ code = 0 := by
  constructor
  · intro h
    by_cases hne : code = 0
    · exact hne
    · obtain ⟨k, side, rfl⟩ := exists_kind hne hle
      rw [man_code] at h
      cases h
  · rintro rfl
    rfl

theorem man_eq_some {code : Int} (hle : code.natAbs ≤ 8) {side : Side} {piece : Piece} :
    man code = some ⟨side, piece⟩ ↔ ∃ k : Kind, k.piece = piece ∧ code = k.code * side.sign := by
  constructor
  · intro h
    have hne : code ≠ 0 := by
      rintro rfl
      cases h
    obtain ⟨k, side', rfl⟩ := exists_kind hne hle
    rw [man_code] at h
    cases h
    exact ⟨k, rfl, rfl⟩
  · rintro ⟨k, rfl, rfl⟩
    exact man_code k side

/-! ## Boards -/

theorem onBoard_iff_laws {s : Square} : s.onBoard boardSize = true ↔ OnBoard s := by
  rw [Square.onBoard_iff]
  unfold OnBoard boardSize
  omega

/-- What stands on the squares of a board. -/
def placement (board : Board) : Placement := fun s => man (look board s)

structure Valid (board : Board) : Prop where
  size : board.size = boardSize * boardSize
  code_le : ∀ s, (look board s).natAbs ≤ 8

variable {board : Board} {s t : Square} {code : Int}

theorem look_eq_read (h : OnBoard s) : look board s = board.read boardSize s := by
  unfold look
  rw [if_pos (onBoard_iff_laws.mpr h)]

theorem look_of_not_onBoard (h : ¬ OnBoard s) : look board s = 0 := by
  unfold look
  rw [if_neg (mt onBoard_iff_laws.mp h)]

theorem onBoard_of_look_ne_zero (h : look board s ≠ 0) : OnBoard s := by
  by_cases hs : OnBoard s
  · exact hs
  · exact absurd (look_of_not_onBoard hs) h

theorem onBoard_of_look_eq {k : Kind} {side : Side} (h : look board s = k.code * side.sign) :
    OnBoard s := by
  apply onBoard_of_look_ne_zero
  rw [h]
  cases k <;> cases side <;> decide

theorem placement_of_not_onBoard (h : ¬ OnBoard s) : placement board s = none := by
  unfold placement
  rw [look_of_not_onBoard h]
  rfl

theorem onBoard_of_placement {m : Man} (h : placement board s = some m) : OnBoard s := by
  by_cases hs : OnBoard s
  · exact hs
  · rw [placement_of_not_onBoard hs] at h
    cases h

namespace Valid

theorem placement_eq_none (h : Valid board) : placement board s = none ↔ look board s = 0 :=
  man_eq_none (h.code_le s)

theorem placement_eq_some (h : Valid board) {side : Side} {piece : Piece} :
    placement board s = some ⟨side, piece⟩ ↔
      ∃ k : Kind, k.piece = piece ∧ look board s = k.code * side.sign :=
  man_eq_some (h.code_le s)

theorem look_write (h : Valid board) (hs : OnBoard s) (t : Square) :
    look (write board s code) t = if t = s then code else look board t := by
  by_cases ht : OnBoard t
  · rw [look_eq_read ht, look_eq_read ht]
    exact Board.read_write h.size (onBoard_iff_laws.mpr hs) (onBoard_iff_laws.mpr ht)
  · have hne : t ≠ s := fun heq => ht (heq ▸ hs)
    rw [look_of_not_onBoard ht, look_of_not_onBoard ht, if_neg hne]

theorem write (h : Valid board) (hs : OnBoard s) (hcode : code.natAbs ≤ 8) :
    Valid (write board s code) where
  size := by
    unfold Chess.write
    rw [Board.size_write, h.size]
  code_le t := by
    rw [h.look_write hs]
    by_cases ht : t = s
    · rw [if_pos ht]
      exact hcode
    · rw [if_neg ht]
      exact h.code_le t

theorem placement_write (h : Valid board) (hs : OnBoard s) (t : Square) :
    placement (Chess.write board s code) t = if t = s then man code else placement board t := by
  unfold placement
  rw [h.look_write hs]
  by_cases ht : t = s
  · rw [if_pos ht, if_pos ht]
  · rw [if_neg ht, if_neg ht]

end Valid

theorem eq_of_look {a b : Board} (ha : Valid a) (hb : Valid b) (h : ∀ s, look a s = look b s) :
    a = b := by
  apply Board.ext_read ha.size hb.size
  intro s hs
  have hon := onBoard_iff_laws.mp hs
  rw [← look_eq_read hon, ← look_eq_read hon, h s]

theorem Valid.getElem_eq_look (h : Valid board) {i : Nat} (hi : i < board.size) :
    board[i] = look board (Square.ofCell boardSize i) := by
  have hcell : i < boardSize * boardSize := h.size ▸ hi
  have hindex := Square.index_ofCell hcell
  rw [look_eq_read (onBoard_iff_laws.mp (Square.onBoard_ofCell hcell)),
    Board.read_of_lt (by rw [hindex]; exact hi)]
  simp only [hindex]

theorem forall_square {P : Square → Prop} (hon : ∀ x y : Fin 8, P ⟨x.val, y.val⟩)
    (hoff : ∀ s, ¬ OnBoard s → P s) (s : Square) : P s := by
  by_cases hs : OnBoard s
  · have hsquare : s = ⟨(s.x.toNat : Int), (s.y.toNat : Int)⟩ := by
      obtain ⟨x, y⟩ := s
      unfold OnBoard at hs
      rw [Square.mk.injEq]
      dsimp only at hs ⊢
      omega
    unfold OnBoard at hs
    rw [hsquare]
    exact hon ⟨s.x.toNat, by omega⟩ ⟨s.y.toNat, by omega⟩
  · exact hoff s hs

theorem natAbs_code_mul_le (k : Kind) (side : Side) : (k.code * side.sign).natAbs ≤ 8 := by
  cases k <;> cases side <;> decide

end BoardGame.Chess
