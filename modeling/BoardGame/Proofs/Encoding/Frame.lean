import BoardGame.Encoding.Frame
import BoardGame.Proofs.Moves.Effect
/-!
# Boards in a frame

A frame turns squares, sides and codes, each by an involution. On the board seen in the
frame a square reads what the turned square reads, and writing to the board and then
looking at it is looking at it and then writing what the frame makes of the write.
-/

namespace BoardGame.Frame

variable {f : Frame} {n : Nat} {s t origin target : Square} {code piece : Int} {side : Side}
  {board : Board}

/-! ## Squares -/

theorem flip_x (hn : n < 0x80000000) :
    (f.flip n s).x = if f.leftRight then n - 1 - s.x else s.x := by
  rw [flip, Square.coordinate_of_lt hn]

theorem flip_y (hn : n < 0x80000000) :
    (f.flip n s).y = if f.reverseSides then n - 1 - s.y else s.y := by
  rw [flip, Square.coordinate_of_lt hn]

theorem flip_injective (f : Frame) (n : Nat) : Function.Injective (f.flip n) :=
  Function.LeftInverse.injective (f.flip_flip n)

theorem flip_eq_iff : f.flip n s = t ↔ s = f.flip n t := by
  constructor
  · rintro rfl
    rw [flip_flip]
  · rintro rfl
    rw [flip_flip]

theorem onBoard_flip (hn : n < 0x80000000) : (f.flip n s).onBoard n = s.onBoard n := by
  rw [Bool.eq_iff_iff, Square.onBoard_iff, Square.onBoard_iff, flip_x hn, flip_y hn]
  split <;> split <;> omega

theorem sub_flip_x (hn : n < 0x80000000) :
    (f.flip n t - f.flip n s).x = if f.leftRight then -(t - s).x else (t - s).x := by
  rw [Square.sub_x, Square.sub_x, flip_x hn, flip_x hn]
  split <;> omega

theorem sub_flip_y (hn : n < 0x80000000) :
    (f.flip n t - f.flip n s).y = if f.reverseSides then -(t - s).y else (t - s).y := by
  rw [Square.sub_y, Square.sub_y, flip_y hn, flip_y hn]
  split <;> omega

theorem natAbs_turn (c : Bool) (d : Int) : (if c then -d else d).natAbs = d.natAbs := by
  split
  · exact Int.natAbs_neg d
  · rfl

theorem turn_eq_zero (c : Bool) (d : Int) : (if c then -d else d) = 0 ↔ d = 0 := by
  split <;> omega

/-- Going along a line and turning is turning and going along the turned line. -/
theorem turn_along (c : Bool) (last a d : Int) (i : Nat) :
    (if c then last - a else a) + (if c then -d else d).sign * i =
      if c then last - (a + d.sign * i) else a + d.sign * i := by
  cases c with
  | false => rfl
  | true =>
      show last - a + (-d).sign * i = last - (a + d.sign * i)
      rw [Int.sign_neg, Int.neg_mul]
      omega

/-- What lies between two squares is turned with them and stays in order. -/
theorem between_flip (hn : n < 0x80000000) :
    Square.between (f.flip n origin) (f.flip n target) =
      (Square.between origin target).map (f.flip n) := by
  have hx : (f.flip n target).x - (f.flip n origin).x =
      if f.leftRight then -(target.x - origin.x) else target.x - origin.x := sub_flip_x hn
  have hy : (f.flip n target).y - (f.flip n origin).y =
      if f.reverseSides then -(target.y - origin.y) else target.y - origin.y := sub_flip_y hn
  unfold Square.between
  simp only [hx, hy, natAbs_turn, ne_eq, turn_eq_zero]
  generalize target.x - origin.x = dx
  generalize target.y - origin.y = dy
  split
  · rfl
  · rw [List.map_map]
    apply List.map_congr_left
    intro i _
    simp only [Function.comp_apply, flip, Square.coordinate_of_lt hn, turn_along]

/-! ## Codes and sides -/

@[simp] theorem code_zero : f.code 0 = 0 := by
  simp [Frame.code]

@[simp] theorem code_eq_zero : f.code code = 0 ↔ code = 0 := by
  unfold Frame.code
  split <;> omega

@[simp] theorem natAbs_code : (f.code code).natAbs = code.natAbs := by
  unfold Frame.code
  split <;> simp

theorem code_neg : f.code (-code) = -f.code code := by
  unfold Frame.code
  split <;> rfl

theorem code_inj : f.code code = f.code piece ↔ code = piece := by
  unfold Frame.code
  split <;> omega

theorem sign_code : (f.code code).sign = f.code code.sign := by
  unfold Frame.code
  split <;> simp

theorem sign_side : (f.side side).sign = f.code side.sign := by
  unfold Frame.side Frame.code
  split <;> simp

theorem code_mul_sign : f.code (code * side.sign) = code * (f.side side).sign := by
  rw [sign_side]
  unfold Frame.code
  split
  · exact (Int.mul_neg code side.sign).symm
  · rfl

theorem side_opponent : f.side side.opponent = (f.side side).opponent := by
  unfold Frame.side
  split <;> rfl

theorem classify_code :
    Occupant.classify (f.code code) (f.code piece) = Occupant.classify code piece := by
  unfold Occupant.classify
  simp only [code_eq_zero, sign_code, code_inj]

/-! ## Boards -/

@[simp] theorem size_board : (f.board n board).size = board.size := by
  simp [Frame.board]

theorem read_board (hn : n < 0x80000000) (hsize : board.size = n * n)
    (hs : s.onBoard n = true) :
    (f.board n board).read n s = f.code (board.read n (f.flip n s)) := by
  have hlt := Square.index_lt hs
  rw [Board.read_of_lt (by rw [size_board, hsize]; exact hlt)]
  simp only [Frame.board, Array.getElem_ofFn]
  rw [Square.ofIndex_index hn hs]

theorem board_board (hn : n < 0x80000000) (hsize : board.size = n * n) :
    f.board n (f.board n board) = board := by
  have hcells : (f.board n board).size = n * n := size_board.trans hsize
  apply Board.ext_read (size_board.trans hcells) hsize
  intro s hs
  have hflip : (f.flip n s).onBoard n = true := (onBoard_flip hn).trans hs
  rw [read_board hn hcells hs, read_board hn hsize hflip, flip_flip, code_code]

theorem board_write (hn : n < 0x80000000) (hsize : board.size = n * n)
    (hs : s.onBoard n = true) :
    f.board n (board.write n s code) = (f.board n board).write n (f.flip n s) (f.code code) := by
  have hflip : (f.flip n s).onBoard n = true := (onBoard_flip hn).trans hs
  have hcells : (f.board n board).size = n * n := size_board.trans hsize
  have hwritten : (board.write n s code).size = n * n := Board.size_write.trans hsize
  apply Board.ext_read (size_board.trans hwritten) (Board.size_write.trans hcells)
  intro t ht
  have hturned : (f.flip n t).onBoard n = true := (onBoard_flip hn).trans ht
  rw [read_board hn hwritten ht, Board.read_write hsize hs hturned,
    Board.read_write hcells hflip ht, read_board hn hsize ht]
  by_cases hsame : t = f.flip n s
  · rw [if_pos hsame, if_pos (flip_eq_iff.mpr hsame)]
  · rw [if_neg hsame, if_neg fun h => hsame (flip_eq_iff.mp h)]

/-- A write as it is seen in a frame. -/
def write (f : Frame) (n : Nat) (w : Write) : Write := ⟨f.flip n w.square, f.code w.code⟩

theorem board_writeAll (hn : n < 0x80000000) {writes : List Write} (hsize : board.size = n * n)
    (hwrites : ∀ w ∈ writes, w.square.onBoard n = true) :
    f.board n (board.writeAll n writes) =
      (f.board n board).writeAll n (writes.map (f.write n)) := by
  induction writes generalizing board with
  | nil => rfl
  | cons w rest ih =>
      obtain ⟨hw, hrest⟩ := List.forall_mem_cons.mp hwrites
      change f.board n ((board.write n w.square w.code).writeAll n rest) = _
      rw [ih (Board.size_write.trans hsize) hrest, board_write hn hsize hw]
      rfl

end BoardGame.Frame
