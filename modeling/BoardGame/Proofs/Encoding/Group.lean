import Mathlib.Algebra.Group.Defs
import BoardGame.Proofs.Moves.Reflection
/-!
# The group of frames

To look in one frame at what is seen in another is to look in a third: it turns the columns,
or exchanges the sides, if exactly one of the two does. With this product the frames are a
group in which each is its own inverse, and the group acts on squares, sides, piece codes,
moves and boards.
-/

namespace BoardGame.Frame

variable {f g : Frame} {n : Nat} {board : Board}

/-- The frame in which the original looks as what is seen in `f` looks in `g`. -/
def compose (f g : Frame) : Frame where
  leftRight := f.leftRight ^^ g.leftRight
  reverseSides := f.reverseSides ^^ g.reverseSides

instance : Mul Frame := ⟨compose⟩

instance : One Frame := ⟨identity⟩

instance : CommGroup Frame where
  inv f := f
  mul_assoc f g h := by
    show compose (compose f g) h = compose f (compose g h)
    simp only [compose, Bool.xor_assoc]
  one_mul f := by
    show compose identity f = f
    simp [compose, identity]
  mul_one f := by
    show compose f identity = f
    simp [compose, identity]
  inv_mul_cancel f := by
    show compose f f = identity
    simp [compose, identity]
  mul_comm f g := by
    show compose f g = compose g f
    simp only [compose, Bool.xor_comm]

theorem mul_self (f : Frame) : f * f = 1 :=
  inv_mul_cancel f

theorem reverseSides_mul : (f * g).reverseSides = (f.reverseSides ^^ g.reverseSides) := rfl

/-! ## What the group acts on -/

theorem flip_mul (f g : Frame) (n : Nat) (s : Square) :
    (f * g).flip n s = f.flip n (g.flip n s) := by
  have turn (a b : Bool) (c z : Int) :
      (if a ^^ b then c - z else z) =
        if a then c - (if b then c - z else z) else if b then c - z else z := by
    cases a <;> cases b
    case true.true =>
      show z = c - (c - z)
      omega
    all_goals rfl
  exact congrArg₂ Square.mk (turn _ _ _ _) (turn _ _ _ _)

theorem side_mul (f g : Frame) (s : Side) : (f * g).side s = f.side (g.side s) := by
  unfold side
  rw [reverseSides_mul]
  cases f.reverseSides <;> cases g.reverseSides <;> simp

theorem code_mul (f g : Frame) (c : Int) : (f * g).code c = f.code (g.code c) := by
  unfold code
  rw [reverseSides_mul]
  cases f.reverseSides <;> cases g.reverseSides <;> simp

theorem move_one (n : Nat) (m : LastMove) : (1 : Frame).move n m = m := rfl

theorem move_mul (f g : Frame) (n : Nat) (m : LastMove) :
    (f * g).move n m = f.move n (g.move n m) := by
  simp only [move, code_mul, flip_mul]

theorem board_mul (hn : n < 0x80000000) (hsize : board.size = n * n) :
    (f * g).board n board = f.board n (g.board n board) := by
  have hcells : (g.board n board).size = n * n := size_board.trans hsize
  apply Board.ext_read (size_board.trans hsize) (size_board.trans hcells)
  intro s hs
  have hflip : (f.flip n s).onBoard n = true := (onBoard_flip hn).trans hs
  calc ((f * g).board n board).read n s
      = (f * g).code (board.read n ((f * g).flip n s)) := read_board hn hsize hs
    _ = f.code (g.code (board.read n (g.flip n (f.flip n s)))) := by
        rw [code_mul, mul_comm f g, flip_mul]
    _ = f.code ((g.board n board).read n (f.flip n s)) := by rw [read_board hn hsize hflip]
    _ = (f.board n (g.board n board)).read n s := (read_board hn hcells hs).symm

end BoardGame.Frame
