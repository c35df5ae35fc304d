import BoardGame.Text.Integer
/-!
# Squares

A square is a pair of coordinates, `a1` being `(0, 0)`. Coordinates may lie
outside a board: pieces that are dropped come from virtual squares just off its
edge, and offsets are squares too. On a board of edge `n` the square `(x, y)`
is cell `y * n + x`. Coordinates are signed words of 32 bits and cells are
counted with 64, so that counts beyond either wrap round.
-/

namespace BoardGame

structure Square where
  x : Int
  y : Int
deriving DecidableEq, Inhabited

namespace Square

instance : Add Square := ⟨fun a b => ⟨a.x + b.x, a.y + b.y⟩⟩

@[simp] theorem add_x (a b : Square) : (a + b).x = a.x + b.x := rfl

@[simp] theorem add_y (a b : Square) : (a + b).y = a.y + b.y := rfl

instance : Sub Square := ⟨fun a b => ⟨a.x - b.x, a.y - b.y⟩⟩

@[simp] theorem sub_x (a b : Square) : (a - b).x = a.x - b.x := rfl

@[simp] theorem sub_y (a b : Square) : (a - b).y = a.y - b.y := rfl

theorem add_sub_cancel (a b : Square) : a + (b - a) = b := by
  obtain ⟨x, y⟩ := b
  show Square.mk _ _ = _
  simp only [sub_x, sub_y, mk.injEq]
  omega

theorem add_sub_cancel_left (a b : Square) : a + b - a = b := by
  obtain ⟨x, y⟩ := b
  show Square.mk _ _ = _
  simp only [add_x, add_y, mk.injEq]
  omega

/-- Origin of a piece that comes from nowhere. -/
def nowhere : Square := ⟨-1, -1⟩

def onBoard (size : Nat) (s : Square) : Bool :=
  decide (0 ≤ s.x) && decide (0 ≤ s.y) && decide (s.x < size) && decide (s.y < size)

/-- Number of cells that can be counted. -/
def cellBound : Int := 0x10000000000000000

/-- Cell of a square on a board of edge `size`. Squares before the first cell are counted
back from the end, where no board has cells. -/
def index (size : Nat) (s : Square) : Nat :=
  let i := s.y * size + s.x
  if 0 ≤ i then i.toNat else (i + cellBound).toNat

/-- A count as a coordinate. Counts of up to 31 bits keep their value. -/
def coordinate (n : Nat) : Int :=
  if n < 0x80000000 then n else Int.bmod n 0x100000000

/-- Square of a cell on a board of edge `size`. -/
def ofIndex (size i : Nat) : Square :=
  ⟨coordinate (i % size), coordinate (i / size)⟩

/-- Cells from the first on are counted row by row. -/
theorem index_of_nonneg {size : Nat} {s : Square} (h : 0 ≤ s.y * size + s.x) :
    (s.index size : Int) = s.y * size + s.x := by
  unfold index
  rw [if_pos h]
  exact Int.toNat_of_nonneg h

theorem coordinate_of_lt {n : Nat} (h : n < 0x80000000) : coordinate n = n :=
  if_pos h

/-- A coordinate is the remainder of the count that lies around zero. -/
theorem coordinate_eq_bmod (n : Nat) : coordinate n = Int.bmod n 0x100000000 := by
  unfold coordinate
  split
  · rw [Int.bmod_eq_of_le] <;> omega
  · rfl

/-- The squares strictly between two squares of one row, column or diagonal, in
order. Nothing lies between squares that share no line. -/
def between (origin target : Square) : List Square :=
  let dx := target.x - origin.x
  let dy := target.y - origin.y
  if dx ≠ 0 ∧ dy ≠ 0 ∧ dx.natAbs ≠ dy.natAbs then []
  else
    (List.range' 1 (max dx.natAbs dy.natAbs - 1)).map fun (i : Nat) =>
      ⟨origin.x + dx.sign * i, origin.y + dy.sign * i⟩

/-- File letter and rank number. Squares left of or below the board, and those
beyond the letters, are written as a dash. -/
def name (s : Square) : String :=
  if s.x < 0 ∨ s.y < 0 ∨ 26 ≤ s.x then "-"
  else String.singleton (Char.ofNat ('a'.toNat + s.x.toNat)) ++ toString (s.y + 1)

/-- Reads a file letter of either case and a rank of at least one. -/
def parse? (cs : List Char) : Option Square :=
  match cs with
  | [] => none
  | c :: rank =>
    let file := c.toLower
    if 'a' ≤ file ∧ file ≤ 'z' then
      match Text.integer? 0x80000000 rank with
      | some r => if r < 1 then none else some ⟨(file.toNat - 'a'.toNat : Nat), r - 1⟩
      | none => none
    else none

end Square

end BoardGame
