import BoardGame.Board
/-!
# Reading and writing boards

The cells of a board of edge `n` and the squares on it answer to each other one
to one. A board is therefore known by what is read from its squares, and a write
changes what is read from one square only.
-/

namespace BoardGame

namespace Square

theorem onBoard_iff {n : Nat} {s : Square} :
    s.onBoard n = true ↔ (0 ≤ s.x ∧ 0 ≤ s.y) ∧ s.x < n ∧ s.y < n := by
  simp only [onBoard, Bool.and_eq_true, decide_eq_true_eq]
  omega

theorem index_eq {n : Nat} {s : Square} (h : s.onBoard n = true) :
    s.index n = s.y.toNat * n + s.x.toNat := by
  rw [onBoard_iff] at h
  have hx : (s.x.toNat : Int) = s.x := Int.toNat_of_nonneg h.1.1
  have hy : (s.y.toNat : Int) = s.y := Int.toNat_of_nonneg h.1.2
  have hcell : s.y * n + s.x = ((s.y.toNat * n + s.x.toNat : Nat) : Int) := by
    rw [Int.natCast_add, Int.natCast_mul, hx, hy]
  have hcast := @index_of_nonneg n s (by rw [hcell]; omega)
  rw [hcell] at hcast
  exact Int.ofNat_inj.mp hcast

theorem index_lt {n : Nat} {s : Square} (h : s.onBoard n = true) : s.index n < n * n := by
  rw [index_eq h]
  rw [onBoard_iff] at h
  have hx : s.x.toNat < n := by omega
  have hy : s.y.toNat + 1 ≤ n := by omega
  calc
    s.y.toNat * n + s.x.toNat < s.y.toNat * n + n := by omega
    _ = (s.y.toNat + 1) * n := by rw [Nat.add_mul, Nat.one_mul]
    _ ≤ n * n := Nat.mul_le_mul_right n hy

/-- The square of a cell, with its coordinates as they are. -/
def ofCell (n i : Nat) : Square := ⟨(i % n : Nat), (i / n : Nat)⟩

theorem onBoard_ofCell {n i : Nat} (h : i < n * n) : (ofCell n i).onBoard n = true := by
  have hn : 0 < n := Nat.pos_of_ne_zero fun h0 => by simp [h0] at h
  have hx := Nat.mod_lt i hn
  have hy := Nat.div_lt_of_lt_mul h
  rw [onBoard_iff]
  exact ⟨⟨Int.natCast_nonneg _, Int.natCast_nonneg _⟩, Int.ofNat_lt.mpr hx, Int.ofNat_lt.mpr hy⟩

theorem index_ofCell {n i : Nat} (h : i < n * n) : (ofCell n i).index n = i := by
  rw [index_eq (onBoard_ofCell h)]
  simp only [ofCell, Int.toNat_natCast]
  exact Nat.div_add_mod' i n

theorem ofCell_index {n : Nat} {s : Square} (h : s.onBoard n = true) :
    ofCell n (s.index n) = s := by
  obtain ⟨x, y⟩ := s
  rw [index_eq h]
  rw [onBoard_iff] at h
  simp only at h
  have hn : 0 < n := by omega
  have hx : x.toNat < n := by omega
  have hmod : (y.toNat * n + x.toNat) % n = x.toNat := by
    rw [Nat.mul_add_mod_self_right, Nat.mod_eq_of_lt hx]
  have hdiv : (y.toNat * n + x.toNat) / n = y.toNat := by
    rw [Nat.mul_comm, Nat.mul_add_div hn, Nat.div_eq_of_lt hx, Nat.add_zero]
  simp only [ofCell, hmod, hdiv, mk.injEq]
  omega

theorem ofIndex_eq_ofCell {n i : Nat} (hn : n < 0x80000000) (h : i < n * n) :
    ofIndex n i = ofCell n i := by
  have hpos : 0 < n := Nat.pos_of_ne_zero fun h0 => by simp [h0] at h
  have hx := Nat.mod_lt i hpos
  have hy := Nat.div_lt_of_lt_mul h
  rw [ofIndex, coordinate_of_lt (by omega), coordinate_of_lt (by omega), ofCell]

theorem ofIndex_index {n : Nat} {s : Square} (hn : n < 0x80000000) (h : s.onBoard n = true) :
    ofIndex n (s.index n) = s := by
  rw [ofIndex_eq_ofCell hn (index_lt h), ofCell_index h]

theorem index_injective {n : Nat} {s t : Square} (hs : s.onBoard n = true)
    (ht : t.onBoard n = true) (h : s.index n = t.index n) : s = t := by
  rw [← ofCell_index hs, h, ofCell_index ht]

end Square

namespace Board

variable {n : Nat} {board : Board} {s t : Square} {code : Int}

@[simp] theorem size_write : (board.write n s code).size = board.size := by
  simp [write]

theorem read_of_lt (h : s.index n < board.size) : board.read n s = board[s.index n] := by
  simp [read, h]

theorem read_write (hsize : board.size = n * n) (hs : s.onBoard n = true)
    (ht : t.onBoard n = true) :
    (board.write n s code).read n t = if t = s then code else board.read n t := by
  have hlt : t.index n < board.size := hsize ▸ Square.index_lt ht
  rw [read_of_lt (by simpa using hlt), read_of_lt hlt]
  simp only [write, Array.getElem_setIfInBounds hlt]
  by_cases h : t = s
  · rw [if_pos h, if_pos (by rw [h])]
  · rw [if_neg h, if_neg fun e => h (Square.index_injective ht hs e.symm)]

theorem read_write_self (hsize : board.size = n * n) (hs : s.onBoard n = true) :
    (board.write n s code).read n s = code := by
  rw [read_write hsize hs hs, if_pos rfl]

theorem read_write_of_ne (hsize : board.size = n * n) (hs : s.onBoard n = true)
    (ht : t.onBoard n = true) (h : t ≠ s) :
    (board.write n s code).read n t = board.read n t := by
  rw [read_write hsize hs ht, if_neg h]

/-- A write takes the code that was there out of a count and puts the new one in. -/
theorem countP_write (p : Int → Bool) (hsize : board.size = n * n) (hs : s.onBoard n = true) :
    (board.write n s code).countP p + (if p (board.read n s) then 1 else 0) =
      board.countP p + if p code then 1 else 0 := by
  have hlt : s.index n < board.size := hsize ▸ Square.index_lt hs
  have hread := read_of_lt hlt
  rw [write, Array.setIfInBounds_def, dif_pos hlt, Array.countP_set, hread]
  by_cases hp : p board[s.index n] = true
  · have hpos : 0 < board.countP p :=
      Array.countP_pos_iff.mpr ⟨_, Array.getElem_mem hlt, hp⟩
    rw [if_pos hp]
    omega
  · rw [if_neg hp]
    rfl

theorem ext_read {a b : Board} (ha : a.size = n * n) (hb : b.size = n * n)
    (h : ∀ s : Square, s.onBoard n = true → a.read n s = b.read n s) : a = b := by
  apply Array.ext (ha.trans hb.symm)
  intro i hia hib
  have hi : i < n * n := ha ▸ hia
  have hread := h _ (Square.onBoard_ofCell hi)
  simp only [read, Square.index_ofCell hi] at hread
  simpa [hia, hib] using hread

theorem mem_of_read (hsize : board.size = n * n) (hs : s.onBoard n = true) :
    board.read n s ∈ board := by
  rw [read_of_lt (hsize ▸ Square.index_lt hs)]
  exact Array.getElem_mem _

theorem mem_iff_exists_read (hsize : board.size = n * n) :
    code ∈ board ↔ ∃ s : Square, s.onBoard n = true ∧ board.read n s = code := by
  constructor
  · intro hmem
    obtain ⟨i, hi, hcode⟩ := Array.mem_iff_getElem.mp hmem
    have hcell : i < n * n := hsize ▸ hi
    refine ⟨Square.ofCell n i, Square.onBoard_ofCell hcell, ?_⟩
    simp [read, Square.index_ofCell hcell, hi, hcode]
  · rintro ⟨s, hs, rfl⟩
    exact mem_of_read hsize hs

/-- The board of edge `n` on which a function says what stands where. -/
def ofSquares (n : Nat) (f : Square → Int) : Board :=
  Array.ofFn fun i : Fin (n * n) => f (Square.ofCell n i)

@[simp] theorem size_ofSquares (f : Square → Int) : (ofSquares n f).size = n * n := by
  simp [ofSquares]

theorem read_ofSquares (f : Square → Int) (hs : s.onBoard n = true) :
    (ofSquares n f).read n s = f s := by
  rw [read_of_lt (by simpa using Square.index_lt hs)]
  simp [ofSquares, Square.ofCell_index hs]

end Board

end BoardGame
