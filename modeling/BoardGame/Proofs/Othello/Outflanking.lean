import Mathlib.Data.Finset.Card
import Mathlib.Data.Finset.Filter
import Mathlib.Data.List.Basic
import BoardGame.Position
import BoardGame.Proofs.Ray
/-!
# Outflanking

The rule of Othello, said without pieces that move: a side plays on an empty
square if some ray from it passes opponents and then meets an own piece. All
opponents on such rays change sides.
-/

namespace BoardGame.Othello

open Square (ray directions)

/-- A ray from `c` passes `n` opponents and then meets a piece of the side to move. -/
def Outflanks (pos : Position) (c d : Square) (n : Nat) : Prop :=
  d ∈ directions ∧ 0 < n ∧ (∀ i < n, pos.cell (ray c d (i + 1)) = -pos.mover.sign) ∧
    pos.cell (ray c d (n + 1)) = pos.mover.sign

instance (pos : Position) (c d : Square) (n : Nat) : Decidable (Outflanks pos c d n) :=
  inferInstanceAs (Decidable (_ ∧ _ ∧ _ ∧ _))

theorem onBoard_of_cell_ne_zero {pos : Position} {s : Square} (h : pos.cell s ≠ 0) :
    pos.onBoard s = true := by
  by_cases hs : pos.onBoard s = true
  · exact hs
  · exact absurd (if_neg hs) h

theorem sign_ne_zero (side : Side) : side.sign ≠ 0 := by
  cases side <;> decide

theorem Outflanks.lt_size {pos : Position} {c d : Square} {n : Nat} (h : Outflanks pos c d n) :
    n < pos.size := by
  obtain ⟨hd, hn, hopp, hown⟩ := h
  have hfirst : pos.onBoard (ray c d 1) = true := by
    apply onBoard_of_cell_ne_zero
    rw [hopp 0 hn]
    exact Int.neg_ne_zero.mpr (sign_ne_zero _)
  have hlast : pos.onBoard (ray c d (n + 1)) = true := by
    apply onBoard_of_cell_ne_zero
    rw [hown]
    exact sign_ne_zero _
  have hshift : ray c d (n + 1) = ray (ray c d 1) d n := by
    rw [Square.ray_succ, Square.ray_succ, Square.ray_zero]
  rw [hshift] at hlast
  exact Square.lt_of_onBoard_ray hd hfirst hlast

theorem Outflanks.unique {pos : Position} {c d : Square} {m n : Nat} (hm : Outflanks pos c d m)
    (hn : Outflanks pos c d n) : m = n := by
  obtain ⟨-, -, hoppm, hownm⟩ := hm
  obtain ⟨-, -, hoppn, hownn⟩ := hn
  have hsign := sign_ne_zero pos.mover
  rcases Nat.lt_trichotomy m n with h | h | h
  · have := hoppn m h
    omega
  · exact h
  · have := hoppm n h
    omega

/-- The ray from `c` is outflanked. -/
def Outflanked (pos : Position) (c d : Square) : Prop :=
  ∃ n, Outflanks pos c d n

instance (pos : Position) (c : Square) : DecidablePred (Outflanked pos c) := fun d =>
  decidable_of_iff (∃ n < pos.size, Outflanks pos c d n)
    ⟨fun ⟨n, _, h⟩ => ⟨n, h⟩, fun ⟨n, h⟩ => ⟨n, h.lt_size, h⟩⟩

/-- The rays on which pieces change sides if the side to move plays on `c`. -/
def outflankedRays (pos : Position) (c : Square) : Finset Square :=
  directions.toFinset.filter (Outflanked pos c)

/-- The side to move may play on `c`. -/
def Playable (pos : Position) (c : Square) : Prop :=
  pos.onBoard c = true ∧ pos.cell c = 0 ∧ (outflankedRays pos c).Nonempty

/-- A piece on `c` outflanks the opponent on `s` along one of the rays. -/
def TurnedBy (pos : Position) (c : Square) (rays : Finset Square) (s : Square) : Prop :=
  ∃ d ∈ rays, ∃ n, Outflanks pos c d n ∧ ∃ i < n, ray c d (i + 1) = s

instance (pos : Position) (c : Square) (rays : Finset Square) :
    DecidablePred (TurnedBy pos c rays) := fun s =>
  decidable_of_iff (∃ d ∈ rays, ∃ n < pos.size, Outflanks pos c d n ∧
      ∃ i < n, ray c d (i + 1) = s)
    ⟨fun ⟨d, hd, n, _, h⟩ => ⟨d, hd, n, h⟩, fun ⟨d, hd, n, h⟩ => ⟨d, hd, n, h.1.lt_size, h⟩⟩

/-- The board with `code` on `c` and the opponents on the given rays turned. -/
def turnedBoard (pos : Position) (c : Square) (rays : Finset Square) (code : Int) : Board :=
  Board.ofSquares 8 fun s =>
    if s = c then code
    else if TurnedBy pos c rays s then -pos.cell s
    else pos.cell s

@[simp] theorem size_turnedBoard {pos : Position} {c : Square} {rays : Finset Square}
    {code : Int} : (turnedBoard pos c rays code).size = 64 :=
  Board.size_ofSquares _

theorem read_turnedBoard {pos : Position} {c s : Square} {rays : Finset Square} {code : Int}
    (hs : s.onBoard 8 = true) :
    (turnedBoard pos c rays code).read 8 s =
      if s = c then code else if TurnedBy pos c rays s then -pos.cell s else pos.cell s :=
  Board.read_ofSquares _ hs

theorem mem_outflankedRays {pos : Position} {c d : Square} :
    d ∈ outflankedRays pos c ↔ ∃ n, Outflanks pos c d n := by
  simp only [outflankedRays, Finset.mem_filter, List.mem_toFinset]
  exact ⟨fun h => h.2, fun ⟨n, h⟩ => ⟨h.1, n, h⟩⟩

theorem TurnedBy.cell_eq {pos : Position} {c s : Square} {rays : Finset Square}
    (h : TurnedBy pos c rays s) : pos.cell s = -pos.mover.sign := by
  obtain ⟨d, -, n, ⟨-, -, hopp, -⟩, i, hi, rfl⟩ := h
  exact hopp i hi

theorem turnedBy_ray {pos : Position} {c d : Square} {rays : Finset Square} {i : Nat}
    (hd : d ∈ directions) :
    TurnedBy pos c rays (ray c d (i + 1)) ↔ d ∈ rays ∧ ∃ n, Outflanks pos c d n ∧ i < n := by
  constructor
  · rintro ⟨e, he, n, hn, j, hj, heq⟩
    obtain ⟨rfl, hij⟩ := Square.ray_inj hn.1 hd (Nat.succ_pos j) (Nat.succ_pos i) heq
    exact ⟨he, n, hn, by omega⟩
  · rintro ⟨hmem, n, hn, hi⟩
    exact ⟨d, hmem, n, hn, i, hi, rfl⟩

theorem turnedBy_insert {pos : Position} {c d s : Square} {rays : Finset Square} :
    TurnedBy pos c (insert d rays) s ↔
      (∃ n, Outflanks pos c d n ∧ ∃ i < n, ray c d (i + 1) = s) ∨ TurnedBy pos c rays s := by
  simp only [TurnedBy, Finset.mem_insert, or_and_right, exists_or, exists_eq_left]

end BoardGame.Othello
