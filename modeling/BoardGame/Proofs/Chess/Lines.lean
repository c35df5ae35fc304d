import BoardGame.Proofs.Ray
import BoardGame.Proofs.Chess.Board
/-!
# Lines of movement

Every piece but the knight moves along the eight directions. The displacements that
the laws allow a piece are matched here with the directions and numbers of steps in
which the engine follows it, and a free path with squares that read as empty.
-/

namespace BoardGame.Chess

open Laws Square

theorem directions_eq : Square.directions = orthogonals ++ diagonals := rfl

/-! ## Displacements -/

section

variable {s t d : Square} {n : Nat}

theorem orthogonal_iff (hd : d ∈ Square.directions) : d ∈ orthogonals ↔ d.x = 0 ∨ d.y = 0 := by
  simp only [Square.directions, List.mem_cons, List.not_mem_nil, or_false] at hd
  rcases hd with rfl | rfl | rfl | rfl | rfl | rfl | rfl | rfl <;> decide

theorem diagonal_iff (hd : d ∈ Square.directions) : d ∈ diagonals ↔ d.x ≠ 0 ∧ d.y ≠ 0 := by
  simp only [Square.directions, List.mem_cons, List.not_mem_nil, or_false] at hd
  rcases hd with rfl | rfl | rfl | rfl | rfl | rfl | rfl | rfl <;> decide

theorem orthogonals_subset (h : d ∈ orthogonals) : d ∈ Square.directions :=
  List.mem_append_left diagonals h

theorem diagonals_subset (h : d ∈ diagonals) : d ∈ Square.directions :=
  List.mem_append_right orthogonals h

theorem natAbs_ray_sub (s d : Square) (n : Nat) :
    (ray s d n - s).x.natAbs = n * d.x.natAbs ∧ (ray s d n - s).y.natAbs = n * d.y.natAbs := by
  have hx : (ray s d n - s).x = n * d.x := by simp only [ray, sub_x]; omega
  have hy : (ray s d n - s).y = n * d.y := by simp only [ray, sub_y]; omega
  rw [hx, hy, Int.natAbs_mul, Int.natAbs_mul, Int.natAbs_natCast]
  exact ⟨rfl, rfl⟩

theorem ray_sub_eq_zero (s d : Square) (hn : 0 < n) :
    ((ray s d n - s).x = 0 ↔ d.x = 0) ∧ ((ray s d n - s).y = 0 ↔ d.y = 0) := by
  have hx : (ray s d n - s).x = n * d.x := by simp only [ray, sub_x]; omega
  have hy : (ray s d n - s).y = n * d.y := by simp only [ray, sub_y]; omega
  rw [hx, hy, Int.mul_eq_zero, Int.mul_eq_zero]
  have hn0 : (n : Int) ≠ 0 := by omega
  exact ⟨or_iff_right hn0, or_iff_right hn0⟩

theorem rook_reaches_ray {side : Side} (hd : d ∈ Square.directions) (hn : 0 < n) :
    Piece.rook.Reaches side (ray s d n - s) ↔ d ∈ orthogonals := by
  obtain ⟨hx, hy⟩ := ray_sub_eq_zero s d hn
  have hd0 := (mem_directions.mp hd).2.2
  unfold Piece.Reaches
  rw [orthogonal_iff hd, Ne, Ne, hx, hy]
  omega

theorem bishop_reaches_ray {side : Side} (hd : d ∈ Square.directions) (hn : 0 < n) :
    Piece.bishop.Reaches side (ray s d n - s) ↔ d ∈ diagonals := by
  obtain ⟨hx, -⟩ := ray_sub_eq_zero s d hn
  obtain ⟨ax, ay⟩ := natAbs_ray_sub s d n
  unfold Piece.Reaches
  rw [diagonal_iff hd, Ne, hx, ax, ay]
  rcases natAbs_of_mem_directions hd with ⟨ex, ey⟩ | ⟨ex, ey⟩ | ⟨ex, ey⟩ <;> rw [ex, ey] <;> omega

theorem queen_reaches_iff {side : Side} :
    Piece.queen.Reaches side d ↔ Piece.rook.Reaches side d ∨ Piece.bishop.Reaches side d := by
  show _ ↔ (_ ∨ _) ∨ _
  rw [or_assoc]
  exact Iff.rfl

theorem queen_reaches_ray {side : Side} (hd : d ∈ Square.directions) (hn : 0 < n) :
    Piece.queen.Reaches side (ray s d n - s) := by
  rw [queen_reaches_iff, rook_reaches_ray hd hn, bishop_reaches_ray hd hn, ← List.mem_append]
  exact hd

theorem king_reaches_ray {side : Side} (hd : d ∈ Square.directions) :
    Piece.king.Reaches side (ray s d n - s) ↔ n = 1 := by
  obtain ⟨ax, ay⟩ := natAbs_ray_sub s d n
  unfold Piece.Reaches
  rw [ax, ay]
  rcases natAbs_of_mem_directions hd with ⟨ex, ey⟩ | ⟨ex, ey⟩ | ⟨ex, ey⟩ <;> rw [ex, ey] <;> omega

theorem pawn_reaches_ray {side : Side} (hd : d ∈ Square.directions) :
    Piece.pawn.Reaches side (ray s d n - s) ↔ n = 1 ∧ d.x ≠ 0 ∧ d.y = side.sign := by
  obtain ⟨ax, ay⟩ := natAbs_ray_sub s d n
  have hy : (ray s d n - s).y = n * d.y := by simp only [ray, sub_y]; omega
  unfold Piece.Reaches
  rw [ax, hy]
  constructor
  · rintro ⟨hx1, hsign⟩
    have hn : n = 1 := Nat.eq_one_of_mul_eq_one_right hx1
    subst hn
    exact ⟨rfl, by omega, by omega⟩
  · rintro ⟨rfl, hx0, hsign⟩
    have := natAbs_of_mem_directions hd
    omega

theorem not_knight_reaches_ray {side : Side} (hd : d ∈ Square.directions) :
    ¬ Piece.knight.Reaches side (ray s d n - s) := by
  obtain ⟨ax, ay⟩ := natAbs_ray_sub s d n
  unfold Piece.Reaches
  rw [ax, ay]
  rcases natAbs_of_mem_directions hd with ⟨ex, ey⟩ | ⟨ex, ey⟩ | ⟨ex, ey⟩ <;> rw [ex, ey] <;> omega

theorem exists_ray_of_reaches {side : Side} {piece : Piece} (hpiece : piece ≠ .knight)
    (h : piece.Reaches side (t - s)) :
    ∃ d ∈ Square.directions, ∃ n, 0 < n ∧ t = ray s d n := by
  have hsign : side.sign = 1 ∨ side.sign = -1 := by cases side <;> decide
  have hline : (t.x ≠ s.x ∨ t.y ≠ s.y) ∧
      (t.x = s.x ∨ t.y = s.y ∨ (t.x - s.x).natAbs = (t.y - s.y).natAbs) := by
    cases piece <;> simp only [Piece.Reaches, sub_x, sub_y] at h
    case knight => exact absurd rfl hpiece
    all_goals omega
  have hne : s ≠ t := by
    rintro rfl
    exact hline.1.elim (fun h => h rfl) (fun h => h rfl)
  obtain ⟨d, hd, ht⟩ := exists_ray hne hline.2
  refine ⟨d, hd, _, ?_, ht⟩
  omega

theorem knight_reaches_iff {side : Side} :
    Piece.knight.Reaches side (t - s) ↔ ∃ j ∈ knightJumps, t = s + j := by
  have heq : ∀ j, t = s + j ↔ t - s = j := by
    intro j
    constructor
    · rintro rfl
      exact add_sub_cancel_left s j
    · rintro rfl
      exact (add_sub_cancel s t).symm
  simp only [heq, exists_eq_right']
  generalize t - s = j
  obtain ⟨x, y⟩ := j
  show (x.natAbs = 1 ∧ y.natAbs = 2) ∨ (x.natAbs = 2 ∧ y.natAbs = 1) ↔ _
  constructor
  · rintro (⟨hx, hy⟩ | ⟨hx, hy⟩)
    · have hx' : x = 1 ∨ x = -1 := by omega
      have hy' : y = 2 ∨ y = -2 := by omega
      rcases hx' with rfl | rfl <;> rcases hy' with rfl | rfl <;> decide
    · have hx' : x = 2 ∨ x = -2 := by omega
      have hy' : y = 1 ∨ y = -1 := by omega
      rcases hx' with rfl | rfl <;> rcases hy' with rfl | rfl <;> decide
  · intro hj
    simp only [knightJumps, List.mem_cons, List.not_mem_nil, or_false, mk.injEq] at hj
    rcases hj with ⟨rfl, rfl⟩ | ⟨rfl, rfl⟩ | ⟨rfl, rfl⟩ | ⟨rfl, rfl⟩ | ⟨rfl, rfl⟩ | ⟨rfl, rfl⟩ |
      ⟨rfl, rfl⟩ | ⟨rfl, rfl⟩ <;> decide

/-! ## Free paths -/

variable {p : Placement}

theorem clear_ray (hd : d ∈ Square.directions) (hn : 0 < n) :
    Clear p s (ray s d n) ↔ ∀ i, 0 < i → i < n → p (ray s d i) = none := by
  unfold Clear
  constructor
  · intro h i hi hin
    exact h _ ((mem_between_ray hd hn).mpr ⟨i, ⟨hi, hin⟩, rfl⟩)
  · intro h u hu
    obtain ⟨i, ⟨hi, hin⟩, rfl⟩ := (mem_between_ray hd hn).mp hu
    exact h i hi hin

theorem clear_ray_back (hd : d ∈ Square.directions) (hn : 0 < n) :
    Clear p (ray s d n) s ↔ ∀ i, 0 < i → i < n → p (ray s d i) = none := by
  have hback := clear_ray (p := p) (s := ray s d n) (opposite_mem_directions hd) hn
  rw [ray_back] at hback
  rw [hback]
  constructor
  · intro h i hi hin
    have hi' := h (n - i) (by omega) (by omega)
    rw [ray_opposite (Nat.sub_le n i)] at hi'
    rwa [show n - (n - i) = i by omega] at hi'
  · intro h i hi hin
    rw [ray_opposite (Nat.le_of_lt hin)]
    exact h (n - i) (by omega) (by omega)

theorem clear_of_knight {side : Side} (h : Piece.knight.Reaches side (t - s)) :
    Clear p s t := by
  intro u hu
  unfold between at hu
  simp only [Piece.Reaches, sub_x, sub_y] at h
  rw [if_pos (by omega)] at hu
  cases hu

end

/-! ## Following a line on the board -/

variable {board : Board} {s t d : Square} {n : Nat}

/-- The squares that a ray passes in fewer than `k` steps are on the board and empty. -/
def Free (board : Board) (s d : Square) (k : Nat) : Prop :=
  ∀ i, 0 < i → i < k → OnBoard (ray s d i) ∧ look board (ray s d i) = 0

theorem free_one (board : Board) (s d : Square) : Free board s d 1 := by
  intro i hi hi1
  omega

theorem free_succ {k : Nat} (hk : 0 < k) :
    Free board s d (k + 1) ↔
      (OnBoard (s + d) ∧ look board (s + d) = 0) ∧ Free board (s + d) d k := by
  have hone : ray s d 1 = s + d := by rw [ray_succ, ray_zero]
  constructor
  · intro h
    refine ⟨hone ▸ h 1 Nat.one_pos (by omega), fun i hi hik => ?_⟩
    rw [← ray_succ]
    exact h (i + 1) (by omega) (by omega)
  · rintro ⟨hfirst, hrest⟩ i hi hik
    by_cases hi1 : i = 1
    · rw [hi1, hone]
      exact hfirst
    · obtain ⟨j, rfl⟩ := Nat.exists_eq_succ_of_ne_zero (Nat.ne_of_gt hi)
      rw [ray_succ]
      exact hrest j (by omega) (by omega)

/-- A point is reached at the first step, or later if the first square is free. -/
theorem exists_steps_succ {P : Prop} :
    (∃ k, (0 < k ∧ k ≤ n + 1) ∧ t = ray s d k ∧ P ∧ Free board s d k) ↔
      (t = s + d ∧ P) ∨ ((OnBoard (s + d) ∧ look board (s + d) = 0) ∧
        ∃ k, (0 < k ∧ k ≤ n) ∧ t = ray (s + d) d k ∧ P ∧ Free board (s + d) d k) := by
  constructor
  · rintro ⟨k, hk, ht, hp, hfree⟩
    obtain ⟨j, rfl⟩ := Nat.exists_eq_succ_of_ne_zero (Nat.ne_of_gt hk.1)
    by_cases hj : j = 0
    · left
      rw [ht, hj, ray_succ, ray_zero]
      exact ⟨rfl, hp⟩
    · right
      have hrest := (free_succ (Nat.pos_of_ne_zero hj)).mp hfree
      exact ⟨hrest.1, j, by omega, ht.trans (ray_succ s d j), hp, hrest.2⟩
  · rintro (⟨ht, hp⟩ | ⟨hfirst, k, hk, ht, hp, hfree⟩)
    · refine ⟨1, by omega, ?_, hp, free_one board s d⟩
      rw [ht, ray_succ, ray_zero]
    · refine ⟨k + 1, by omega, ?_, hp, (free_succ hk.1).mpr ⟨hfirst, hfree⟩⟩
      rw [ht, ray_succ]

theorem firstOccupied?_eq_some :
    firstOccupied? board s d n = some t ↔
      ∃ k, (0 < k ∧ k ≤ n) ∧ t = ray s d k ∧ look board t ≠ 0 ∧ Free board s d k := by
  induction n generalizing s with
  | zero =>
      simp only [firstOccupied?, reduceCtorEq, false_iff]
      rintro ⟨k, hk, -⟩
      omega
  | succ n ih =>
      rw [exists_steps_succ, ← ih, firstOccupied?]
      by_cases hon : OnBoard (s + d)
      · rw [if_neg (by simp [onBoard_iff_laws.mpr hon]), ← look_eq_read hon]
        by_cases hocc : look board (s + d) = 0
        · rw [if_neg (by simpa using hocc)]
          simp only [hon, hocc, true_and]
          refine (or_iff_right ?_).symm
          rintro ⟨rfl, hne⟩
          exact hne hocc
        · rw [if_pos (by simpa using hocc), Option.some.injEq]
          simp only [hocc, and_false, false_and, or_false]
          constructor
          · rintro rfl
            exact ⟨rfl, hocc⟩
          · rintro ⟨rfl, -⟩
            rfl
      · rw [if_pos (by simpa [← onBoard_iff_laws] using hon)]
        simp only [hon, false_and, or_false, reduceCtorEq, false_iff]
        rintro ⟨rfl, hne⟩
        exact hon (onBoard_of_look_ne_zero hne)

theorem mem_reach :
    t ∈ reach board s d n ↔
      ∃ k, (0 < k ∧ k ≤ n) ∧ t = ray s d k ∧ OnBoard t ∧ Free board s d k := by
  induction n generalizing s with
  | zero =>
      simp only [reach, List.not_mem_nil, false_iff]
      rintro ⟨k, hk, -⟩
      omega
  | succ n ih =>
      rw [exists_steps_succ, ← ih, reach]
      by_cases hon : OnBoard (s + d)
      · have hfirst : t = s + d ∧ OnBoard t ↔ t = s + d :=
          and_iff_left_of_imp fun ht => ht ▸ hon
        rw [if_neg (by simp [onBoard_iff_laws.mpr hon]), ← look_eq_read hon, hfirst]
        by_cases hocc : look board (s + d) = 0
        · rw [if_neg (by simpa using hocc), List.mem_cons]
          simp only [hon, hocc, true_and]
        · rw [if_pos (by simpa using hocc), List.mem_singleton]
          simp only [hocc, and_false, false_and, or_false]
      · rw [if_pos (by simpa [← onBoard_iff_laws] using hon)]
        simp only [hon, false_and, or_false, List.not_mem_nil, false_iff]
        rintro ⟨rfl, ht⟩
        exact hon ht

end BoardGame.Chess
