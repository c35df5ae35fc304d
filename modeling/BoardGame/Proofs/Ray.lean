import BoardGame.Proofs.Board
/-!
# Rays

A ray leaves a square in one of the eight directions. Two squares that share a
row, column or diagonal lie on a ray, and the squares between them are the ones
that the ray passes first.
-/

namespace BoardGame.Square

/-- The eight directions. -/
def directions : List Square :=
  [⟨1, 0⟩, ⟨0, 1⟩, ⟨-1, 0⟩, ⟨0, -1⟩, ⟨1, 1⟩, ⟨1, -1⟩, ⟨-1, 1⟩, ⟨-1, -1⟩]

def opposite (d : Square) : Square := ⟨-d.x, -d.y⟩

/-- The square `n` steps from `s` in a direction. -/
def ray (s d : Square) (n : Nat) : Square := ⟨s.x + n * d.x, s.y + n * d.y⟩

theorem mem_directions {d : Square} :
    d ∈ directions ↔ (d.x = -1 ∨ d.x = 0 ∨ d.x = 1) ∧ (d.y = -1 ∨ d.y = 0 ∨ d.y = 1) ∧
      (d.x ≠ 0 ∨ d.y ≠ 0) := by
  obtain ⟨x, y⟩ := d
  simp only [directions, List.mem_cons, List.not_mem_nil, or_false, mk.injEq]
  omega

theorem opposite_mem_directions {d : Square} (hd : d ∈ directions) :
    opposite d ∈ directions := by
  rw [mem_directions] at hd ⊢
  simp only [opposite]
  omega

@[simp] theorem ray_zero (s d : Square) : ray s d 0 = s := by
  simp [ray]

theorem ray_succ (s d : Square) (n : Nat) : ray s d (n + 1) = ray (s + d) d n := by
  simp only [ray, add_x, add_y, mk.injEq, Int.natCast_add, Int.add_mul]
  omega

theorem ray_add (s d : Square) (n : Nat) : ray s d n + d = ray s d (n + 1) := by
  show Square.mk _ _ = _
  simp only [ray, mk.injEq, Int.natCast_add, Int.add_mul]
  omega

theorem ray_inj {s d e : Square} (hd : d ∈ directions) (he : e ∈ directions) {m n : Nat}
    (hm : 0 < m) (hn : 0 < n) (h : ray s d m = ray s e n) : d = e ∧ m = n := by
  obtain ⟨dx, dy⟩ := d
  obtain ⟨ex, ey⟩ := e
  obtain ⟨hdx, hdy, hd0⟩ := mem_directions.mp hd
  obtain ⟨hex, hey, he0⟩ := mem_directions.mp he
  simp only [ray, mk.injEq] at h hdx hdy hd0 hex hey he0 ⊢
  rcases hdx with rfl | rfl | rfl <;> rcases hdy with rfl | rfl | rfl <;>
    rcases hex with rfl | rfl | rfl <;> rcases hey with rfl | rfl | rfl <;> omega

theorem ray_ne_self {s d : Square} (hd : d ∈ directions) {n : Nat} (hn : 0 < n) :
    ray s d n ≠ s := by
  obtain ⟨x, y⟩ := s
  obtain ⟨dx, dy⟩ := d
  obtain ⟨hdx, hdy, hd0⟩ := mem_directions.mp hd
  simp only [ray, ne_eq, mk.injEq] at hdx hdy hd0 ⊢
  rcases hdx with rfl | rfl | rfl <;> rcases hdy with rfl | rfl | rfl <;> omega

theorem ray_opposite {s d : Square} {n i : Nat} (h : i ≤ n) :
    ray (ray s d n) (opposite d) i = ray s d (n - i) := by
  have hcast : ((n - i : Nat) : Int) = n - i := Int.natCast_sub h
  simp only [ray, opposite, hcast, mk.injEq, Int.sub_mul, Int.mul_neg]
  omega

theorem ray_back (s d : Square) (n : Nat) : ray (ray s d n) (opposite d) n = s := by
  rw [ray_opposite (Nat.le_refl n), Nat.sub_self, ray_zero]

theorem onBoard_ray_of_le {size : Nat} {s d : Square} (hd : d ∈ directions) {i n : Nat}
    (hs : s.onBoard size = true) (hn : (ray s d n).onBoard size = true) (h : i ≤ n) :
    (ray s d i).onBoard size = true := by
  obtain ⟨dx, dy⟩ := d
  obtain ⟨hdx, hdy, -⟩ := mem_directions.mp hd
  rw [onBoard_iff] at hs hn ⊢
  simp only [ray] at hdx hdy hn ⊢
  rcases hdx with rfl | rfl | rfl <;> rcases hdy with rfl | rfl | rfl <;> omega

/-- No ray stays on the board for as many steps as the board has lines. -/
theorem lt_of_onBoard_ray {size : Nat} {s d : Square} (hd : d ∈ directions) {n : Nat}
    (hs : s.onBoard size = true) (hn : (ray s d n).onBoard size = true) : n < size := by
  obtain ⟨dx, dy⟩ := d
  obtain ⟨hdx, hdy, hd0⟩ := mem_directions.mp hd
  rw [onBoard_iff] at hs hn
  simp only [ray] at hdx hdy hd0 hn
  rcases hdx with rfl | rfl | rfl <;> rcases hdy with rfl | rfl | rfl <;> omega

theorem natAbs_of_mem_directions {d : Square} (hd : d ∈ directions) :
    (d.x.natAbs = 1 ∧ d.y.natAbs = 1) ∨ (d.x.natAbs = 1 ∧ d.y.natAbs = 0) ∨
      (d.x.natAbs = 0 ∧ d.y.natAbs = 1) := by
  rw [mem_directions] at hd
  omega

theorem between_ray {s d : Square} (hd : d ∈ directions) {n : Nat} (hn : 0 < n) :
    between s (ray s d n) = (List.range' 1 (n - 1)).map (ray s d) := by
  have hdx : (ray s d n).x - s.x = n * d.x := by simp only [ray]; omega
  have hdy : (ray s d n).y - s.y = n * d.y := by simp only [ray]; omega
  have hsign : ∀ a : Int, (a = -1 ∨ a = 0 ∨ a = 1) → (n * a : Int).sign = a := by
    intro a ha
    rw [Int.sign_mul, Int.sign_natCast_of_ne_zero (by omega), Int.one_mul]
    rcases ha with rfl | rfl | rfl <;> rfl
  have habs : ∀ a : Int, (n * a : Int).natAbs = n * a.natAbs := fun a => by
    rw [Int.natAbs_mul, Int.natAbs_natCast]
  obtain ⟨hx, hy, h0⟩ := mem_directions.mp hd
  have hmax : max (n * d.x.natAbs) (n * d.y.natAbs) = n := by
    rcases natAbs_of_mem_directions hd with ⟨ex, ey⟩ | ⟨ex, ey⟩ | ⟨ex, ey⟩ <;> rw [ex, ey] <;> omega
  have hline : ¬(n * d.x ≠ 0 ∧ n * d.y ≠ 0 ∧ n * d.x.natAbs ≠ n * d.y.natAbs) := by
    rintro ⟨nx, ny, nxy⟩
    rcases natAbs_of_mem_directions hd with ⟨ex, ey⟩ | ⟨ex, ey⟩ | ⟨ex, ey⟩
    · exact nxy (by rw [ex, ey])
    · exact ny (by rw [Int.natAbs_eq_zero.mp ey, Int.mul_zero])
    · exact nx (by rw [Int.natAbs_eq_zero.mp ex, Int.mul_zero])
  unfold between
  simp only [hdx, hdy, hsign _ hx, hsign _ hy, habs, hmax]
  rw [if_neg hline]
  apply List.map_congr_left
  intro i _
  simp only [ray, Int.mul_comm]

theorem mem_between_ray {s d t : Square} (hd : d ∈ directions) {n : Nat} (hn : 0 < n) :
    t ∈ between s (ray s d n) ↔ ∃ i, (0 < i ∧ i < n) ∧ ray s d i = t := by
  rw [between_ray hd hn]
  simp only [List.mem_map, List.mem_range'_1]
  constructor
  · rintro ⟨i, hi, rfl⟩
    exact ⟨i, by omega, rfl⟩
  · rintro ⟨i, hi, rfl⟩
    exact ⟨i, by omega, rfl⟩

/-- Squares that share a line are on a ray, and the steps are counted by the
greater distance. -/
theorem exists_ray {s t : Square} (hne : s ≠ t)
    (h : t.x = s.x ∨ t.y = s.y ∨ (t.x - s.x).natAbs = (t.y - s.y).natAbs) :
    ∃ d ∈ directions, t = ray s d (max (t.x - s.x).natAbs (t.y - s.y).natAbs) := by
  obtain ⟨sx, sy⟩ := s
  obtain ⟨tx, ty⟩ := t
  rw [ne_eq, mk.injEq] at hne
  refine ⟨⟨(tx - sx).sign, (ty - sy).sign⟩, ?_, ?_⟩
  · rw [mem_directions]
    simp only at h ⊢
    rcases Int.lt_trichotomy tx sx with hx | hx | hx <;>
      rcases Int.lt_trichotomy ty sy with hy | hy | hy <;>
      simp [Int.sign_eq_one_iff_pos, Int.sign_eq_neg_one_iff_neg, Int.sign_eq_zero_iff_zero] <;>
      omega
  · simp only [ray, mk.injEq] at h ⊢
    have sign_cases : ∀ a : Int, (0 < a ∧ a.sign = 1) ∨ (a = 0 ∧ a.sign = 0) ∨
        (a < 0 ∧ a.sign = -1) := by
      intro a
      rcases Int.lt_trichotomy a 0 with ha | ha | ha
      · exact Or.inr (Or.inr ⟨ha, Int.sign_eq_neg_one_of_neg ha⟩)
      · exact Or.inr (Or.inl ⟨ha, by rw [ha]; rfl⟩)
      · exact Or.inl ⟨ha, Int.sign_eq_one_of_pos ha⟩
    rcases sign_cases (tx - sx) with ⟨hx, ex⟩ | ⟨hx, ex⟩ | ⟨hx, ex⟩ <;>
      rcases sign_cases (ty - sy) with ⟨hy, ey⟩ | ⟨hy, ey⟩ | ⟨hy, ey⟩ <;>
      rw [ex, ey] <;> omega

end BoardGame.Square
