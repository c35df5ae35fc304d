import BoardGame.Proofs.Chess.Lines
/-!
# Attacks found from the square attacked

The engine looks for attackers outward from the square; the laws let each man attack
outward from where it stands. On an occupied square both come to the same, since
every displacement that captures is a ray, and a ray walked back is a ray.
-/

namespace BoardGame.Chess

open Laws Square

variable {board : Board} {s d : Square} {n : Nat} {k : Kind} {side : Side}

theorem ofCode?_mul_sign {code : Int} :
    Kind.ofCode? (code * side.sign) = some k ↔ code = k.code * side.sign := by
  rw [Kind.ofCode?_eq_some]
  cases side with
  | white => rw [show Side.white.sign = 1 from rfl, Int.mul_one, Int.mul_one]
  | black =>
      rw [show Side.black.sign = -1 from rfl]
      omega

theorem attackerSign_eq (h : look board s = k.code * side.sign) :
    attackerSign board s = side.opponent.sign := by
  unfold attackerSign
  rw [h]
  cases k <;> cases side <;> rfl

/-! ## Along a direction -/

theorem attacksAlong_iff (hd : d ∈ Square.directions) (hn : 0 < n) (a : Square) :
    k.attacksAlong d (decide (n = 1)) side.sign = true ↔
      k.piece.Reaches side (ray a (opposite d) n - a) := by
  have he := opposite_mem_directions hd
  -- the engine looks from the square towards the man, the laws from the man to the square
  have hrook : Piece.rook.Reaches side (ray a (opposite d) n - a) ↔ _ := rook_reaches_ray he hn
  have hbishop : Piece.bishop.Reaches side (ray a (opposite d) n - a) ↔ _ :=
    bishop_reaches_ray he hn
  rw [orthogonal_iff he] at hrook
  rw [diagonal_iff he] at hbishop
  have hx : (opposite d).x = -d.x := rfl
  have hy : (opposite d).y = -d.y := rfl
  rw [hx, hy, Int.neg_eq_zero, Int.neg_eq_zero] at hrook
  rw [hx, hy, Ne, Ne, Int.neg_eq_zero, Int.neg_eq_zero] at hbishop
  unfold Kind.attacksAlong
  by_cases hdiag : d.x ≠ 0 ∧ d.y ≠ 0
  · have hline : ¬ (d.x = 0 ∨ d.y = 0) := by omega
    rw [if_pos hdiag]
    cases k <;> dsimp only [Kind.piece]
    case pawn =>
      rw [pawn_reaches_ray he, hx, hy, Bool.and_eq_true, decide_eq_true_eq, bne_iff_ne]
      have hunit := natAbs_of_mem_directions hd
      cases side <;> simp only [Side.sign] <;>
        rcases (by omega : d.y = 1 ∨ d.y = -1) with h | h <;> rw [h] <;> simp <;> omega
    case knight => simp [not_knight_reaches_ray he]
    case bishop => simp [hbishop, hdiag.1, hdiag.2]
    case rook => simp [hrook, hline]
    case unmovedRook => simp [hrook, hline]
    case queen => simp [queen_reaches_ray he hn]
    case king => simp [king_reaches_ray he]
    case unmovedKing => simp [king_reaches_ray he]
  · have hline : d.x = 0 ∨ d.y = 0 := by omega
    rw [if_neg hdiag]
    cases k <;> dsimp only [Kind.piece]
    case pawn =>
      rw [pawn_reaches_ray he, hx, hy]
      cases side <;> simp [Side.sign] <;> omega
    case knight => simp [not_knight_reaches_ray he]
    case bishop =>
      simp only [Bool.false_eq_true, false_iff]
      rw [hbishop]
      exact hdiag
    case rook => simp [hrook, hline]
    case unmovedRook => simp [hrook, hline]
    case queen => simp [queen_reaches_ray he hn]
    case king => simp [king_reaches_ray he]
    case unmovedKing => simp [king_reaches_ray he]

theorem ray_eq_step (hd : d ∈ Square.directions) (hn : 0 < n) : ray s d n = s + d ↔ n = 1 := by
  have hone : ray s d 1 = s + d := by rw [ray_succ, ray_zero]
  constructor
  · intro h
    exact (ray_inj hd hd hn Nat.one_pos (h.trans hone.symm)).2
  · rintro rfl
    exact hone

theorem free_iff_clear (hboard : Valid board) (hd : d ∈ Square.directions) (hs : OnBoard s)
    (ht : OnBoard (ray s d n)) :
    Free board s d n ↔ ∀ i, 0 < i → i < n → placement board (ray s d i) = none := by
  constructor
  · intro h i hi hin
    exact hboard.placement_eq_none.mpr (h i hi hin).2
  · intro h i hi hin
    refine ⟨?_, hboard.placement_eq_none.mp (h i hi hin)⟩
    rw [← onBoard_iff_laws] at hs ht ⊢
    exact onBoard_ray_of_le hd hs ht (Nat.le_of_lt hin)

theorem attacks_ray_iff (hboard : Valid board) (hs : OnBoard s) (hd : d ∈ Square.directions)
    (hn : 0 < n) (ht : OnBoard (ray s d n)) :
    Attacks (placement board) side (ray s d n) s ↔
      ∃ j : Kind, look board (ray s d n) = j.code * side.sign ∧
        j.attacksAlong d (decide (n = 1)) side.sign = true ∧ Free board s d n := by
  rw [Attacks, clear_ray_back hd hn, ← free_iff_clear hboard hd hs ht]
  constructor
  · rintro ⟨piece, hpiece, hreach, hfree⟩
    obtain ⟨j, rfl, hj⟩ := hboard.placement_eq_some.mp hpiece
    refine ⟨j, hj, ?_, hfree⟩
    rw [attacksAlong_iff hd hn (ray s d n), ray_back]
    exact hreach
  · rintro ⟨j, hj, hattack, hfree⟩
    rw [attacksAlong_iff hd hn (ray s d n), ray_back] at hattack
    exact ⟨j.piece, hboard.placement_eq_some.mpr ⟨j, rfl, hj⟩, hattack, hfree⟩

theorem attackedAlong_eq_true (hs : look board s = k.code * side.sign)
    (hd : d ∈ Square.directions) :
    attackedAlong board s d = true ↔
      ∃ n, (0 < n ∧ n ≤ boardSize) ∧ ∃ j : Kind,
        look board (ray s d n) = j.code * side.opponent.sign ∧
        j.attacksAlong d (decide (n = 1)) side.opponent.sign = true ∧ Free board s d n := by
  have hadjacent : ∀ n, 0 < n → (ray s d n == s + d) = decide (n = 1) := by
    intro n hn
    rw [Bool.eq_iff_iff, beq_iff_eq, ray_eq_step hd hn, decide_eq_true_eq]
  have hkind : ∀ n (j : Kind), OnBoard (ray s d n) →
      (Kind.ofCode? (board.read boardSize (ray s d n) * side.opponent.sign) = some j ↔
        look board (ray s d n) = j.code * side.opponent.sign) := by
    intro n j ht
    rw [← look_eq_read ht, ofCode?_mul_sign]
  unfold attackedAlong
  rw [attackerSign_eq hs]
  dsimp only
  constructor
  · intro h
    cases hfound : firstOccupied? board s d boardSize with
    | none =>
        rw [hfound] at h
        cases h
    | some t =>
        obtain ⟨n, hn, rfl, hne, hfree⟩ := firstOccupied?_eq_some.mp hfound
        rw [hfound] at h
        dsimp only at h
        cases hj : Kind.ofCode? (board.read boardSize (ray s d n) * side.opponent.sign) with
        | none =>
            rw [hj] at h
            cases h
        | some j =>
            rw [hj] at h
            dsimp only at h
            rw [hadjacent n hn.1] at h
            exact ⟨n, hn, j, (hkind n j (onBoard_of_look_ne_zero hne)).mp hj, h, hfree⟩
  · rintro ⟨n, hn, j, hj, hattack, hfree⟩
    have ht : OnBoard (ray s d n) := onBoard_of_look_eq hj
    have hne : look board (ray s d n) ≠ 0 := by
      rw [hj]
      cases j <;> cases side <;> decide
    rw [firstOccupied?_eq_some.mpr ⟨n, hn, rfl, hne, hfree⟩]
    dsimp only
    rw [(hkind n j ht).mpr hj]
    dsimp only
    rw [hadjacent n hn.1]
    exact hattack

theorem attackedAlong_iff (hboard : Valid board) (hs : look board s = k.code * side.sign)
    (hd : d ∈ Square.directions) :
    attackedAlong board s d = true ↔
      ∃ n, 0 < n ∧ Attacks (placement board) side.opponent (ray s d n) s := by
  have hon : OnBoard s := onBoard_of_look_eq hs
  rw [attackedAlong_eq_true hs hd]
  constructor
  · rintro ⟨n, hn, j, hj, hattack⟩
    have ht : OnBoard (ray s d n) := onBoard_of_look_eq hj
    exact ⟨n, hn.1, (attacks_ray_iff hboard hon hd hn.1 ht).mpr ⟨j, hj, hattack⟩⟩
  · rintro ⟨n, hn, hattack⟩
    obtain ⟨piece, hpiece, -⟩ := id hattack
    have ht := onBoard_of_placement hpiece
    have hlt : n < boardSize := by
      rw [← onBoard_iff_laws] at hon ht
      exact lt_of_onBoard_ray hd hon ht
    exact ⟨n, ⟨hn, Nat.le_of_lt hlt⟩, (attacks_ray_iff hboard hon hd hn ht).mp hattack⟩

/-! ## From all sides -/

theorem attackedByKnight_iff (hboard : Valid board) (hs : look board s = k.code * side.sign) :
    attackedByKnight board s = true ↔
      ∃ a, placement board a = some ⟨side.opponent, .knight⟩ ∧
        Piece.knight.Reaches side.opponent (s - a) := by
  have hknight : ∀ a, look board a = Kind.knight.code * side.opponent.sign ↔
      placement board a = some ⟨side.opponent, .knight⟩ := by
    intro a
    rw [hboard.placement_eq_some]
    constructor
    · intro h
      exact ⟨.knight, rfl, h⟩
    · rintro ⟨j, hj, h⟩
      cases j <;> first | exact h | cases hj
  -- a knight's jump taken back is a knight's jump
  have hback : ∀ a, Piece.knight.Reaches side.opponent (s - a) ↔
      Piece.knight.Reaches side.opponent (a - s) := by
    intro a
    simp only [Piece.Reaches, sub_x, sub_y]
    omega
  unfold attackedByKnight
  rw [attackerSign_eq hs, List.any_eq_true]
  constructor
  · rintro ⟨j, hj, h⟩
    refine ⟨s + j, (hknight _).mp (by simpa using h), ?_⟩
    rw [hback]
    exact knight_reaches_iff.mpr ⟨j, hj, rfl⟩
  · rintro ⟨a, ha, hreach⟩
    obtain ⟨j, hj, rfl⟩ := knight_reaches_iff.mp ((hback a).mp hreach)
    exact ⟨j, hj, by simpa using (hknight _).mpr ha⟩

/-- An occupied square is attacked for the engine if the laws let a man of the other
side attack it. -/
theorem attacked_iff (hboard : Valid board) (hs : look board s = k.code * side.sign) :
    attacked board s = true ↔ Attacked (placement board) side.opponent s := by
  unfold attacked
  rw [Bool.or_eq_true, ← directions_eq, List.any_eq_true, attackedByKnight_iff hboard hs]
  constructor
  · rintro (⟨d, hd, h⟩ | ⟨a, ha, hreach⟩)
    · obtain ⟨n, -, hattack⟩ := (attackedAlong_iff hboard hs hd).mp h
      exact ⟨_, hattack⟩
    · exact ⟨a, .knight, ha, hreach, clear_of_knight hreach⟩
  · rintro ⟨a, piece, ha, hreach, hclear⟩
    by_cases hknight : piece = .knight
    · subst hknight
      exact Or.inr ⟨a, ha, hreach⟩
    · left
      obtain ⟨e, he, n, hn, hse⟩ := exists_ray_of_reaches hknight hreach
      have hd := opposite_mem_directions he
      have hback : ray s (opposite e) n = a := by rw [hse, ray_back]
      refine ⟨opposite e, hd, (attackedAlong_iff hboard hs hd).mpr ⟨n, hn, ?_⟩⟩
      rw [hback]
      exact ⟨piece, ha, hreach, hclear⟩

end BoardGame.Chess
