import BoardGame.Proofs.Chess.Attack
import BoardGame.Proofs.Chess.Invariants
/-!
# Strikes

A man strikes the squares that its own movement reaches; if it follows a line, these are the
squares up to the first occupied one, and that one too. Looking outward from an occupied
square, the engine finds an attacker exactly when some man of the other colour strikes it.
-/

namespace BoardGame.Chess

open Laws Square

variable {board : Board} {a d t : Square} {side : Side} {kind : Kind}

/-! ## Lines of sight -/

/-- What is seen from a square in a direction. An occupied square hides what is behind it. -/
inductive Seen (board : Board) (a d : Square) : Square → Prop
  | first : OnBoard (a + d) → Seen board a d (a + d)
  | next {t : Square} : Seen board a d t → look board t = 0 → OnBoard (t + d) →
      Seen board a d (t + d)

theorem Free.mono {m n : Nat} (h : Free board a d n) (hmn : m ≤ n) : Free board a d m :=
  fun i hi him => h i hi (Nat.lt_of_lt_of_le him hmn)

theorem Free.succ {n : Nat} (h : Free board a d n) (ht : OnBoard (ray a d n))
    (hempty : look board (ray a d n) = 0) : Free board a d (n + 1) := by
  intro i hi hin
  by_cases heq : i = n
  · exact heq ▸ ⟨ht, hempty⟩
  · exact h i hi (by omega)

theorem seen_iff : Seen board a d t ↔
    ∃ n, 0 < n ∧ t = ray a d n ∧ OnBoard t ∧ Free board a d n := by
  have hone : ray a d 1 = a + d := by rw [← ray_add, ray_zero]
  constructor
  · intro h
    induction h with
    | first ht => exact ⟨1, Nat.one_pos, hone.symm, ht, free_one board a d⟩
    | next _ hempty hnext ih =>
        obtain ⟨n, hn, rfl, ht, hfree⟩ := ih
        exact ⟨n + 1, Nat.succ_pos n, ray_add a d n, hnext, hfree.succ ht hempty⟩
  · rintro ⟨n, hn, rfl, ht, hfree⟩
    induction n with
    | zero => exact absurd hn (Nat.lt_irrefl 0)
    | succ n ih =>
        by_cases hn0 : n = 0
        · subst hn0
          rw [hone] at ht ⊢
          exact .first ht
        · have hpos := Nat.pos_of_ne_zero hn0
          obtain ⟨hon, hempty⟩ := hfree n hpos (Nat.lt_succ_self n)
          rw [← ray_add] at ht ⊢
          exact (ih hpos hon (hfree.mono (Nat.le_succ n))).next hempty ht

theorem seen_ray_iff (hboard : Valid board) (hd : d ∈ Square.directions) (ha : OnBoard a) {n : Nat}
    (hn : 0 < n) (ht : OnBoard (ray a d n)) :
    Seen board a d (ray a d n) ↔ Clear (placement board) a (ray a d n) := by
  rw [clear_ray hd hn, ← free_iff_clear hboard hd ha ht, seen_iff]
  constructor
  · rintro ⟨m, hm, heq, -, hfree⟩
    rw [(ray_inj hd hd hn hm heq).2]
    exact hfree
  · intro hfree
    exact ⟨n, hn, rfl, ht, hfree⟩

/-- A piece that follows the lines of certain directions captures what it sees in them. -/
theorem exists_seen_iff (hboard : Valid board) (ha : OnBoard a) (ht : OnBoard t)
    {piece : Piece} (hpiece : piece ≠ .knight) {P : Square → Prop}
    (hP : ∀ d, P d → d ∈ Square.directions)
    (hreach : ∀ d ∈ Square.directions, ∀ n, 0 < n →
      (piece.Reaches side (ray a d n - a) ↔ P d)) :
    (∃ d, P d ∧ Seen board a d t) ↔
      piece.Reaches side (t - a) ∧ Clear (placement board) a t := by
  constructor
  · rintro ⟨d, hd, hseen⟩
    obtain ⟨n, hn, rfl, -⟩ := seen_iff.mp hseen
    have hdir := hP d hd
    exact ⟨(hreach d hdir n hn).mpr hd, (seen_ray_iff hboard hdir ha hn ht).mp hseen⟩
  · rintro ⟨hreaches, hclear⟩
    obtain ⟨d, hdir, n, hn, rfl⟩ := exists_ray_of_reaches hpiece hreaches
    exact ⟨d, (hreach d hdir n hn).mp hreaches, (seen_ray_iff hboard hdir ha hn ht).mpr hclear⟩

/-! ## Movement of the men -/

/-- The squares that a man on `a` attacks by its own movement. -/
def Kind.Strikes (board : Board) (side : Side) (a t : Square) : Kind → Prop
  | pawn => t = ⟨a.x - 1, a.y + side.sign⟩ ∨ t = ⟨a.x + 1, a.y + side.sign⟩
  | knight =>
    ((t - a).x.natAbs = 1 ∧ (t - a).y.natAbs = 2) ∨ ((t - a).x.natAbs = 2 ∧ (t - a).y.natAbs = 1)
  | bishop => ∃ d : Square, (d.x.natAbs = 1 ∧ d.y.natAbs = 1) ∧ Seen board a d t
  | rook | unmovedRook => ∃ d : Square, d.x.natAbs + d.y.natAbs = 1 ∧ Seen board a d t
  | queen => ∃ d : Square, max d.x.natAbs d.y.natAbs = 1 ∧ Seen board a d t
  | king | unmovedKing => max (t - a).x.natAbs (t - a).y.natAbs = 1

theorem pawn_strikes_iff :
    Kind.pawn.Strikes board side a t ↔ Piece.pawn.Reaches side (t - a) := by
  obtain ⟨x, y⟩ := t
  simp only [Kind.Strikes, Piece.Reaches, mk.injEq, sub_x, sub_y]
  omega

theorem exists_diagonal_seen_iff (side : Side) (hboard : Valid board) (ha : OnBoard a)
    (ht : OnBoard t) :
    (∃ d : Square, (d.x.natAbs = 1 ∧ d.y.natAbs = 1) ∧ Seen board a d t) ↔
      Piece.bishop.Reaches side (t - a) ∧ Clear (placement board) a t := by
  refine exists_seen_iff hboard ha ht (by decide) (fun d hd => ?_) fun d hd n hn => ?_
  · rw [mem_directions]
    omega
  · rw [bishop_reaches_ray hd hn, diagonal_iff hd]
    have := natAbs_of_mem_directions hd
    omega

theorem exists_orthogonal_seen_iff (side : Side) (hboard : Valid board) (ha : OnBoard a)
    (ht : OnBoard t) :
    (∃ d : Square, d.x.natAbs + d.y.natAbs = 1 ∧ Seen board a d t) ↔
      Piece.rook.Reaches side (t - a) ∧ Clear (placement board) a t := by
  refine exists_seen_iff hboard ha ht (by decide) (fun d hd => ?_) fun d hd n hn => ?_
  · rw [mem_directions]
    omega
  · rw [rook_reaches_ray hd hn, orthogonal_iff hd]
    have := natAbs_of_mem_directions hd
    omega

theorem exists_direction_seen_iff (side : Side) (hboard : Valid board) (ha : OnBoard a)
    (ht : OnBoard t) :
    (∃ d : Square, max d.x.natAbs d.y.natAbs = 1 ∧ Seen board a d t) ↔
      Piece.queen.Reaches side (t - a) ∧ Clear (placement board) a t := by
  refine exists_seen_iff hboard ha ht (by decide) (fun d hd => ?_) fun d hd n hn => ?_
  · rw [mem_directions]
    omega
  · have := natAbs_of_mem_directions hd
    exact iff_of_true (queen_reaches_ray hd hn) (by omega)

/-- Movement as each man makes it is movement as the laws describe it. -/
theorem strikes_iff (hboard : Valid board) (ha : OnBoard a) (ht : OnBoard t) :
    kind.Strikes board side a t ↔
      kind.piece.Reaches side (t - a) ∧ Clear (placement board) a t := by
  have hrook := exists_orthogonal_seen_iff side hboard ha ht
  have hking : max (t - a).x.natAbs (t - a).y.natAbs = 1 ↔
      Piece.king.Reaches side (t - a) ∧ Clear (placement board) a t :=
    (and_iff_left_of_imp clear_of_adjacent).symm
  cases kind with
  | pawn =>
      rw [pawn_strikes_iff]
      refine (and_iff_left_of_imp fun hreach => clear_of_adjacent ?_).symm
      obtain ⟨hx, hy⟩ : (t - a).x.natAbs = 1 ∧ (t - a).y = side.sign := hreach
      rw [hx, hy, side.natAbs_sign, Nat.max_self]
  | knight => exact (and_iff_left_of_imp clear_of_knight).symm
  | bishop => exact exists_diagonal_seen_iff side hboard ha ht
  | rook => exact hrook
  | unmovedRook => exact hrook
  | queen => exact exists_direction_seen_iff side hboard ha ht
  | king => exact hking
  | unmovedKing => exact hking

theorem attacks_iff_strikes (hboard : Valid board) (ht : OnBoard t) :
    Attacks (placement board) side a t ↔
      ∃ kind : Kind, look board a = kind.code * side.sign ∧ kind.Strikes board side a t := by
  constructor
  · rintro ⟨piece, hpiece, hattack⟩
    obtain ⟨kind, rfl, hlook⟩ := hboard.placement_eq_some.mp hpiece
    exact ⟨kind, hlook, (strikes_iff hboard (onBoard_of_look_eq hlook) ht).mpr hattack⟩
  · rintro ⟨kind, hlook, hstrikes⟩
    exact ⟨kind.piece, hboard.placement_eq_some.mpr ⟨kind, rfl, hlook⟩,
      (strikes_iff hboard (onBoard_of_look_eq hlook) ht).mp hstrikes⟩

/-! ## Check -/

theorem valid_of_codes (hsize : board.size = boardSize * boardSize)
    (hcodes : ∀ code ∈ board, -8 ≤ code ∧ code ≤ 8) : Valid board where
  size := hsize
  code_le s := by
    by_cases hs : OnBoard s
    · have hcode := hcodes _ (Board.mem_of_read hsize (onBoard_iff_laws.mpr hs))
      rw [look_eq_read hs]
      omega
    · rw [look_of_not_onBoard hs]
      decide

/-- What stands on a square is in check, as the engine tests it, if and only if a man of the
other colour strikes the square. -/
theorem inCheck_iff_struck {k : Square} (hsize : board.size = boardSize * boardSize)
    (hcodes : ∀ code ∈ board, -8 ≤ code ∧ code ≤ 8) (hk : look board k ≠ 0) :
    inCheck board (some k) = true ↔
      ∃ (a : Square) (kind : Kind) (side : Side), look board a = kind.code * side.sign ∧
        (look board k).sign = -side.sign ∧ kind.Strikes board side a k := by
  have hboard := valid_of_codes hsize hcodes
  obtain ⟨struck, own, hstruck⟩ := exists_kind hk (hboard.code_le k)
  have hattacked : inCheck board (some k) = true ↔ Attacked (placement board) own.opponent k :=
    attacked_iff hboard hstruck
  have hother (side : Side) : (look board k).sign = -side.sign ↔ side = own.opponent := by
    rw [hstruck, sign_code_mul]
    cases own <;> cases side <;> decide
  simp only [hattacked, Attacked, attacks_iff_strikes hboard (onBoard_of_look_ne_zero hk), hother]
  constructor
  · rintro ⟨a, kind, hlook, hstrikes⟩
    exact ⟨a, kind, _, hlook, rfl, hstrikes⟩
  · rintro ⟨a, kind, side, hlook, rfl, hstrikes⟩
    exact ⟨a, kind, hlook, hstrikes⟩

/-- White's king has not moved. A black pawn shields it from the queen, but nothing stands
between it and the bishop. -/
def bishopInSight : Board :=
  ((((Board.clear 8).write 8 ⟨4, 0⟩ 8).write 8 ⟨4, 7⟩ (-5)).write 8 ⟨4, 4⟩ (-1)).write 8 ⟨7, 3⟩ (-3)

theorem inCheck_iff_struck_bishop :
    bishopInSight.size = boardSize * boardSize ∧
      (∀ code ∈ bishopInSight, -8 ≤ code ∧ code ≤ 8) ∧ look bishopInSight ⟨4, 0⟩ ≠ 0 ∧
      Kind.bishop.Strikes bishopInSight .black ⟨7, 3⟩ ⟨4, 0⟩ ∧
      inCheck bishopInSight (some ⟨4, 0⟩) = true := by
  have hsize : bishopInSight.size = boardSize * boardSize := by decide +kernel
  have hcodes : ∀ code ∈ bishopInSight, -8 ≤ code ∧ code ≤ 8 := by decide +kernel
  have hk : look bishopInSight ⟨4, 0⟩ ≠ 0 := by decide +kernel
  have hbishop : look bishopInSight ⟨7, 3⟩ = Kind.bishop.code * Side.black.sign := by decide +kernel
  have hstrikes : Kind.bishop.Strikes bishopInSight .black ⟨7, 3⟩ ⟨4, 0⟩ :=
    ⟨⟨-1, -1⟩, by decide, ((Seen.first (by decide)).next (by decide +kernel) (by decide)).next
      (by decide +kernel) (by decide)⟩
  exact ⟨hsize, hcodes, hk, hstrikes, (inCheck_iff_struck hsize hcodes hk).mpr
    ⟨⟨7, 3⟩, .bishop, .black, hbishop, by decide +kernel, hstrikes⟩⟩

end BoardGame.Chess
