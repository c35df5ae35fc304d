import BoardGame.Proofs.Othello.Moves
/-!
# Placements of Othello

On a board with no helper the side to move has the placements that outflank: a
plain piece goes over the opponents of one ray, turns them and becomes a helper on
the square where it lands.
-/

namespace BoardGame.Othello

open Square (ray directions)
open BuiltIn

/-- A board of eight lines with no piece but plain ones. -/
structure Plain (pos : Position) : Prop where
  size : pos.size = 8
  cells : pos.board.size = 64
  codes : ∀ code ∈ pos.board, code = 0 ∨ code = 1 ∨ code = -1

namespace Plain

variable {pos : Position} {c : Square}

theorem cell (h : Plain pos) (s : Square) :
    pos.cell s = 0 ∨ pos.cell s = 1 ∨ pos.cell s = -1 := by
  by_cases hs : pos.onBoard s = true
  · rw [cell_eq_read hs]
    apply h.codes
    rw [Position.onBoard] at hs
    exact Board.mem_of_read (by rw [h.cells, h.size]) hs
  · exact Or.inl (if_neg hs)

theorem sign_cell (h : Plain pos) (s : Square) : (pos.cell s).sign = pos.cell s := by
  rcases h.cell s with h | h | h <;> rw [h] <;> rfl

/-- A plain piece that reaches an empty square over opponents outflanks them from there. -/
theorem outflanks_of_leaps (h : Plain pos) {o t : Square}
    (hown : (pos.cell o).sign = pos.mover.sign) (hleaps : Leaps pos o t) :
    ∃ d n, Outflanks pos t d n ∧ o = ray t d (n + 1) := by
  obtain ⟨d, hd, n, ⟨hn, hopp⟩, rfl⟩ := hleaps
  have hback := Square.ray_back o d (n + 1)
  refine ⟨Square.opposite d, n, ⟨Square.opposite_mem_directions hd, hn, ?_, ?_⟩, hback.symm⟩
  · intro i hi
    have hpass := hopp (n - (i + 1)) (by omega)
    rw [h.sign_cell, show n - (i + 1) + 1 = n + 1 - (i + 1) by omega] at hpass
    rw [Square.ray_opposite (by omega), hpass]
  · rw [hback, ← h.sign_cell, hown]

theorem passes_of_outflanks (h : Plain pos) {t d : Square} {n : Nat}
    (hout : Outflanks pos t d n) : Passes pos (ray t d (n + 1)) (Square.opposite d) n := by
  obtain ⟨-, hn, hopp, -⟩ := hout
  refine ⟨hn, fun i hi => ?_⟩
  have hpass := hopp (n - (i + 1)) (by omega)
  rw [show n - (i + 1) + 1 = n + 1 - (i + 1) by omega] at hpass
  rw [Square.ray_opposite (by omega), h.sign_cell, hpass]

end Plain

theorem read_jumpWrites {p : Position} {x : Candidate} {d s : Square} {n : Nat}
    (hsize : p.size = 8) (hcells : p.board.size = 64) (hd : d ∈ directions)
    (hjump : x.rule.jump = turnOpponents) (hpiece : x.piece.sign = p.mover.sign)
    (hpass : Passes p x.origin d n) (htarget : x.target = ray x.origin d (n + 1))
    (hs : s.onBoard 8 = true) :
    (p.board.writeAll 8 (x.jumpWrites p)).read 8 s =
      if ∃ i < n, ray x.origin d (i + 1) = s then -p.cell s else p.cell s := by
  have hmem := fun w => mem_jumpWrites (w := w) hd hjump hpiece hpass htarget
  have hon : ∀ w ∈ x.jumpWrites p, w.square.onBoard 8 = true := by
    intro w hw
    obtain ⟨i, hi, rfl⟩ := (hmem w).mp hw
    rw [← hsize]
    apply onBoard_of_cell_ne_zero
    intro h0
    have hsign := hpass.2 i hi
    rw [h0, Int.sign_zero] at hsign
    have := Side.sign_cases p.mover
    omega
  split
  · next hturned =>
    obtain ⟨i, hi, rfl⟩ := hturned
    apply Board.read_writeAll_of_exists hcells hon hs ⟨_, (hmem _).mpr ⟨i, hi, rfl⟩, rfl⟩
    intro w hw heq
    obtain ⟨j, hj, rfl⟩ := (hmem w).mp hw
    rw [← heq]
  · next hturned =>
    rw [Board.read_writeAll_of_forall_ne hcells hon hs]
    · rw [Position.cell, Position.onBoard, hsize, if_pos hs, Position.read, hsize]
    · intro w hw heq
      obtain ⟨i, hi, rfl⟩ := (hmem w).mp hw
      exact hturned ⟨i, hi, heq⟩

/-! ## The first ply -/

theorem turnedBy_singleton {pos : Position} {c d s : Square} {n : Nat}
    (hout : Outflanks pos c d n) :
    TurnedBy pos c {d} s ↔ ∃ i < n, ray c d (i + 1) = s := by
  constructor
  · rintro ⟨e, he, m, hm, i, hi, rfl⟩
    rw [Finset.mem_singleton] at he
    subst he
    exact ⟨i, hm.unique hout ▸ hi, rfl⟩
  · rintro ⟨i, hi, rfl⟩
    exact ⟨d, Finset.mem_singleton_self d, n, hout, i, hi, rfl⟩

theorem exists_ray_back {c d s : Square} {n : Nat} :
    (∃ i < n, ray (ray c d (n + 1)) (Square.opposite d) (i + 1) = s) ↔
      ∃ i < n, ray c d (i + 1) = s := by
  constructor
  · rintro ⟨i, hi, rfl⟩
    refine ⟨n - (i + 1), by omega, ?_⟩
    rw [Square.ray_opposite (by omega), show n + 1 - (i + 1) = n - (i + 1) + 1 by omega]
  · rintro ⟨i, hi, rfl⟩
    refine ⟨n - (i + 1), by omega, ?_⟩
    rw [Square.ray_opposite (by omega), show n + 1 - (n - (i + 1) + 1) = i + 1 by omega]

/-- The placement on `c` along a ray that is outflanked by `n` pieces. -/
def placement (pos : Position) (c d : Square) (n : Nat) : Candidate :=
  ⟨pos.mover.sign, ray c d (n + 1), c, placing⟩

/-- A placement turns one ray and leaves a helper. -/
theorem Plain.board_placing {pos : Position} (h : Plain pos) {c d : Square} {n : Nat}
    (hc : pos.onBoard c = true) (hout : Outflanks pos c d n) :
    pos.board.writeAll 8 ((placement pos c d n).jumpWrites pos ++ [⟨c, pos.mover.sign⟩] ++
      [⟨c, 2 * pos.mover.sign⟩]) = turnedBoard pos c {d} (2 * pos.mover.sign) := by
  have hc8 : c.onBoard 8 = true := by rw [← h.size]; exact hc
  have hjumps : (pos.board.writeAll 8 ((placement pos c d n).jumpWrites pos)).size = 8 * 8 := by
    rw [Board.size_writeAll, h.cells]
  apply Board.ext_read (n := 8) (by rw [Board.size_writeAll, h.cells]) size_turnedBoard
  intro s hs
  rw [read_turnedBoard hs, Board.writeAll_append, Board.writeAll_append]
  change Board.read (Board.write (Board.write _ 8 c _) 8 c _) 8 s = _
  rw [Board.read_write (Board.size_write.trans hjumps) hc8 hs]
  by_cases hsc : s = c
  · rw [if_pos hsc, if_pos hsc]
  · have hread := read_jumpWrites (x := placement pos c d n) h.size h.cells
      (Square.opposite_mem_directions hout.1) rfl (Side.sign_sign _) (h.passes_of_outflanks hout)
      (Square.ray_back _ _ _).symm hs
    rw [if_neg hsc, if_neg hsc, Board.read_write_of_ne hjumps hc8 hs hsc, hread]
    simp only [placement, exists_ray_back, turnedBy_singleton hout]

theorem Plain.apply_placement {pos : Position} (h : Plain pos) {c d : Square} {n : Nat}
    (hc : pos.onBoard c = true) (hempty : pos.cell c = 0) (hout : Outflanks pos c d n) :
    (placement pos c d n).apply othello pos =
      .ok (pos.successor (turnedBoard pos c {d} (2 * pos.mover.sign)) pos.mover
        ⟨pos.mover.sign, ray c d (n + 1), c⟩) := by
  rw [← h.board_placing hc hout]
  exact apply_placing rfl (Side.natAbs_sign _) hc hempty

/-- The candidates of a plain position are the placements that outflank. -/
theorem Plain.mem_allCandidates {pos : Position} (h : Plain pos) {x : Candidate} :
    x ∈ othello.allCandidates pos ↔
      ∃ d n, pos.onBoard x.target = true ∧ pos.cell x.target = 0 ∧ Outflanks pos x.target d n ∧
        x = placement pos x.target d n := by
  rw [Othello.mem_allCandidates h.size]
  constructor
  · rintro ⟨⟨horigin, hread, hpiece⟩, htarget, hallowed⟩
    have hcode : x.piece = pos.mover.sign := by rw [← hpiece, ← hread, h.sign_cell]
    have habs : x.piece.natAbs = 1 := by
      rw [hcode, Side.natAbs_sign]
    rcases hallowed with ⟨-, hrule, hempty, hleaps⟩ | ⟨habs', -⟩ | ⟨habs', -⟩
    · obtain ⟨d, n, hout, heq⟩ := h.outflanks_of_leaps (by rw [hread, hpiece]) hleaps
      refine ⟨d, n, htarget, hempty, hout, ?_⟩
      obtain ⟨piece, origin, target, rule⟩ := x
      simp only at hcode heq hrule
      rw [placement, ← heq, hcode, hrule]
    · omega
    · omega
  · rintro ⟨d, n, htarget, hempty, hout, heq⟩
    have hown := hout.2.2.2
    have hleaps : Leaps pos (ray x.target d (n + 1)) x.target :=
      ⟨Square.opposite d, Square.opposite_mem_directions hout.1, n, h.passes_of_outflanks hout,
        (Square.ray_back _ _ _).symm⟩
    have horigin : pos.onBoard (ray x.target d (n + 1)) = true := by
      apply onBoard_of_cell_ne_zero
      rw [hown]
      exact sign_ne_zero _
    rw [heq]
    exact ⟨⟨horigin, hown, Side.sign_sign _⟩, htarget,
      Or.inl ⟨Side.natAbs_sign _, rfl, hempty, hleaps⟩⟩

theorem Plain.successors (h : Plain pos) :
    ∃ next, othello.successors pos = .ok next ∧ ∀ q, q ∈ next ↔
      ∃ c d n, pos.onBoard c = true ∧ pos.cell c = 0 ∧ Outflanks pos c d n ∧
        q = pos.successor (turnedBoard pos c {d} (2 * pos.mover.sign)) pos.mover
          ⟨pos.mover.sign, ray c d (n + 1), c⟩ := by
  have htypes : ∀ m ∈ othello.movers pos, (othello.pieceType? m.piece).isSome = true := by
    intro m hm
    obtain ⟨horigin, hread, hpiece⟩ := (RuleSet.mem_boardMovers (by decide)).mp hm
    have hcell := h.cell m.origin
    rw [cell_eq_read (by rw [Position.onBoard, h.size]; exact horigin), hread] at hcell
    have hsign := Side.sign_cases pos.mover
    have habs : m.piece.natAbs = 1 := by
      rcases hcell with e | e | e
      · rw [e, Int.sign_zero] at hpiece
        omega
      · rw [e]; rfl
      · rw [e]; rfl
    rw [pieceType?_plain habs]
    rfl
  obtain ⟨next, hnext, hmem⟩ := RuleSet.exists_successors htypes (by
    intro x hx
    obtain ⟨d, n, hc, hempty, hout, heq⟩ := h.mem_allCandidates.mp hx
    rw [heq]
    exact ⟨_, h.apply_placement hc hempty hout⟩)
  refine ⟨next, hnext, fun q => ?_⟩
  rw [hmem]
  constructor
  · rintro ⟨x, hx, happly, -⟩
    obtain ⟨d, n, hc, hempty, hout, heq⟩ := h.mem_allCandidates.mp hx
    rw [heq, h.apply_placement hc hempty hout, Except.ok.injEq] at happly
    exact ⟨x.target, d, n, hc, hempty, hout, happly.symm⟩
  · rintro ⟨c, d, n, hc, hempty, hout, rfl⟩
    refine ⟨placement pos c d n, h.mem_allCandidates.mpr ⟨d, n, hc, hempty, hout, rfl⟩,
      h.apply_placement hc hempty hout, fun x hx => ?_⟩
    obtain ⟨d', n', -, -, -, heq⟩ := h.mem_allCandidates.mp hx
    rw [heq]
    exact Int.le_refl _

end BoardGame.Othello
