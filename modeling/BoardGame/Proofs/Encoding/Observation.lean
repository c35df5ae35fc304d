import BoardGame.Evaluator
import BoardGame.Proofs.Moves.Reflection
/-!
# Observations in a frame

An evaluator is shown a position in a frame together with the indices of its legal moves
in the same frame. They are the indices of the moves that the position it is shown has.
-/

namespace BoardGame

namespace RuleSet

variable {rules : RuleSet} {f : Frame} {p q : Position} {m : LastMove}

/-! ## Move indices -/

/-- A move that has an index of its own. -/
structure Indexed (rules : RuleSet) (m : LastMove) : Prop where
  target : m.target.onBoard rules.boardSize = true
  source : match rules.moveSource with
    | .piecesOnBoard => m.origin.onBoard rules.boardSize = true
    | .ends => 0 < m.piece.natAbs ∧ m.piece.natAbs ≤ rules.pieces.length

theorem moveIndex_mod (h : rules.Indexed m) :
    rules.moveIndex m % rules.area = m.target.index rules.boardSize := by
  rw [moveIndex, Nat.mul_add_mod_self_right]
  exact Nat.mod_eq_of_lt (Square.index_lt h.target)

theorem moveIndex_div (h : rules.Indexed m) :
    rules.moveIndex m / rules.area = rules.sourceOf m := by
  have hlt : m.target.index rules.boardSize < rules.area := Square.index_lt h.target
  rw [moveIndex, Nat.mul_comm, Nat.mul_add_div (by omega), Nat.div_eq_of_lt hlt, Nat.add_zero]

/-- An index gives back what it was made of, with the sign of the piece left out. -/
theorem moveAt_moveIndex (hboard : rules.boardSize < 0x80000000)
    (hpieces : rules.pieces.length ≤ maxPieceTypes) (h : rules.Indexed m) :
    rules.moveAt (rules.moveIndex m) = match rules.moveSource with
      | .piecesOnBoard => ⟨0, m.origin, m.target⟩
      | .ends => ⟨m.piece.natAbs, ⟨0, 0⟩, m.target⟩ := by
  have hmod := moveIndex_mod h
  have hdiv := moveIndex_div h
  obtain ⟨htarget, hsource⟩ := h
  unfold moveAt
  dsimp only
  rw [hmod, hdiv, Square.ofIndex_index hboard htarget]
  unfold sourceOf
  cases hwhere : rules.moveSource with
  | piecesOnBoard =>
      rw [hwhere] at hsource
      dsimp only
      rw [Square.ofIndex_index hboard hsource]
  | ends =>
      rw [hwhere] at hsource
      obtain ⟨hpos, hle⟩ := hsource
      have hcode : pieceCode (m.piece.natAbs - 1) = m.piece.natAbs := by
        rw [pieceCode_eq (by omega)]
        omega
      dsimp only
      rw [hcode]

theorem flipIndex_moveIndex (hboard : rules.boardSize < 0x80000000)
    (hpieces : rules.pieces.length ≤ maxPieceTypes) (h : rules.Indexed m) :
    rules.flipIndex f (rules.moveIndex m) = rules.moveIndex (f.move rules.boardSize m) := by
  unfold flipIndex
  rw [moveAt_moveIndex hboard hpieces h]
  unfold moveIndex sourceOf flipMove Frame.move
  cases rules.moveSource with
  | piecesOnBoard => rfl
  | ends =>
      dsimp only
      rw [Frame.natAbs_code, Int.natAbs_natCast]

theorem indexed_of_mem_successors (hboard : rules.boardSize < 0x80000000)
    (hpieces : rules.pieces.length ≤ maxPieceTypes) (hsize : p.size = rules.boardSize)
    {ps : List Position} (hps : rules.successors p = .ok ps) {next : Position} (hnext : next ∈ ps) :
    rules.Indexed next.last := by
  obtain ⟨c, hc, happly⟩ := exists_choice_of_mem_successors hps hnext
  obtain ⟨_, -, happly⟩ := bind_eq_ok.mp happly
  cases happly
  obtain ⟨m, hm, hmem⟩ := List.mem_flatMap.mp hc
  obtain ⟨rfl, -⟩ := mem_choicesAt.mp hmem
  have hmover := (isMover_of_mem hboard hpieces hsize).mp hm
  refine ⟨hsize ▸ onBoard_of_mem_choices hc, ?_⟩
  unfold IsMover at hmover
  cases hwhere : rules.moveSource with
  | piecesOnBoard =>
      rw [hwhere] at hmover
      exact hsize ▸ hmover.1
  | ends =>
      rw [hwhere] at hmover
      obtain ⟨⟨i, hi, hpiece⟩, -⟩ := hmover
      have habs : c.mover.piece.natAbs = i + 1 := by
        rw [hpiece, Int.natAbs_mul, Side.natAbs_sign, Nat.mul_one]
        omega
      show 0 < c.mover.piece.natAbs ∧ c.mover.piece.natAbs ≤ _
      omega

theorem Indexed.move (h : rules.Indexed m) (hboard : rules.boardSize < 0x80000000) (f : Frame) :
    rules.Indexed (f.move rules.boardSize m) := by
  obtain ⟨htarget, hsource⟩ := h
  refine ⟨(Frame.onBoard_flip hboard).trans htarget, ?_⟩
  cases hwhere : rules.moveSource with
  | piecesOnBoard =>
      rw [hwhere] at hsource
      exact (Frame.onBoard_flip hboard).trans hsource
  | ends =>
      rw [hwhere] at hsource
      simpa only [Frame.move, Frame.natAbs_code] using hsource

theorem Indexed.moveIndex_lt (h : rules.Indexed m) : rules.moveIndex m < rules.policySize := by
  obtain ⟨htarget, hsource⟩ := h
  have hlt : m.target.index rules.boardSize < rules.area := Square.index_lt htarget
  have hsourceOf : rules.sourceOf m < rules.sources := by
    unfold sourceOf sources
    cases hwhere : rules.moveSource with
    | piecesOnBoard =>
        rw [hwhere] at hsource
        exact Square.index_lt hsource
    | ends =>
        rw [hwhere] at hsource
        dsimp only at hsource ⊢
        omega
  calc rules.sourceOf m * rules.area + m.target.index rules.boardSize
      < (rules.sourceOf m + 1) * rules.area := by
        rw [Nat.succ_mul]
        omega
    _ ≤ rules.policySize := Nat.mul_le_mul_right _ hsourceOf

theorem Mirrors.flipIndex_successors (h : rules.Mirrors f p q) {ps : List Position}
    (hps : rules.successors p = .ok ps) :
    (ps.map fun next => rules.moveIndex next.last).map (rules.flipIndex f) =
      (ps.map (f.next q)).map fun next => rules.moveIndex next.last := by
  rw [List.map_map, List.map_map]
  apply List.map_congr_left
  intro next hnext
  have hlast : (f.next q next).last = f.move rules.boardSize next.last := by
    rw [Frame.next, Position.successor_last, h.size']
  simp only [Function.comp_apply]
  have hindexed := indexed_of_mem_successors h.boardSize_lt h.pieces_le h.size hps hnext
  rw [flipIndex_moveIndex h.boardSize_lt h.pieces_le hindexed, hlast]

theorem Mirrors.exists_successors_iff (h : rules.Mirrors f p q) :
    (∃ ps, rules.successors p = .ok ps) ↔ ∃ qs, rules.successors q = .ok qs := by
  constructor
  · rintro ⟨ps, hps⟩
    obtain ⟨qs, hqs, -⟩ := h.exists_successors hps
    exact ⟨qs, hqs⟩
  · rintro ⟨qs, hqs⟩
    obtain ⟨ps, hps, -⟩ := h.symm.exists_successors hqs
    exact ⟨ps, hps⟩

/-! ## Generating moves in a frame -/

/-- In a frame that the rules admit, the moves of a position are the moves of what is seen,
but for their order: one position has successors if the other has, the successors are turned
one by one, and the legal indices shown for the first are those of the second. -/
theorem successors_in_frame (hpieces : rules.pieces.length ≤ maxPieceTypes)
    (hboard : rules.boardSize < 0x80000000)
    (hframe : f.reverseSides = true → rules.symmetry.flipsBlack = true)
    (hsize : p.size = rules.boardSize)
    (hcells : p.board.size = rules.boardSize * rules.boardSize) (hshows : f.Shows p q) :
    ((∃ ps, rules.successors p = .ok ps) ↔ ∃ qs, rules.successors q = .ok qs) ∧
      ∀ ps qs, rules.successors p = .ok ps → rules.successors q = .ok qs →
        qs.Perm (ps.map fun next => q.successor (f.board rules.boardSize next.board)
          (f.side next.mover) ⟨f.code next.last.piece,
            f.flip rules.boardSize next.last.origin, f.flip rules.boardSize next.last.target⟩) ∧
        let shown := Observation.ofPosition rules p
          (ps.map fun next => rules.moveIndex next.last) f
        shown.board = q.board ∧ shown.size = q.size ∧ shown.mover = q.mover ∧
          shown.legal.Perm (qs.map fun next => rules.moveIndex next.last) := by
  have h : rules.Mirrors f p q := ⟨hboard, hpieces, hframe, hsize, hcells, hshows⟩
  refine ⟨h.exists_successors_iff, ?_⟩
  intro ps qs hps hqs
  obtain ⟨turned, hturned, hperm⟩ := h.exists_successors hps
  obtain rfl : qs = turned := Except.ok.inj (hqs.symm.trans hturned)
  have hnext : f.next q = fun next => q.successor (f.board rules.boardSize next.board)
      (f.side next.mover) (f.move rules.boardSize next.last) := by
    funext next
    rw [Frame.next, h.size']
  refine ⟨hnext ▸ hperm, ?_⟩
  intro shown
  have hlegal : shown.legal =
      (ps.map fun next => rules.moveIndex next.last).map (rules.flipIndex f) := rfl
  refine ⟨hshows.board.symm, hshows.size.symm, hshows.mover.symm, ?_⟩
  rw [hlegal, h.flipIndex_successors hps]
  exact (hperm.map _).symm

/-- A pawn that may capture or go on, and a bishop in the corner. -/
def pawnAndBishop : Position :=
  Position.ofBoard 8 ((((Board.clear 8).write 8 ⟨4, 3⟩ 1).write 8 ⟨5, 4⟩ (-3)).write 8 ⟨0, 0⟩ 3)
    .white .absent 0

/-- The same with the columns turned, for the other side. -/
def pawnAndBishopTurned : Position :=
  Position.ofBoard 8 (Frame.board ⟨true, true⟩ 8 pawnAndBishop.board) .black .absent 0

theorem successors_in_frame_pawnAndBishop :
    let f : Frame := ⟨true, true⟩
    BuiltIn.chess.pieces.length ≤ maxPieceTypes ∧ BuiltIn.chess.boardSize < 0x80000000 ∧
      (f.reverseSides = true → BuiltIn.chess.symmetry.flipsBlack = true) ∧
      pawnAndBishop.size = BuiltIn.chess.boardSize ∧
      pawnAndBishop.board.size = BuiltIn.chess.boardSize * BuiltIn.chess.boardSize ∧
      f.Shows pawnAndBishop pawnAndBishopTurned ∧
      ∃ ps qs, BuiltIn.chess.successors pawnAndBishop = .ok ps ∧
        BuiltIn.chess.successors pawnAndBishopTurned = .ok qs ∧ ps.length = 9 ∧
        (Observation.ofPosition BuiltIn.chess pawnAndBishop
          (ps.map fun next => BuiltIn.chess.moveIndex next.last) f).legal.Perm
            (qs.map fun next => BuiltIn.chess.moveIndex next.last) := by
  intro f
  have hpieces : BuiltIn.chess.pieces.length ≤ maxPieceTypes := by decide
  have hboard : BuiltIn.chess.boardSize < 0x80000000 := by decide
  have hreverse : f.reverseSides = true → BuiltIn.chess.symmetry.flipsBlack = true := fun _ => rfl
  have hsize : pawnAndBishop.size = BuiltIn.chess.boardSize := rfl
  have hcells : pawnAndBishop.board.size =
      BuiltIn.chess.boardSize * BuiltIn.chess.boardSize := by decide +kernel
  have hshows : f.Shows pawnAndBishop pawnAndBishopTurned := ⟨rfl, rfl, rfl⟩
  obtain ⟨hsome, hframe⟩ := successors_in_frame hpieces hboard hreverse hsize hcells hshows
  have hlength : ((BuiltIn.chess.successors pawnAndBishop).toOption.map List.length) = some 9 := by
    decide +kernel
  cases hps : BuiltIn.chess.successors pawnAndBishop with
  | error e =>
      rw [hps] at hlength
      cases hlength
  | ok ps =>
      rw [hps] at hlength
      obtain ⟨qs, hqs⟩ := hsome.mp ⟨ps, hps⟩
      have hlegal := (hframe ps qs hps hqs).2.2.2.2
      exact ⟨hpieces, hboard, hreverse, hsize, hcells, hshows, ps, qs, rfl, hqs,
        Option.some.inj hlength, hlegal⟩

end RuleSet

end BoardGame
