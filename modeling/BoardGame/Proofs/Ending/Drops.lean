import Mathlib.Data.Nat.Find
import BoardGame.Proofs.Ending.Measure
import BoardGame.Proofs.Games
/-!
# Games of drops

A piece that is dropped into a column lands on an empty square over pieces only. So every
drop fills one square of the board, and as long as a square is empty the lowest one of its
column can be reached.
-/

namespace BoardGame

open BuiltIn

/-! ## Empty cells -/

namespace Board

variable {n : Nat} {board : Board} {s : Square} {code : Int}

theorem emptyCells_write (hsize : board.size = n * n) (hs : s.onBoard n = true)
    (hempty : board.read n s = 0) (hcode : code ≠ 0) :
    (board.write n s code).emptyCells + 1 = board.emptyCells := by
  have hcount : (board.write n s code).countP (· == 0) + _ = _ := countP_write _ hsize hs
  rw [hempty, if_pos (by decide), if_neg (by simpa using hcode)] at hcount
  rw [emptyCells, emptyCells, Array.count_eq_countP, Array.count_eq_countP]
  exact hcount

theorem exists_read_eq_zero (hsize : board.size = n * n) (h : board.emptyCells ≠ 0) :
    ∃ s : Square, s.onBoard n = true ∧ board.read n s = 0 :=
  (mem_iff_exists_read hsize).mp (Array.count_pos_iff.mp (Nat.pos_of_ne_zero h))

theorem exists_lowest (hsize : board.size = n * n) (h : board.emptyCells ≠ 0) :
    ∃ x y : Nat, x < n ∧ y < n ∧ board.read n ⟨x, y⟩ = 0 ∧
      ∀ j < y, board.read n ⟨x, j⟩ ≠ 0 := by
  obtain ⟨⟨x, y⟩, hs, hzero⟩ := exists_read_eq_zero hsize h
  rw [Square.onBoard_iff] at hs
  dsimp only at hs
  have ex : (x.toNat : Int) = x := Int.toNat_of_nonneg hs.1.1
  have ey : (y.toNat : Int) = y := Int.toNat_of_nonneg hs.1.2
  have hcolumn : ∃ j : Nat, board.read n ⟨x.toNat, j⟩ = 0 := ⟨y.toNat, by rw [ex, ey]; exact hzero⟩
  have hle : Nat.find hcolumn ≤ y.toNat := Nat.find_min' hcolumn (by rw [ex, ey]; exact hzero)
  exact ⟨x.toNat, Nat.find hcolumn, by omega, by omega, Nat.find_spec hcolumn,
    fun j hj => Nat.find_min hcolumn hj⟩

end Board

theorem Square.mem_between_up {x y : Nat} {s : Square} :
    s ∈ Square.between ⟨x, -1⟩ ⟨x, y⟩ ↔ ∃ j < y, s = ⟨x, (j : Nat)⟩ := by
  have hup : (⟨x, y⟩ : Square) = ray ⟨x, -1⟩ ⟨0, 1⟩ (y + 1) := by
    simp only [ray, mk.injEq]
    omega
  rw [hup, mem_between_ray (by decide) (Nat.succ_pos y)]
  constructor
  · rintro ⟨i, ⟨hi, hle⟩, rfl⟩
    refine ⟨i - 1, by omega, ?_⟩
    simp only [ray, mk.injEq]
    omega
  · rintro ⟨j, hj, rfl⟩
    refine ⟨j + 1, by omega, ?_⟩
    simp only [ray, mk.injEq]
    omega

theorem Square.onBoard_natCast {n x y : Nat} (hx : x < n) (hy : y < n) :
    Square.onBoard n ⟨x, y⟩ = true :=
  onBoard_iff.mpr ⟨⟨Int.natCast_nonneg _, Int.natCast_nonneg _⟩, Int.ofNat_lt.mpr hx,
    Int.ofNat_lt.mpr hy⟩

namespace RuleSet

/-- One piece that is dropped up its column, past pieces at least, onto an empty square;
the game is over at the latest when the board is full. -/
structure Drops (rules : RuleSet) (type : PieceType) (rule : MoveRule) : Prop where
  valid : rules.Valid
  symmetry : rules.symmetry = .shared
  source : rules.moveSource = .ends
  pieces : rules.pieces = [type]
  moves : type.moves = [rule]
  templates : rule.templates = ahead 0
  land : rule.land = { empty := .deploy }
  own : rule.jump.own = .allowed
  opponent : rule.jump.opponent = .allowed
  exchange : rule.exchange = none
  full : ∃ ending ∈ rules.endings, ending.condition = .boardFull

variable {rules : RuleSet} {type : PieceType} {rule : MoveRule} {pos : Position} {c : Candidate}

theorem Fits.successors_ne_nil (h : rules.Fits pos) (hvalid : rules.Valid)
    (hc : c ∈ rules.allCandidates pos) {next : List Position}
    (hnext : rules.successors pos = .ok next) : next ≠ [] := by
  let result (c : Candidate) : Position := ((c.apply rules pos).toOption).getD pos
  have hresult : ∀ c ∈ rules.allCandidates pos, c.apply rules pos = .ok (result c) := by
    intro c hc
    obtain ⟨q, hq, -⟩ := h.exists_apply hvalid hc
    simp [result, hq, Except.toOption]
  have htypes : ∀ m ∈ rules.movers pos, (rules.pieceType? m.piece).isSome = true := by
    intro m hm
    obtain ⟨h0, hle, -⟩ := h.mover hvalid hm
    exact isSome_pieceType? h0 hle
  rw [successors_eq htypes hresult] at hnext
  rw [← Except.ok.inj hnext, Ne, ofHighestPriority_eq_nil, List.map_eq_nil_iff]
  exact List.ne_nil_of_mem hc

namespace Drops

theorem boardSize_lt (h : rules.Drops type rule) : rules.boardSize < 0x80000000 :=
  h.valid.boardSize_lt

theorem of_mem (h : rules.Drops type rule) (hfits : rules.Fits pos)
    (hc : c ∈ rules.allCandidates pos) :
    c.rule = rule ∧ c.piece ≠ 0 ∧ rules.pieceType c.piece = .ok type ∧
      c.target.onBoard rules.boardSize = true ∧ pos.read c.target = 0 := by
  have hon := target_of_mem_allCandidates hc
  rw [hfits.size] at hon
  obtain ⟨m, hm, hmem⟩ := List.mem_flatMap.mp hc
  obtain ⟨type', htype, hrule, -, hpiece, -, hadm⟩ := mem_candidatesAt.mp hmem
  obtain ⟨hne, -, -⟩ := hfits.mover h.valid hm
  have htype' := mem_pieces_of_pieceType? htype
  rw [h.pieces, List.mem_singleton] at htype'
  rw [htype', h.moves, List.mem_singleton] at hrule
  simp only [Candidate.admissible, Bool.and_eq_true] at hadm
  obtain ⟨⟨-, hland⟩, -⟩ := hadm
  refine ⟨hrule, hpiece ▸ hne, ?_, hon, ?_⟩
  · rw [pieceType, hpiece, htype, htype']
  · rw [Candidate.mayLand, hrule, h.land] at hland
    rw [← @Occupant.classify_eq_empty _ c.piece]
    generalize Occupant.classify (pos.read c.target) c.piece = occupant at hland ⊢
    cases occupant with
    | empty => rfl
    | own | opponent => cases hland

theorem jumpWrites_eq_nil (h : rules.Drops type rule) (hrule : c.rule = rule) :
    c.jumpWrites pos = [] := by
  have hkept (code : Int) : c.jumpedCode? code = none := by
    unfold Candidate.jumpedCode?
    rw [hrule, h.own, h.opponent]
    cases Occupant.classify code c.piece <;> rfl
  unfold Candidate.jumpWrites
  simp [hkept]

theorem apply_eq (h : rules.Drops type rule) (hfits : rules.Fits pos)
    (hc : c ∈ rules.allCandidates pos) :
    c.apply rules pos = .ok (pos.successor (pos.board.write rules.boardSize c.target c.piece)
      (if rule.continues then pos.mover else pos.mover.opponent)
      ⟨c.piece, c.origin, c.target⟩) := by
  obtain ⟨hrule, -, htype, -, hempty⟩ := h.of_mem hfits hc
  have hland : c.landWrites pos type.name (pos.read c.target) = .ok [⟨c.target, c.piece⟩] := by
    unfold Candidate.landWrites
    rw [hempty, hrule, h.land]
    rfl
  have hexchange : c.exchangeWrites rules pos.mover = .ok [] := by
    unfold Candidate.exchangeWrites
    rw [hrule, h.exchange]
  rw [Candidate.apply_eq htype hland hexchange, h.jumpWrites_eq_nil hrule, hrule]
  rfl

theorem piece_eq (h : rules.Drops type rule) (hc : c ∈ rules.allCandidates pos) :
    c.piece = pos.mover.sign := by
  obtain ⟨m, hm, hmem⟩ := List.mem_flatMap.mp hc
  obtain ⟨-, -, -, -, hpiece, -, -⟩ := mem_candidatesAt.mp hmem
  rw [movers, h.source] at hm
  obtain ⟨⟨i, hi, hcode⟩, -⟩ := (mem_virtualMovers h.boardSize_lt h.valid.pieces_le).mp hm
  rw [h.pieces, List.length_singleton, Nat.lt_one_iff] at hi
  rw [hpiece, hcode, hi]
  exact Int.one_mul _

theorem exists_write (h : rules.Drops type rule) (hfits : rules.Fits pos) {next : List Position}
    {q : Position} (hnext : rules.successors pos = .ok next) (hq : q ∈ next) :
    ∃ s last, s.onBoard rules.boardSize = true ∧ pos.read s = 0 ∧
      q = pos.successor (pos.board.write rules.boardSize s pos.mover.sign)
        (if rule.continues then pos.mover else pos.mover.opponent) last := by
  obtain ⟨c, hc, happly⟩ := exists_candidate hnext hq
  obtain ⟨-, -, -, hon, hempty⟩ := h.of_mem hfits hc
  rw [h.apply_eq hfits hc, h.piece_eq hc] at happly
  exact ⟨c.target, _, hon, hempty, (Except.ok.inj happly).symm⟩

theorem emptyCells_of_apply (h : rules.Drops type rule) (hfits : rules.Fits pos)
    (hc : c ∈ rules.allCandidates pos) {q : Position} (hq : c.apply rules pos = .ok q) :
    q.board.emptyCells + 1 = pos.board.emptyCells := by
  obtain ⟨-, hpiece, -, hon, hempty⟩ := h.of_mem hfits hc
  rw [h.apply_eq hfits hc] at hq
  rw [← Except.ok.inj hq, Position.successor_board]
  rw [Position.read, hfits.size] at hempty
  exact Board.emptyCells_write hfits.cells hon hempty hpiece

theorem mem_movers (h : rules.Drops type rule) {x : Nat} (hx : x < rules.boardSize) :
    ⟨pos.mover.sign, ⟨x, -1⟩⟩ ∈ rules.movers pos := by
  have hlength : 0 < rules.pieces.length := by
    rw [h.pieces]
    exact Nat.one_pos
  rw [movers, h.source]
  refine (mem_virtualMovers h.boardSize_lt h.valid.pieces_le).mpr ⟨⟨0, hlength, ?_⟩,
    ⟨Int.natCast_nonneg _, Int.ofNat_lt.mpr hx⟩, .inl rfl⟩
  exact (Int.one_mul _).symm

theorem pieceType?_sign (h : rules.Drops type rule) (mover : Side) :
    rules.pieceType? mover.sign = some type := by
  have hne : mover.sign ≠ 0 := by cases mover <;> decide
  rw [pieceType?, if_neg hne, Side.natAbs_sign, h.pieces]
  rfl

theorem mem_targetSquares_above (h : rules.Drops type rule) {x y : Nat}
    (hy : y < rules.boardSize) : ⟨x, y⟩ ∈ rules.targetSquares pos.mover ⟨x, -1⟩ rule := by
  have hedge : rules.edge = rules.boardSize := Square.coordinate_of_lt h.boardSize_lt
  have hsign : rules.forwardSign pos.mover = 1 := by
    rw [forwardSign, h.symmetry]
    exact if_neg fun hc => absurd hc.2 (by decide)
  rw [mem_targetSquares, h.templates]
  simp only [ahead, List.foldl_cons, List.foldl_nil, SetOp.holds, covers, extent, if_true, hedge,
    hsign, Bool.false_or, Bool.and_eq_true, Bool.or_eq_true, beq_iff_eq, decide_eq_true_eq,
    Square.sub_x, Square.sub_y, Pattern.within_iff]
  omega

theorem jump_ne_disallowed (h : rules.Drops type rule) {code : Int} (piece : Int)
    (hcode : code ≠ 0) : rule.jump.get (Occupant.classify code piece) ≠ .disallowed := by
  have hclass := mt (@Occupant.classify_eq_empty _ piece).mp hcode
  generalize Occupant.classify code piece = occupant at hclass
  cases occupant with
  | empty => exact absurd rfl hclass
  | own =>
      show rule.jump.own ≠ _
      rw [h.own]
      decide
  | opponent =>
      show rule.jump.opponent ≠ _
      rw [h.opponent]
      decide

theorem mayJump_above (h : rules.Drops type rule) (hfits : rules.Fits pos) {x y : Nat}
    (hx : x < rules.boardSize) (hy : y < rules.boardSize)
    (hbelow : ∀ j < y, pos.board.read rules.boardSize ⟨x, j⟩ ≠ 0) (piece : Int) :
    (Candidate.mk piece ⟨x, -1⟩ ⟨x, y⟩ rule).mayJump pos = true := by
  rw [Candidate.mayJump, List.all_eq_true]
  intro s hs
  obtain ⟨j, hj, rfl⟩ := Square.mem_between_up.mp hs
  have hon : pos.onBoard ⟨x, j⟩ = true := by
    rw [Position.onBoard, hfits.size]
    exact Square.onBoard_natCast hx (by omega)
  rw [bne_iff_ne, Position.cell, if_pos hon, Position.read, hfits.size]
  exact h.jump_ne_disallowed piece (hbelow j hj)

/-- The lowest empty square of a column is reached from below. -/
theorem mem_candidatesAt_below (h : rules.Drops type rule) (hfits : rules.Fits pos) {x y : Nat}
    (hx : x < rules.boardSize) (hy : y < rules.boardSize)
    (hempty : pos.board.read rules.boardSize ⟨x, y⟩ = 0)
    (hbelow : ∀ j < y, pos.board.read rules.boardSize ⟨x, j⟩ ≠ 0) :
    ⟨pos.mover.sign, ⟨x, -1⟩, ⟨x, y⟩, rule⟩ ∈
      rules.candidatesAt pos ⟨pos.mover.sign, ⟨x, -1⟩⟩ := by
  have hrule : rule ∈ type.moves := by
    rw [h.moves]
    exact List.mem_singleton_self rule
  refine mem_candidatesAt.mpr ⟨type, h.pieceType?_sign pos.mover, hrule,
    h.mem_targetSquares_above hy, rfl, rfl, ?_⟩
  simp only [Candidate.admissible, Bool.and_eq_true]
  refine ⟨⟨?_, ?_⟩, h.mayJump_above hfits hx hy hbelow _⟩
  · rw [Position.onBoard, hfits.size]
    exact Square.onBoard_natCast hx hy
  · have hclass := (@Occupant.classify_eq_empty _ pos.mover.sign).mpr hempty
    rw [Candidate.mayLand, Position.read, hfits.size, hclass, h.land]
    rfl

theorem exists_drop (h : rules.Drops type rule) (hfits : rules.Fits pos)
    (hopen : pos.board.emptyCells ≠ 0) : ∃ c, c ∈ rules.allCandidates pos := by
  obtain ⟨x, y, hx, hy, hempty, hbelow⟩ := Board.exists_lowest hfits.cells hopen
  exact ⟨_, List.mem_flatMap.mpr ⟨_, h.mem_movers hx,
    h.mem_candidatesAt_below hfits hx hy hempty hbelow⟩⟩

/-- Squares left are plies left. -/
theorem measure (h : rules.Drops type rule) {bound : Nat}
    (hstart : ∀ p, Position.initial rules = .ok p → p.board.emptyCells = bound) :
    Game.Measure ⟨rules, .template⟩ bound fun n p =>
      rules.Fits p ∧ p.board.emptyCells = n where
  initial p hp :=
    have hp := Game.initial_of_eq_ok hp
    ⟨fits_initial h.valid.pieces_le hp, hstart p hp⟩
  successors n p hleft := by
    obtain ⟨hfits, hcells⟩ := hleft
    obtain ⟨next, hnext, hall⟩ := hfits.exists_successors h.valid
    refine ⟨next, Game.successors_template.mpr hnext, fun q hq => ⟨hall q hq, ?_⟩⟩
    obtain ⟨c, hc, happly⟩ := exists_candidate hnext hq
    have := h.emptyCells_of_apply hfits hc happly
    omega
  onward n p next hleft hnext hopen := by
    obtain ⟨hfits, hcells⟩ := hleft
    have hnext' := Game.successors_template.mp hnext
    obtain ⟨ending, hmem, hfull⟩ := h.full
    have hempty : p.board.emptyCells ≠ 0 := by
      intro h0
      have hnone := endOutcome_eq_none hopen ending hmem
      unfold endOutcome at hnone
      rw [hfull] at hnone
      dsimp only at hnone
      rw [if_pos h0] at hnone
      cases Except.ok.inj hnone
    obtain ⟨c, hc⟩ := h.exists_drop hfits hempty
    exact ⟨hfits.successors_ne_nil h.valid hc hnext', by omega⟩

end Drops

end RuleSet

end BoardGame
