import BoardGame.BuiltIn
import BoardGame.Proofs.Chess.Steps
import BoardGame.Proofs.Moves.Totality
/-!
# Chess by templates

The template rules of chess say where a piece may go by sets of squares and policies. On
boards without unmoved pieces they let it go where the engine tries to let it go, and it
arrives as the engine lets it arrive.
-/

namespace BoardGame.Chess

open Laws BuiltIn RuleSet

variable {pos : Position} {kind : Kind} {side : Side} {s t : Square} {rule : MoveRule}
  {c : Candidate}

/-! ## Rules -/

/-- The template rules of a piece. -/
def rulesOf : Kind → List MoveRule
  | .pawn => pawnMoves
  | .knight => knightMoves
  | .bishop => sliderMoves [⟨.union, .cross, 0⟩]
  | .rook => sliderMoves [⟨.union, .plus, 0⟩]
  | .queen => sliderMoves [⟨.union, .plus, 0⟩, ⟨.union, .cross, 0⟩]
  | .king => sliderMoves [⟨.union, .square, 1⟩]
  | .unmovedRook | .unmovedKing => []

theorem exists_pieceType (hkind : kind.code ≤ 6) (side : Side) :
    ∃ type, BuiltIn.chess.pieceType? (kind.code * side.sign) = some type ∧
      type.moves = rulesOf kind := by
  cases kind
  case unmovedRook => exact absurd hkind (by decide)
  case unmovedKing => exact absurd hkind (by decide)
  all_goals cases side <;> exact ⟨_, rfl, rfl⟩

theorem policies_of_mem (h : rule ∈ rulesOf kind) :
    (rule.continues = false ∧ rule.priority = 0) ∧
      (rule.exchange = none ∨ rule.exchange = some "Q") ∧
      (rule.land = quiet ∨ rule.land = take ∨ rule.land = quietOrTake) ∧
      (rule.jump = slide ∨ rule.jump = leap ∨ rule.jump = {}) := by
  have hall : ∀ rule ∈ rulesOf kind, (rule.continues = false ∧ rule.priority = 0) ∧
      (rule.exchange = none ∨ rule.exchange = some "Q") ∧
      (rule.land = quiet ∨ rule.land = take ∨ rule.land = quietOrTake) ∧
      (rule.jump = slide ∨ rule.jump = leap ∨ rule.jump = {}) := by
    cases kind <;> decide
  exact hall rule h

theorem policies_of_mem_of_ne (h : rule ∈ rulesOf kind) (hkind : kind ≠ .pawn) :
    rule.exchange = none ∧ rule.land = quietOrTake ∧
      (rule.jump = slide ∨ kind = .knight ∧ rule.jump = leap) := by
  have hall : kind ≠ .pawn → ∀ rule ∈ rulesOf kind, rule.exchange = none ∧
      rule.land = quietOrTake ∧ (rule.jump = slide ∨ kind = .knight ∧ rule.jump = leap) := by
    cases kind <;> decide
  exact hall hkind rule h

/-! ## Squares -/

theorem forwardSign_chess (side : Side) : BuiltIn.chess.forwardSign side = side.sign := by
  cases side <;> rfl

theorem rankRow_chess (side : Side) :
    BuiltIn.chess.rankRow side 8 = home side.opponent ∧
      BuiltIn.chess.rankRow side 4 = home side + 3 * side.sign := by
  cases side <;> decide

theorem extent_chess (op : SetOp) (pattern : Pattern) :
    BuiltIn.chess.extent ⟨op, pattern, 0⟩ = 8 ∧ BuiltIn.chess.extent ⟨op, pattern, 1⟩ = 1 ∧
      BuiltIn.chess.extent ⟨op, pattern, 2⟩ = 2 ∧ BuiltIn.chess.extent ⟨op, pattern, 4⟩ = 4 ∧
      BuiltIn.chess.extent ⟨op, pattern, 8⟩ = 8 :=
  ⟨rfl, rfl, rfl, rfl, rfl⟩

theorem mem_targetSquares_of_ne (h : rule ∈ rulesOf kind) (hkind : kind ≠ .pawn) (hs : OnBoard s)
    (ht : OnBoard t) :
    t ∈ BuiltIn.chess.targetSquares side s rule ↔ kind.piece.Reaches side (t - s) := by
  have hedge : BuiltIn.chess.edge = 8 := rfl
  unfold OnBoard at hs ht
  cases kind
  case pawn => exact absurd rfl hkind
  case unmovedRook => cases h
  case unmovedKing => cases h
  -- on either side stand inequalities between columns and rows
  all_goals
    obtain rfl := List.mem_singleton.mp h
    rw [mem_targetSquares]
    simp only [List.foldl_cons, List.foldl_nil, SetOp.holds, covers, extent_chess, Bool.false_or,
      Bool.or_eq_true, Bool.and_eq_true, Bool.not_eq_true', ← Bool.not_eq_true, beq_iff_eq,
      Pattern.within_iff, Square.sub_x, Square.sub_y, Kind.piece, Piece.Reaches]
    omega

/-- What a template rule of pawns reaches is told by its policies. -/
def PawnReaches (rule : MoveRule) (side : Side) (s t : Square) : Prop :=
  if rule.land = take then Piece.pawn.Reaches side (t - s)
  else if rule.jump = slide then s.y = home side + side.sign ∧ t = ⟨s.x, s.y + 2 * side.sign⟩
  else t = ⟨s.x, s.y + side.sign⟩

theorem mem_targetSquares_pawn (h : rule ∈ pawnMoves) (ht : OnBoard t) :
    t ∈ BuiltIn.chess.targetSquares side s rule ↔
      (rule.exchange = some "Q" ↔ t.y = home side.opponent) ∧ PawnReaches rule side s t := by
  have hside := home_cases side
  have hopponent := home_opponent side
  have hedge : BuiltIn.chess.edge = 8 := rfl
  unfold OnBoard at ht
  rw [mem_targetSquares]
  simp only [pawnMoves, List.mem_cons, List.not_mem_nil, or_false] at h
  rcases h with rfl | rfl | rfl | rfl | rfl
  all_goals
    simp only [ahead, aheadDiagonally, onRank, offRank, List.cons_append, List.nil_append,
      List.foldl_cons, List.foldl_nil, SetOp.holds, covers, extent_chess, rankRow_chess,
      forwardSign_chess, hedge, Bool.false_or, Bool.or_eq_true, Bool.and_eq_true,
      Bool.not_eq_true', ← Bool.not_eq_true, beq_iff_eq, decide_eq_true_eq, Pattern.within_iff,
      Square.sub_x, Square.sub_y, PawnReaches, quiet, slide, take, reduceCtorEq,
      SquarePolicy.mk.injEq, and_true, and_false, and_self, if_true, if_false, false_iff,
      true_iff, square_eq_iff, Piece.Reaches]
    rcases hside with ⟨hsign, hhome⟩ | ⟨hsign, hhome⟩ <;>
      simp only [hsign, hhome, hopponent] <;> omega

/-! ## Policies -/

theorem mayLand_quiet (h : c.rule.land = quiet) :
    c.mayLand pos = true ↔ pos.read c.target = 0 := by
  rw [Candidate.mayLand, bne_iff_ne, h, ← @Occupant.classify_eq_empty _ c.piece]
  cases Occupant.classify (pos.read c.target) c.piece <;> decide

theorem mayLand_take (h : c.rule.land = take) :
    c.mayLand pos = true ↔ pos.read c.target ≠ 0 ∧ (pos.read c.target).sign ≠ c.piece.sign := by
  rw [Candidate.mayLand, bne_iff_ne, h, ← Occupant.classify_eq_opponent]
  cases Occupant.classify (pos.read c.target) c.piece <;> decide

theorem mayLand_quietOrTake (h : c.rule.land = quietOrTake) (hpiece : c.piece ≠ 0) :
    c.mayLand pos = true ↔ (pos.read c.target).sign ≠ c.piece.sign := by
  have hzero : pos.read c.target = 0 → (pos.read c.target).sign ≠ c.piece.sign := by
    intro hread heq
    rw [hread, Int.sign_zero, eq_comm, Int.sign_eq_zero_iff_zero] at heq
    exact hpiece heq
  have hown : c.mayLand pos = true ↔
      ¬ Occupant.classify (pos.read c.target) c.piece = .own := by
    rw [Candidate.mayLand, bne_iff_ne, h]
    cases Occupant.classify (pos.read c.target) c.piece <;> decide
  rw [hown, Occupant.classify_eq_own, not_and]
  exact ⟨fun himp heq => himp (fun hread => hzero hread heq) heq, fun hne _ => hne⟩

section Boards

variable (hsize : pos.size = boardSize)

include hsize

theorem cell_eq_look (s : Square) : pos.cell s = look pos.board s := by
  rw [Position.cell, Position.onBoard, Position.read, hsize, look]

theorem read_eq_look (hs : OnBoard s) : pos.read s = look pos.board s := by
  rw [look_eq_read hs, Position.read, hsize]

theorem mayJump_slide (hboard : Valid pos.board) (h : c.rule.jump = slide) :
    c.mayJump pos = true ↔ Clear (placement pos.board) c.origin c.target := by
  have hsquare (s : Square) : (c.rule.jump.get (Occupant.classify (pos.cell s) c.piece) !=
      .disallowed) = true ↔ placement pos.board s = none := by
    rw [bne_iff_ne, h, hboard.placement_eq_none, ← cell_eq_look hsize,
      ← @Occupant.classify_eq_empty _ c.piece]
    cases Occupant.classify (pos.cell s) c.piece <;> decide
  rw [Candidate.mayJump, List.all_eq_true]
  exact forall₂_congr fun s _ => hsquare s

omit hsize in
theorem mayJump_leap (h : c.rule.jump = leap) : c.mayJump pos = true := by
  rw [Candidate.mayJump, List.all_eq_true, h]
  intro s _
  cases Occupant.classify (pos.cell s) c.piece <;> decide

omit hsize in
theorem mayJump_of_between_eq_nil (h : Square.between c.origin c.target = []) :
    c.mayJump pos = true := by
  rw [Candidate.mayJump, h]
  rfl

theorem admissible_iff : c.admissible pos = true ↔
    OnBoard c.target ∧ c.mayLand pos = true ∧ c.mayJump pos = true := by
  rw [Candidate.admissible, Bool.and_eq_true, Bool.and_eq_true, and_assoc, Position.onBoard, hsize,
    onBoard_iff_laws]

end Boards

/-! ## Positions -/

section Fits

variable (h : BuiltIn.chess.Fits pos)

include h

theorem look_le_of_fits (s : Square) : (look pos.board s).natAbs ≤ 6 := by
  by_cases hs : OnBoard s
  · rw [look_eq_read hs]
    exact h.codes _ (Board.mem_of_read h.cells (onBoard_iff_laws.mpr hs))
  · rw [look_of_not_onBoard hs]
    decide

theorem valid_of_fits : Valid pos.board where
  size := h.cells
  code_le s := Nat.le_trans (look_le_of_fits h s) (by decide)

theorem kind_le_of_fits (hs : look pos.board s = kind.code * side.sign) : kind.code ≤ 6 := by
  have hle := look_le_of_fits h s
  have habs := natAbs_code_mul kind side
  rw [hs] at hle
  omega

/-- A piece never goes to a square that its own side holds. -/
theorem free_of_admissible (hs : look pos.board s = kind.code * pos.mover.sign)
    (hrule : rule ∈ rulesOf kind)
    (hadm : (Candidate.mk (look pos.board s) s t rule).admissible pos = true) :
    (look pos.board t).sign ≠ pos.mover.sign := by
  obtain ⟨ht, hland, -⟩ := (admissible_iff h.size).mp hadm
  have hsign : (look pos.board s).sign = pos.mover.sign := by rw [hs, sign_code_mul]
  have hunit := pos.mover.sign_cases
  rw [← read_eq_look h.size ht, ← hsign]
  obtain ⟨-, -, hlands, -⟩ := policies_of_mem hrule
  rcases hlands with hquiet | htake | hboth
  · have hempty : pos.read t = 0 := (mayLand_quiet hquiet).mp hland
    rw [hempty, hsign, Int.sign_zero]
    omega
  · exact ((mayLand_take htake).mp hland).2
  · have hpiece : look pos.board s ≠ 0 := by
      intro hzero
      rw [hzero, Int.sign_zero] at hsign
      omega
    exact (mayLand_quietOrTake hboth hpiece).mp hland

end Fits

/-- No man has castling rights, the side to move has one king at most, and no pawn can be
taken in passing. -/
structure Plain (pos : Position) : Prop where
  size : pos.size = boardSize
  cells : pos.board.size = boardSize * boardSize
  code_le : ∀ code ∈ pos.board, code.natAbs ≤ 6
  king : ∀ s t, look pos.board s = Kind.king.code * pos.mover.sign →
    look pos.board t = Kind.king.code * pos.mover.sign → s = t
  last : ¬ (pos.last.origin.y = 1 ∧ pos.last.target.y = 3) ∧
    ¬ (pos.last.origin.y = 6 ∧ pos.last.target.y = 4)

namespace Plain

theorem fits (h : Plain pos) : BuiltIn.chess.Fits pos :=
  ⟨h.size, h.cells, h.code_le⟩

theorem valid (h : Plain pos) : Valid pos.board :=
  valid_of_fits h.fits

theorem kind_le (h : Plain pos) (hs : look pos.board s = kind.code * side.sign) :
    kind.code ≤ 6 :=
  kind_le_of_fits h.fits hs

theorem one_king (h : Plain pos) (s t : Square)
    (hs : placement pos.board s = some ⟨pos.mover, .king⟩)
    (ht : placement pos.board t = some ⟨pos.mover, .king⟩) : s = t := by
  have hking {u : Square} (hu : placement pos.board u = some ⟨pos.mover, .king⟩) :
      look pos.board u = Kind.king.code * pos.mover.sign := by
    rcases (man_eq_king (h.valid.code_le u)).mp hu with hcode | hcode
    · exact hcode
    · exact absurd (h.kind_le hcode) (by decide)
  exact h.king s t (hking hs) (hking ht)

theorem enPassantTarget?_eq_none (h : Plain pos) (s : Square) :
    enPassantTarget? pos s = none := by
  unfold enPassantTarget?
  exact if_neg fun hpassed => hpassed.1.elim h.last.1 h.last.2

theorem mem_pawnTargets (h : Plain pos) :
    t ∈ pawnTargets pos s ↔ t ∈ pawnSteps pos s ∨ t ∈ pawnCaptures pos s := by
  rw [pawnTargets_eq, h.enPassantTarget?_eq_none, Option.toList_none, List.append_nil,
    List.mem_append]

end Plain

/-! ## Where pieces may go -/

/-- The engine tries a target that is not occupied by its own side. -/
structure Tried (pos : Position) (kind : Kind) (s t : Square) : Prop where
  onBoard : OnBoard t
  target : t ∈ targets pos s kind
  free : (look pos.board t).sign ≠ pos.mover.sign

theorem Tried.ne (h : Tried pos kind s t) (hs : look pos.board s = kind.code * pos.mover.sign) :
    s ≠ t := by
  rintro rfl
  apply h.free
  rw [hs, sign_code_mul]

theorem Tried.not_own (h : Tried pos kind s t) (hboard : Valid pos.board) (piece : Piece) :
    placement pos.board t ≠ some ⟨pos.mover, piece⟩ := by
  intro hown
  obtain ⟨k, -, hk⟩ := hboard.placement_eq_some.mp hown
  apply h.free
  rw [hk, sign_code_mul]

theorem between_eq_nil (hx : (t.x - s.x).natAbs ≤ 1) (hy : (t.y - s.y).natAbs ≤ 1) :
    Square.between s t = [] := by
  unfold Square.between
  dsimp only
  split
  · rfl
  · have hnone : max (t.x - s.x).natAbs (t.y - s.y).natAbs - 1 = 0 := by omega
    rw [hnone]
    rfl

theorem clear_twoAhead {p : Placement} :
    Clear p s ⟨s.x, s.y + 2 * side.sign⟩ ↔ p ⟨s.x, s.y + side.sign⟩ = none := by
  have hbetween : Square.between s ⟨s.x, s.y + 2 * side.sign⟩ = [⟨s.x, s.y + side.sign⟩] := by
    have hahead : s.y + 2 * side.sign - s.y = 2 * side.sign := by omega
    unfold Square.between
    dsimp only
    rw [Int.sub_self, hahead]
    rcases side.sign_cases with hsign | hsign <;> rw [hsign] <;> simp
  show (∀ u ∈ Square.between s ⟨s.x, s.y + 2 * side.sign⟩, p u = none) ↔ _
  rw [hbetween]
  exact List.forall_mem_singleton

theorem exists_rule_iff_of_ne (h : Plain pos) (hs : look pos.board s = kind.code * pos.mover.sign)
    (hkind : kind ≠ .pawn) :
    (∃ rule ∈ rulesOf kind, t ∈ BuiltIn.chess.targetSquares pos.mover s rule ∧
      (Candidate.mk (look pos.board s) s t rule).admissible pos = true) ↔ Tried pos kind s t := by
  have hon : OnBoard s := onBoard_of_look_eq hs
  have hpiece : look pos.board s ≠ 0 := by
    rw [hs]
    cases kind <;> cases pos.mover <;> decide
  have hsign : (look pos.board s).sign = pos.mover.sign := by rw [hs, sign_code_mul]
  have hland {rule : MoveRule} (hrule : rule ∈ rulesOf kind) (ht : OnBoard t) :
      (Candidate.mk (look pos.board s) s t rule).mayLand pos = true ↔
        (look pos.board t).sign ≠ pos.mover.sign := by
    rw [mayLand_quietOrTake (policies_of_mem_of_ne hrule hkind).2.1 hpiece, hsign,
      read_eq_look h.size ht]
  have hjump {rule : MoveRule} (hrule : rule ∈ rulesOf kind)
      (hreach : kind.piece.Reaches pos.mover (t - s)) :
      (Candidate.mk (look pos.board s) s t rule).mayJump pos = true ↔
        Clear (placement pos.board) s t := by
    rcases (policies_of_mem_of_ne hrule hkind).2.2 with hslide | ⟨rfl, hleap⟩
    · exact mayJump_slide h.size h.valid hslide
    · exact iff_of_true (mayJump_leap hleap) (clear_of_knight hreach)
  constructor
  · rintro ⟨rule, hrule, htarget, hadm⟩
    obtain ⟨ht, hlands, hjumps⟩ := (admissible_iff h.size).mp hadm
    have hreach := (mem_targetSquares_of_ne hrule hkind hon ht).mp htarget
    exact ⟨ht, (mem_targets h.valid hon ht hkind).mpr ⟨hreach, (hjump hrule hreach).mp hjumps⟩,
      (hland hrule ht).mp hlands⟩
  · rintro ⟨ht, htarget, hfree⟩
    obtain ⟨rule, hrule⟩ : ∃ rule, rule ∈ rulesOf kind := by
      cases kind
      case pawn => exact absurd rfl hkind
      case unmovedRook => exact absurd (h.kind_le hs) (by decide)
      case unmovedKing => exact absurd (h.kind_le hs) (by decide)
      all_goals exact ⟨_, List.mem_singleton_self _⟩
    have hmoves : kind.piece.Reaches pos.mover (t - s) ∧ Clear (placement pos.board) s t :=
      (mem_targets h.valid hon ht hkind).mp htarget
    obtain ⟨hreach, hclear⟩ := hmoves
    exact ⟨rule, hrule, (mem_targetSquares_of_ne hrule hkind hon ht).mpr hreach,
      (admissible_iff h.size).mpr ⟨ht, (hland hrule ht).mpr hfree, (hjump hrule hreach).mpr hclear⟩⟩

theorem exists_pawnRule (last : Bool) :
    (∃ rule ∈ pawnMoves, rule.land ≠ take ∧ rule.jump ≠ slide ∧
      (rule.exchange = some "Q" ↔ last = true)) ∧
    ∃ rule ∈ pawnMoves, rule.land = take ∧ (rule.exchange = some "Q" ↔ last = true) := by
  cases last <;> decide

/-- A rule for captures asks for a man of the other side, the others ask for a free way. -/
def PawnFree (rule : MoveRule) (pos : Position) (s t : Square) : Prop :=
  if rule.land = take then look pos.board t ≠ 0 ∧ (look pos.board t).sign ≠ pos.mover.sign
  else look pos.board t = 0 ∧
    (rule.jump = slide → look pos.board ⟨s.x, s.y + pos.mover.sign⟩ = 0)

section Pawns

variable (h : Plain pos) (hs : look pos.board s = Kind.pawn.code * pos.mover.sign)

include h hs

theorem admissible_pawn_iff (hrule : rule ∈ pawnMoves) (hreach : PawnReaches rule pos.mover s t) :
    (Candidate.mk (look pos.board s) s t rule).admissible pos = true ↔
      OnBoard t ∧ PawnFree rule pos s t := by
  have hsign : (look pos.board s).sign = pos.mover.sign := by rw [hs, sign_code_mul]
  have hunit := Side.sign_cases pos.mover
  rw [admissible_iff h.size]
  refine and_congr_right fun ht => ?_
  have hread : pos.read t = look pos.board t := read_eq_look h.size ht
  unfold PawnReaches at hreach
  unfold PawnFree
  by_cases htake : rule.land = take
  · rw [if_pos htake] at hreach ⊢
    have hjump : (Candidate.mk (look pos.board s) s t rule).mayJump pos = true := by
      simp only [Piece.Reaches, Square.sub_x, Square.sub_y] at hreach
      apply mayJump_of_between_eq_nil
      apply between_eq_nil <;> dsimp only <;> omega
    rw [and_iff_left hjump, mayLand_take htake, hread, hsign]
  · have hquiet : rule.land = quiet := by
      have hall : ∀ rule ∈ pawnMoves, rule.land = take ∨ rule.land = quiet := by decide
      exact (hall rule hrule).resolve_left htake
    rw [if_neg htake] at hreach ⊢
    rw [mayLand_quiet hquiet, hread]
    refine and_congr_right fun _ => ?_
    by_cases hslide : rule.jump = slide
    · rw [if_pos hslide] at hreach
      rw [imp_iff_right hslide, mayJump_slide h.size h.valid hslide, hreach.2, clear_twoAhead,
        h.valid.placement_eq_none]
    · rw [if_neg hslide] at hreach
      refine iff_of_true (mayJump_of_between_eq_nil ?_) fun hjump => absurd hjump hslide
      apply between_eq_nil <;> simp only [hreach] <;> omega

theorem pawnRule_iff (hrule : rule ∈ pawnMoves) :
    (t ∈ BuiltIn.chess.targetSquares pos.mover s rule ∧
      (Candidate.mk (look pos.board s) s t rule).admissible pos = true) ↔
      OnBoard t ∧ (rule.exchange = some "Q" ↔ t.y = home pos.mover.opponent) ∧
        PawnReaches rule pos.mover s t ∧ PawnFree rule pos s t := by
  constructor
  · rintro ⟨htarget, hadm⟩
    have ht : OnBoard t := ((admissible_iff h.size).mp hadm).1
    obtain ⟨hlast, hreach⟩ := (mem_targetSquares_pawn hrule ht).mp htarget
    exact ⟨ht, hlast, hreach, ((admissible_pawn_iff h hs hrule hreach).mp hadm).2⟩
  · rintro ⟨ht, hlast, hreach, hfree⟩
    exact ⟨(mem_targetSquares_pawn hrule ht).mpr ⟨hlast, hreach⟩,
      (admissible_pawn_iff h hs hrule hreach).mpr ⟨ht, hfree⟩⟩

theorem tried_of_pawnRule (ht : OnBoard t) (hreach : PawnReaches rule pos.mover s t)
    (hfree : PawnFree rule pos s t) : Tried pos .pawn s t := by
  have hon : OnBoard s := onBoard_of_look_eq hs
  unfold PawnReaches at hreach
  unfold PawnFree at hfree
  by_cases htake : rule.land = take
  · rw [if_pos htake] at hreach hfree
    have hcapture := mem_pawnCaptures_iff.mpr ⟨hreach, hfree.1⟩
    exact ⟨ht, h.mem_pawnTargets.mpr (Or.inr hcapture), hfree.2⟩
  · rw [if_neg htake] at hreach hfree
    obtain ⟨hempty, hpassed⟩ := hfree
    refine ⟨ht, h.mem_pawnTargets.mpr (Or.inl ((mem_pawnSteps_iff hon ht).mpr ?_)), ?_⟩
    · by_cases hslide : rule.jump = slide
      · rw [if_pos hslide] at hreach
        exact Or.inr ⟨hreach.1, hreach.2, hpassed hslide, hempty⟩
      · rw [if_neg hslide] at hreach
        exact Or.inl ⟨hreach, hempty⟩
    · rw [hempty]
      cases pos.mover <;> decide

theorem exists_pawnRule_of_tried (htried : Tried pos .pawn s t) : ∃ rule ∈ pawnMoves,
    (rule.exchange = some "Q" ↔ t.y = home pos.mover.opponent) ∧
      PawnReaches rule pos.mover s t ∧ PawnFree rule pos s t := by
  have hon : OnBoard s := onBoard_of_look_eq hs
  obtain ⟨ht, htarget, hfree⟩ := htried
  obtain ⟨⟨step, hstep, hquiet, hjump, hstepLast⟩, capture, hcapture, htake, htakeLast⟩ :=
    exists_pawnRule (Decidable.decide (t.y = home pos.mover.opponent))
  rw [decide_eq_true_iff] at hstepLast htakeLast
  unfold PawnReaches PawnFree
  rcases h.mem_pawnTargets.mp htarget with hmem | hmem
  · rcases (mem_pawnSteps_iff hon ht).mp hmem with ⟨hahead, hempty⟩ |
      ⟨hhome, htwo, hpassed, hempty⟩
    · refine ⟨step, hstep, hstepLast, ?_⟩
      rw [if_neg hquiet, if_neg hjump, if_neg hquiet]
      exact ⟨hahead, hempty, fun hslide => absurd hslide hjump⟩
    · obtain ⟨double, hdouble, hquiet, hslide, hstays⟩ : ∃ rule ∈ pawnMoves,
          rule.land ≠ take ∧ rule.jump = slide ∧ rule.exchange ≠ some "Q" := by
        decide
      -- the double step begins too far back to end on the last rank
      have hlast : ¬ t.y = home pos.mover.opponent := by
        have hside := home_cases pos.mover
        have hopponent := home_opponent pos.mover
        rw [htwo]
        dsimp only
        omega
      refine ⟨double, hdouble, iff_of_false hstays hlast, ?_⟩
      rw [if_neg hquiet, if_pos hslide, if_neg hquiet]
      exact ⟨⟨hhome, htwo⟩, hempty, fun _ => hpassed⟩
  · obtain ⟨hforward, hocc⟩ := mem_pawnCaptures_iff.mp hmem
    refine ⟨capture, hcapture, htakeLast, ?_⟩
    rw [if_pos htake, if_pos htake]
    exact ⟨hforward, hocc, hfree⟩

end Pawns

/-- The template rules let a piece go where the engine tries to let it go. -/
theorem exists_rule_iff (h : Plain pos) (hs : look pos.board s = kind.code * pos.mover.sign) :
    (∃ rule ∈ rulesOf kind, t ∈ BuiltIn.chess.targetSquares pos.mover s rule ∧
      (Candidate.mk (look pos.board s) s t rule).admissible pos = true) ↔ Tried pos kind s t := by
  by_cases hkind : kind = .pawn
  · subst hkind
    constructor
    · rintro ⟨rule, hrule, hallowed⟩
      obtain ⟨ht, -, hreach, hfree⟩ := (pawnRule_iff h hs hrule).mp hallowed
      exact tried_of_pawnRule h hs ht hreach hfree
    · intro htried
      obtain ⟨rule, hrule, hasked⟩ := exists_pawnRule_of_tried h hs htried
      exact ⟨rule, hrule, (pawnRule_iff h hs hrule).mpr ⟨htried.onBoard, hasked⟩⟩
  · exact exists_rule_iff_of_ne h hs hkind

end BoardGame.Chess
