import BoardGame.Rules.Validation
import BoardGame.Proofs.Failure
/-!
# What validation guarantees

A rule set that passes validation has a board of a supported size and piece codes that
are signed bytes, and each of its move rules knows every piece it names and says what
happens wherever it lets a piece land.
-/

namespace BoardGame

namespace RuleSet

variable {rules : RuleSet}

/-! ## Piece codes -/

/-- Codes of up to 127 piece types do not wrap round. -/
theorem pieceCode_eq {i : Nat} (h : i < maxPieceTypes) : pieceCode i = i + 1 := by
  have hi : i < 127 := h
  unfold pieceCode
  rw [Int.bmod_eq_of_le] <;> omega

theorem exists_index_of_codeOf {name : String} {code : Int} (h : rules.codeOf name = .ok code) :
    ∃ i < rules.pieces.length, code = pieceCode i := by
  unfold codeOf codeOf? at h
  cases hfind : rules.pieces.findIdx? (·.name == name) with
  | none =>
      rw [hfind] at h
      cases h
  | some i =>
      rw [hfind] at h
      exact ⟨i, (List.findIdx?_eq_some_iff_findIdx_eq.mp hfind).1, (Except.ok.inj h).symm⟩

theorem natAbs_codeOf_le (hpieces : rules.pieces.length ≤ maxPieceTypes) {name : String}
    {code : Int} (h : rules.codeOf name = .ok code) : code.natAbs ≤ rules.pieces.length := by
  obtain ⟨i, hi, hcode⟩ := exists_index_of_codeOf h
  rw [pieceCode_eq (Nat.lt_of_lt_of_le hi hpieces)] at hcode
  omega

theorem isSome_pieceType? {code : Int} (h0 : code ≠ 0)
    (h : code.natAbs ≤ rules.pieces.length) : (rules.pieceType? code).isSome = true := by
  have hindex : code.natAbs - 1 < rules.pieces.length := by omega
  rw [pieceType?, if_neg h0, List.getElem?_eq_getElem hindex]
  rfl

theorem mem_pieces_of_pieceType? {code : Int} {type : PieceType}
    (h : rules.pieceType? code = some type) : type ∈ rules.pieces := by
  unfold pieceType? at h
  obtain ⟨-, htype⟩ := Option.ite_none_left_eq_some.mp h
  exact List.mem_of_getElem? htype

/-! ## Valid rules -/

/-- A move rule that knows the pieces it names and is clear about landing. -/
structure ValidMove (rules : RuleSet) (move : MoveRule) : Prop where
  exchange : ∀ name, move.exchange = some name → ∃ code, rules.codeOf name = .ok code
  empty : move.land.empty.settlesEmpty = true
  occupied : ∀ occupant, occupant ≠ .empty → (move.land.get occupant).settlesOccupied = true
  /-- Nothing is exchanged with a place off the board. -/
  swap : ∀ occupant, occupant ≠ .empty → move.land.get occupant = .swap →
    rules.moveSource = .piecesOnBoard

structure Valid (rules : RuleSet) : Prop where
  boardSize_pos : 0 < rules.boardSize
  boardSize_le : rules.boardSize ≤ maxBoardSize
  pieces_le : rules.pieces.length ≤ maxPieceTypes
  moves : ∀ piece ∈ rules.pieces, ∀ move ∈ piece.moves, rules.ValidMove move

theorem Valid.boardSize_lt (h : rules.Valid) : rules.boardSize < 0x80000000 := by
  have hle : rules.boardSize ≤ 32 := h.boardSize_le
  omega

theorem exchange_of_validate {move : MoveRule} (h : rules.validateExchange move = .ok ()) :
    ∀ name, move.exchange = some name → ∃ code, rules.codeOf name = .ok code := by
  intro name hname
  unfold validateExchange at h
  simp only [hname] at h
  cases hcode : rules.codeOf name with
  | error e =>
      rw [hcode] at h
      cases h
  | ok code => exact ⟨code, rfl⟩

theorem occupied_of_validate {piece : PieceType} {move : MoveRule} {occupant : Occupant}
    (h : rules.validateOccupied piece move occupant = .ok ()) :
    (move.land.get occupant).settlesOccupied = true ∧
      (move.land.get occupant = .swap → rules.moveSource = .piecesOnBoard) := by
  unfold validateOccupied at h
  by_cases hsettles : (move.land.get occupant).settlesOccupied = true
  · by_cases hswap : move.land.get occupant = .swap ∧ rules.moveSource = .ends
    · rw [hswap.1, hswap.2] at h
      cases h
    · refine ⟨hsettles, fun heq => ?_⟩
      cases hsource : rules.moveSource with
      | piecesOnBoard => rfl
      | ends => exact absurd ⟨heq, hsource⟩ hswap
  · simp only [hsettles] at h
    cases h

theorem validMove_of_validate {piece : PieceType} {move : MoveRule}
    (h : rules.validateMove piece move = .ok ()) : rules.ValidMove move := by
  obtain ⟨_, hexchange, h⟩ := bind_eq_ok.mp h
  obtain ⟨hempty, h⟩ := of_check h
  obtain ⟨_, hown, hopponent⟩ := bind_eq_ok.mp h
  have own := occupied_of_validate hown
  have opponent := occupied_of_validate hopponent
  refine ⟨exchange_of_validate hexchange, ?_, ?_, ?_⟩
  · simpa using hempty
  · intro occupant hoccupant
    cases occupant with
    | empty => exact absurd rfl hoccupant
    | own => exact own.1
    | opponent => exact opponent.1
  · intro occupant hoccupant
    cases occupant with
    | empty => exact absurd rfl hoccupant
    | own => exact own.2
    | opponent => exact opponent.2

theorem validMove_of_validatePieces {seen : List String} {pieces : List PieceType}
    (h : rules.validatePieces seen pieces = .ok ()) :
    ∀ piece ∈ pieces, ∀ move ∈ piece.moves, rules.ValidMove move := by
  induction pieces generalizing seen with
  | nil => simp
  | cons piece rest ih =>
      rw [validatePieces] at h
      obtain ⟨-, h⟩ := of_check h
      obtain ⟨_, hmoves, hrest⟩ := bind_eq_ok.mp h
      have hfirst : ∀ move ∈ piece.moves, rules.ValidMove move := fun move hmove =>
        validMove_of_validate (forall_mem_of_forM_eq_ok hmoves move hmove)
      exact List.forall_mem_cons.mpr ⟨hfirst, ih hrest⟩

theorem valid_of_validate (h : rules.validate = .ok ()) : rules.Valid := by
  unfold validate at h
  obtain ⟨hsize, h⟩ := of_check h
  obtain ⟨hcount, hpieces⟩ := of_check h
  exact ⟨by omega, by omega, by omega, validMove_of_validatePieces hpieces⟩

end RuleSet

end BoardGame
