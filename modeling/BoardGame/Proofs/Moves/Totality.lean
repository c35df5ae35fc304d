import BoardGame.BuiltIn
import BoardGame.Game
import BoardGame.Proofs.Rules.Validity
import BoardGame.Proofs.Moves.Candidates
import BoardGame.Proofs.Moves.Effect
import BoardGame.Proofs.Outcome
import BoardGame.Proofs.Succession
/-!
# Valid rules do not fail

A position fits a rule set if it has a board of its size and no code without a piece
type. Under valid rules every admissible candidate of such a position can be played, and
what it leads to fits again; so no game that starts from a position that fits ever comes
to an error.
-/

namespace BoardGame

/-! ## Codes on a board -/

namespace Board

variable {n k : Nat} {board : Board} {s : Square} {code : Int}

/-- No code on the board is greater than `k`, whatever its sign. -/
def Bounded (board : Board) (k : Nat) : Prop :=
  ∀ code ∈ board, code.natAbs ≤ k

theorem bounded_clear (n k : Nat) : (clear n).Bounded k := by
  intro code hcode
  rw [(Array.mem_replicate.mp hcode).2]
  exact Nat.zero_le k

theorem Bounded.write (h : board.Bounded k) (hcode : code.natAbs ≤ k) :
    (board.write n s code).Bounded k := by
  intro c hc
  rcases Array.mem_or_eq_of_mem_setIfInBounds hc with hmem | rfl
  · exact h c hmem
  · exact hcode

theorem Bounded.writeAll (h : board.Bounded k) {writes : List Write}
    (hwrites : ∀ w ∈ writes, w.code.natAbs ≤ k) : (board.writeAll n writes).Bounded k := by
  induction writes generalizing board with
  | nil => exact h
  | cons w rest ih =>
      obtain ⟨hw, hrest⟩ := List.forall_mem_cons.mp hwrites
      exact ih (h.write hw) hrest

theorem Bounded.read (h : board.Bounded k) (n : Nat) (s : Square) :
    (board.read n s).natAbs ≤ k := by
  unfold Board.read
  cases hcell : board[s.index n]? with
  | none => exact Nat.zero_le k
  | some code => exact h code (Array.mem_of_getElem? hcell)

end Board

/-! ## One candidate -/

namespace Candidate

variable {rules : RuleSet} {pos : Position} {c : Candidate} {k : Nat}

theorem jumpWrites_bounded (h : pos.board.Bounded k) :
    ∀ w ∈ c.jumpWrites pos, w.code.natAbs ≤ k := by
  intro w hw
  obtain ⟨-, -, hcode⟩ := of_mem_jumpWrites hw
  have hread : (pos.read w.square).natAbs ≤ k := h.read pos.size w.square
  obtain ⟨-, hzero | ⟨hturned, -⟩⟩ := jumpedCode?_cases hcode
  · rw [hzero]
    exact Nat.zero_le k
  · rw [hturned, Int.natAbs_neg]
    exact hread

theorem landing_bounded {code : Int} {landing : List Write} (h : c.Landing pos code landing)
    (hpiece : c.piece.natAbs ≤ k) (hcode : code.natAbs ≤ k) :
    ∀ w ∈ landing, w.code.natAbs ≤ k := by
  intro w hw
  rcases h.codes with hcodes | ⟨-, -, rfl⟩
  · rcases hcodes w hw with heq | heq <;> rw [heq]
    · exact hpiece
    · exact Nat.zero_le k
  · rcases List.mem_cons.mp hw with rfl | hw
    · exact hcode
    · rw [List.mem_singleton.mp hw]
      exact hpiece

theorem exists_landWrites (hvalid : rules.ValidMove c.rule) (hland : c.mayLand pos = true)
    (horigin : rules.moveSource = .piecesOnBoard → pos.onBoard c.origin = true) (name : String) :
    ∃ landing, c.landWrites pos name (pos.read c.target) = .ok landing := by
  simp only [mayLand, bne_iff_ne] at hland
  unfold landWrites
  dsimp only
  cases hclass : Occupant.classify (pos.read c.target) c.piece with
  | empty =>
      rw [hclass] at hland
      have hempty := hvalid.empty
      cases hdo : c.rule.land.empty <;> simp only [SquarePolicy.get, hdo] at hland hempty ⊢
      case allowed => exact ⟨_, rfl⟩
      case deploy => exact ⟨_, rfl⟩
      all_goals first | exact absurd rfl hland | cases hempty
  | own | opponent =>
      have hne : Occupant.classify (pos.read c.target) c.piece ≠ .empty := by
        rw [hclass]
        decide
      have hoccupied := hvalid.occupied _ hne
      have hswap := hvalid.swap _ hne
      rw [hclass] at hland hoccupied hswap
      generalize c.rule.land.get _ = disposition at hland hoccupied hswap ⊢
      cases disposition with
      | capture => exact ⟨_, rfl⟩
      | swap =>
          have hboard : pos.onBoard c.origin = true := horigin (hswap rfl)
          simp only [hboard, if_true]
          exact ⟨_, rfl⟩
      | stay => exact ⟨_, rfl⟩
      | disallowed => exact absurd rfl hland
      | allowed | deploy | impress => cases hoccupied

theorem exists_exchangeWrites (hvalid : rules.ValidMove c.rule)
    (hpieces : rules.pieces.length ≤ maxPieceTypes) (side : Side) :
    ∃ exchange, c.exchangeWrites rules side = .ok exchange ∧
      ∀ w ∈ exchange, w.code.natAbs ≤ rules.pieces.length := by
  unfold exchangeWrites
  cases hname : c.rule.exchange with
  | none => exact ⟨[], rfl, by simp⟩
  | some name =>
      obtain ⟨code, hcode⟩ := hvalid.exchange name hname
      have hle : code.natAbs ≤ rules.pieces.length := rules.natAbs_codeOf_le hpieces hcode
      refine ⟨[⟨c.target, code * side.sign⟩], ?_, ?_⟩
      · simp only [hcode]
        rfl
      · intro w hw
        rw [List.mem_singleton.mp hw, Int.natAbs_mul, Side.natAbs_sign, Nat.mul_one]
        exact hle

end Candidate

/-! ## Positions that fit -/

/-- A position on a board of the rules' size, with pieces of the rules' types only. -/
structure RuleSet.Fits (rules : RuleSet) (pos : Position) : Prop where
  size : pos.size = rules.boardSize
  cells : pos.board.size = rules.area
  codes : pos.board.Bounded rules.pieces.length

namespace RuleSet

variable {rules : RuleSet} {pos next : Position}

theorem Fits.read (h : rules.Fits pos) (s : Square) :
    (pos.read s).natAbs ≤ rules.pieces.length :=
  h.codes.read pos.size s

theorem Fits.mover (h : rules.Fits pos) (hvalid : rules.Valid) {m : Mover}
    (hm : m ∈ rules.movers pos) : m.piece ≠ 0 ∧ m.piece.natAbs ≤ rules.pieces.length ∧
      (rules.moveSource = .piecesOnBoard → pos.onBoard m.origin = true) := by
  have hsize := hvalid.boardSize_lt
  have hsign := pos.mover.sign_cases
  unfold movers at hm
  cases hsource : rules.moveSource with
  | piecesOnBoard =>
      rw [hsource] at hm
      obtain ⟨hboard, hread, hpiece⟩ := (mem_boardMovers hsize).mp hm
      refine ⟨?_, hread ▸ h.read m.origin, fun _ => ?_⟩
      · intro h0
        rw [h0] at hpiece
        rcases hsign with hs | hs <;> rw [hs] at hpiece <;> cases hpiece
      · rw [Position.onBoard, h.size]
        exact hboard
  | ends =>
      rw [hsource] at hm
      obtain ⟨⟨i, hi, hpiece⟩, -⟩ := (mem_virtualMovers hsize hvalid.pieces_le).mp hm
      refine ⟨?_, ?_, nofun⟩
      · rcases hsign with hs | hs <;> rw [hpiece, hs] <;> omega
      · rcases hsign with hs | hs <;> rw [hpiece, hs] <;> omega

theorem Fits.exists_apply (h : rules.Fits pos) (hvalid : rules.Valid) {c : Candidate}
    (hc : c ∈ rules.allCandidates pos) :
    ∃ q, c.apply rules pos = .ok q ∧ rules.Fits q := by
  obtain ⟨m, hm, hmem⟩ := List.mem_flatMap.mp hc
  obtain ⟨type, htype, hrule, -, hpiece, horigin, hadm⟩ := mem_candidatesAt.mp hmem
  have hmove : rules.ValidMove c.rule :=
    hvalid.moves type (mem_pieces_of_pieceType? htype) c.rule hrule
  obtain ⟨-, hbound, hboard⟩ := h.mover hvalid hm
  simp only [Candidate.admissible, Bool.and_eq_true] at hadm
  obtain ⟨⟨-, hland⟩, -⟩ := hadm
  obtain ⟨landing, hlanding⟩ :=
    Candidate.exists_landWrites hmove hland (horigin ▸ hboard) type.name
  obtain ⟨exchange, hexchange, hexchanged⟩ :=
    Candidate.exists_exchangeWrites hmove hvalid.pieces_le pos.mover
  have htype' : rules.pieceType c.piece = .ok type := by
    rw [pieceType, hpiece, htype]
  refine ⟨_, Candidate.apply_eq htype' hlanding hexchange, h.size, ?_, ?_⟩
  · exact Board.size_writeAll.trans h.cells
  · apply h.codes.writeAll
    intro w hw
    rcases List.mem_append.mp hw with hw | hw
    · rcases List.mem_append.mp hw with hw | hw
      · exact Candidate.jumpWrites_bounded h.codes w hw
      · exact Candidate.landing_bounded (Candidate.landing_of_landWrites hlanding)
          (hpiece ▸ hbound) (h.read c.target) w hw
    · exact hexchanged w hw

/-- One step: there are successors, if only none, and they fit. -/
theorem Fits.exists_successors (h : rules.Fits pos) (hvalid : rules.Valid) :
    ∃ next, rules.successors pos = .ok next ∧ ∀ q ∈ next, rules.Fits q := by
  have htypes : ∀ m ∈ rules.movers pos, (rules.pieceType? m.piece).isSome = true := by
    intro m hm
    obtain ⟨h0, hle, -⟩ := h.mover hvalid hm
    exact isSome_pieceType? h0 hle
  have happly : ∀ c ∈ rules.allCandidates pos, ∃ q, c.apply rules pos = .ok q := by
    intro c hc
    obtain ⟨q, hq, -⟩ := h.exists_apply hvalid hc
    exact ⟨q, hq⟩
  obtain ⟨next, hnext, hmem⟩ := RuleSet.exists_successors htypes happly
  refine ⟨next, hnext, fun q hq => ?_⟩
  obtain ⟨c, hc, hcq, -⟩ := (hmem q).mp hq
  obtain ⟨q', hq', hfits⟩ := h.exists_apply hvalid hc
  rw [hcq] at hq'
  exact Except.ok.inj hq' ▸ hfits

/-! ## Outcomes -/

/-- An outcome is missing only where the question for successors fails. -/
theorem exists_outcome {ε : Type} {noMoves : Except ε Bool} {stuck : Bool} (rules : RuleSet)
    (pos : Position) (hmoves : noMoves = .ok stuck) :
    ∃ outcome, rules.outcome pos noMoves = .ok outcome := by
  have hok : @Sequential (Except ε) (Except ε) _ _ fun _ r _ => ∃ a, r = .ok a := by
    refine ⟨fun a => ⟨a, rfl⟩, ?_⟩
    rintro _ _ _ _ f _ ⟨a, rfl⟩ hf
    exact hf a
  exact hok.firstOutcome noMoves ⟨stuck, hmoves⟩ rules rules.endings

/-! ## The start -/

theorem bounded_place {n k : Nat} {board after : Board} {s : Square} {code : Int}
    (hboard : board.size = n * n ∧ board.Bounded k) (hcode : code.natAbs ≤ k)
    (h : Position.place n board s code = .ok after) : after.size = n * n ∧ after.Bounded k := by
  unfold Position.place at h
  split at h
  · cases h
  · split at h
    · cases h
    · cases h
      exact ⟨Board.size_write.trans hboard.1, hboard.2.write hcode⟩

theorem fits_initial (hpieces : rules.pieces.length ≤ maxPieceTypes)
    (h : Position.initial rules = .ok pos) : rules.Fits pos := by
  obtain ⟨board, hboard, hpos⟩ := bind_eq_ok.mp h
  let Good (b : Board) : Prop :=
    b.size = rules.boardSize * rules.boardSize ∧ b.Bounded rules.pieces.length
  have hclear : Good (Board.clear rules.boardSize) :=
    ⟨by simp [Board.clear], Board.bounded_clear _ _⟩
  have hgood : Good board := by
    refine foldlM_keeps ?_ hclear hboard
    rintro b b' ⟨piece, i⟩ hmem hb hplaced
    have hi : i < rules.pieces.length := by
      simpa using (List.mem_zipIdx hmem).2.1
    have hcode : (pieceCode i).natAbs ≤ rules.pieces.length := by
      rw [pieceCode_eq (Nat.lt_of_lt_of_le hi hpieces)]
      omega
    refine foldlM_keeps ?_ hb hplaced
    intro c c' s _ hc hpair
    obtain ⟨d, hd, hc'⟩ := bind_eq_ok.mp hpair
    exact bounded_place (bounded_place hc hcode hd) (by rwa [Int.natAbs_neg]) hc'
  have heq := Except.ok.inj hpos
  rw [← heq]
  exact ⟨rfl, hgood.1, hgood.2⟩

/-! ## Whole runs -/

/-- Positions after a number of plies. -/
inductive Run (rules : RuleSet) (start : Position) : Nat → Position → Prop where
  | start : Run rules start 0 start
  | step {plies : Nat} {pos next : Position} {positions : List Position}
      (h : Run rules start plies pos) (hs : rules.successors pos = .ok positions)
      (hmem : next ∈ positions) : Run rules start (plies + 1) next

theorem Run.fits {start : Position} {plies : Nat} (hvalid : rules.Valid)
    (hstart : rules.Fits start) (h : rules.Run start plies pos) : rules.Fits pos := by
  induction h with
  | start => exact hstart
  | step _ hs hmem ih =>
      obtain ⟨positions, hpositions, hfits⟩ := ih.exists_successors hvalid
      rw [hs] at hpositions
      exact hfits _ (Except.ok.inj hpositions ▸ hmem)

theorem Run.depth_eq {start : Position} {plies : Nat} (hstart : start.depth = 0)
    (h : rules.Run start plies pos) : pos.depth = min maxDepth plies := by
  induction h with
  | start =>
      rw [hstart]
      exact (Nat.min_zero _).symm
  | step _ hs hmem ih =>
      rw [(follows_of_mem_successors hs hmem).depth_eq, ih]
      omega

theorem depth_initial (h : Position.initial rules = .ok pos) : pos.depth = 0 := by
  obtain ⟨board, -, hpos⟩ := bind_eq_ok.mp h
  rw [← Except.ok.inj hpos]
  rfl

/-- Under valid rules no game comes to an error: whatever has been played, there are
successors and an outcome, the board has its cells and known codes only, and the depth
counts the plies. -/
theorem run_never_fails (hvalid : rules.validate = .ok ()) {start : Position}
    (hstart : Position.initial rules = .ok start) {plies : Nat}
    (hrun : rules.Run start plies pos) :
    (∃ positions, rules.successors pos = .ok positions) ∧
      (∃ outcome, rules.outcome pos (List.isEmpty <$> rules.successors pos) = .ok outcome) ∧
      pos.board.size = rules.boardSize * rules.boardSize ∧
      (∀ code ∈ pos.board, -rules.pieces.length ≤ code ∧ code ≤ rules.pieces.length) ∧
      pos.depth = min maxDepth plies := by
  have valid := valid_of_validate hvalid
  have hfits : rules.Fits pos := hrun.fits valid (fits_initial valid.pieces_le hstart)
  obtain ⟨positions, hpositions, -⟩ := hfits.exists_successors valid
  refine ⟨⟨positions, hpositions⟩, ?_, hfits.cells, ?_, hrun.depth_eq (depth_initial hstart)⟩
  · have hmoves : List.isEmpty <$> rules.successors pos = .ok positions.isEmpty := by
      rw [hpositions]
      rfl
    exact exists_outcome rules pos hmoves
  · intro code hcode
    have hle := hfits.codes code hcode
    omega

/-- Two pieces dropped into one column, the second past the first. -/
theorem run_never_fails_dropped :
    let rules := BuiltIn.ticTacToe
    let start := Position.ofBoard 3 (Board.clear 3) .white .absent 0
    let first := start.successor (start.board.write 3 ⟨1, 0⟩ 1) .black ⟨1, ⟨1, -1⟩, ⟨1, 0⟩⟩
    let second := first.successor (first.board.write 3 ⟨1, 1⟩ (-1)) .white ⟨-1, ⟨1, -1⟩, ⟨1, 1⟩⟩
    rules.validate = .ok () ∧ Position.initial rules = .ok start ∧ rules.Run start 2 second ∧
      (∃ positions, rules.successors second = .ok positions) ∧
      (∃ outcome, rules.outcome second (List.isEmpty <$> rules.successors second) =
        .ok outcome) ∧
      second.board.size = 9 ∧ (∀ code ∈ second.board, -1 ≤ code ∧ code ≤ 1) ∧
      second.depth = 2 := by
  intro rules start first second
  have of_contains : ∀ pos next : Position,
      ((rules.successors pos).toOption.getD []).contains next = true →
        ∃ positions, rules.successors pos = .ok positions ∧ next ∈ positions := by
    intro pos next h
    cases hs : rules.successors pos with
    | error e =>
        rw [hs] at h
        cases h
    | ok positions =>
        rw [hs] at h
        exact ⟨positions, rfl, List.contains_iff_mem.mp h⟩
  have hvalid : rules.validate = .ok () := by decide +kernel
  have hstart : Position.initial rules = .ok start := by decide +kernel
  obtain ⟨_, hs, hfirst⟩ := of_contains start first (by decide +kernel)
  obtain ⟨_, hs', hsecond⟩ := of_contains first second (by decide +kernel)
  have hrun : rules.Run start 2 second := (Run.start.step hs hfirst).step hs' hsecond
  exact ⟨hvalid, hstart, hrun, run_never_fails hvalid hstart hrun⟩

end RuleSet

end BoardGame
