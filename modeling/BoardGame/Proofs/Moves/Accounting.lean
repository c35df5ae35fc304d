import BoardGame.Proofs.Moves.Effect
import BoardGame.Proofs.Moves.Generation
import BoardGame.Proofs.Succession
/-!
# The account of a move

A move by the templates jumps over pieces, lands in one of several ways and may exchange the
piece that has landed. Whatever it does, the rest of the board stays as it is, the opponent
gains no piece, and the side that moves gains one at most.
-/

namespace BoardGame

namespace Board

variable {n : Nat} {board before after : Board} {s : Square} {p : Int → Bool}

/-- Number of pieces of a side. -/
def piecesOf (board : Board) (side : Side) : Nat :=
  board.countP fun code => code.sign = side.sign

/-- Number of pieces of both sides. -/
def pieces (board : Board) : Nat :=
  board.countP (· ≠ 0)

theorem countP_eq (p : Int → Bool) (hsize : board.size = n * n) :
    board.countP p = (List.range (n * n)).countP fun i => p (board.read n (Square.ofCell n i)) := by
  have hcells : board.toList =
      (List.range (n * n)).map fun i => board.read n (Square.ofCell n i) := by
    apply List.ext_getElem
    · simp [hsize]
    · intro i hi _
      have hlt : i < board.size := by simpa using hi
      have hindex : (Square.ofCell n i).index n = i := Square.index_ofCell (hsize ▸ hlt)
      simp [read, hindex, hlt]
  rw [← Array.countP_toList, hcells, List.countP_map]
  rfl

theorem countP_le_of_read (hbefore : before.size = n * n) (hafter : after.size = n * n)
    (h : ∀ s : Square, s.onBoard n = true → p (after.read n s) = true →
      p (before.read n s) = true) :
    after.countP p ≤ before.countP p := by
  rw [countP_eq p hbefore, countP_eq p hafter]
  apply List.countP_mono_left
  intro i hi
  exact h _ (Square.onBoard_ofCell (List.mem_range.mp hi))

/-- Number of pieces with one more on a square that is empty. -/
def piecesWith (board : Board) (n : Nat) (s : Square) : Nat :=
  board.pieces + if board.read n s = 0 then 1 else 0

theorem pieces_le_piecesWith : board.pieces ≤ board.piecesWith n s :=
  Nat.le_add_right _ _

theorem piecesWith_le : board.piecesWith n s ≤ board.pieces + 1 := by
  unfold piecesWith
  split <;> omega

theorem piecesWith_of_read {code : Int} (hread : board.read n s = code) (hcode : code ≠ 0) :
    board.piecesWith n s = board.pieces := by
  rw [piecesWith, hread, if_neg hcode, Nat.add_zero]

theorem pieces_write {code : Int} (hsize : board.size = n * n) (hs : s.onBoard n = true) :
    (board.write n s code).pieces + 1 = board.piecesWith n s + if code = 0 then 0 else 1 := by
  have hcount : (board.write n s code).pieces + (if decide (board.read n s ≠ 0) then 1 else 0) =
      board.pieces + if decide (code ≠ 0) then 1 else 0 := countP_write _ hsize hs
  simp only [ne_eq, decide_not, Bool.not_eq_true', decide_eq_false_iff_not, ite_not] at hcount
  unfold piecesWith
  by_cases hempty : board.read n s = 0
  · rw [if_pos hempty] at hcount ⊢
    omega
  · rw [if_neg hempty] at hcount ⊢
    omega

theorem pieces_write_of_ne_zero {code : Int} (hsize : board.size = n * n)
    (hs : s.onBoard n = true) (hcode : code ≠ 0) :
    (board.write n s code).pieces = board.piecesWith n s := by
  have hwrite : (board.write n s code).pieces + 1 = _ := pieces_write hsize hs
  rw [if_neg hcode] at hwrite
  exact Nat.add_right_cancel hwrite

theorem piecesOf_write {code : Int} {side : Side} (hsize : board.size = n * n)
    (hs : s.onBoard n = true) :
    (board.write n s code).piecesOf side +
        (if (board.read n s).sign = side.sign then 1 else 0) =
      board.piecesOf side + if code.sign = side.sign then 1 else 0 := by
  have hcount : (board.write n s code).piecesOf side +
      (if decide ((board.read n s).sign = side.sign) then 1 else 0) =
      board.piecesOf side + if decide (code.sign = side.sign) then 1 else 0 :=
    countP_write _ hsize hs
  simpa only [decide_eq_true_eq] using hcount

end Board

namespace Candidate

variable {c : Candidate} {pos : Position} {board : Board} {landing : List Write}

/-! ## Landing -/

/-- A board on which a piece is about to land. A piece that comes from the board stands on
its origin. -/
structure Poised (c : Candidate) (pos : Position) (board : Board) : Prop where
  size : board.size = pos.size * pos.size
  target : pos.onBoard c.target = true
  piece : c.piece.sign = pos.mover.sign
  origin : pos.onBoard c.origin = true → board.read pos.size c.origin = c.piece

namespace Poised

variable (h : c.Poised pos board)
include h

theorem piece_ne_zero : c.piece ≠ 0 := by
  have hsign := pos.mover.sign_cases
  have hpiece := h.piece
  intro hzero
  rw [hzero, Int.sign_zero] at hpiece
  omega

theorem put : let put := board.write pos.size c.target c.piece
    put.size = pos.size * pos.size ∧ put.read pos.size c.target = c.piece ∧
      put.pieces = board.piecesWith pos.size c.target :=
  ⟨Board.size_write.trans h.size, Board.read_write_self h.size h.target,
    Board.pieces_write_of_ne_zero h.size h.target h.piece_ne_zero⟩

theorem piecesWith_put_le :
    (board.write pos.size c.target c.piece).piecesWith pos.size c.target ≤ board.pieces + 1 := by
  obtain ⟨-, hread, hpieces⟩ := h.put
  rw [Board.piecesWith_of_read hread h.piece_ne_zero, hpieces]
  exact Board.piecesWith_le

/-- A piece that has been put on the target and leaves its square is none more. One that moves
in place vanishes. -/
theorem piecesWith_departed_le (hon : pos.onBoard c.origin = true) :
    ((board.write pos.size c.target c.piece).write pos.size c.origin 0).piecesWith pos.size
      c.target ≤ board.pieces := by
  obtain ⟨hsize, hread, hpieces⟩ := h.put
  have hleft : (board.write pos.size c.target c.piece).read pos.size c.origin = c.piece := by
    rw [Board.read_write h.size h.target hon, h.origin hon, ite_self]
  have hcleared : ((board.write pos.size c.target c.piece).write pos.size c.origin 0).pieces + 1 =
      _ := Board.pieces_write hsize hon
  rw [if_pos rfl, Nat.add_zero, Board.piecesWith_of_read hleft h.piece_ne_zero,
    hpieces] at hcleared
  by_cases hplace : c.target = c.origin
  · have hown : board.read pos.size c.target = c.piece := hplace ▸ h.origin hon
    rw [Board.piecesWith_of_read hown h.piece_ne_zero] at hcleared
    exact Board.piecesWith_le.trans_eq hcleared
  · have hkept : ((board.write pos.size c.target c.piece).write pos.size c.origin 0).read pos.size
        c.target = c.piece := by
      rw [Board.read_write_of_ne hsize hon h.target hplace, hread]
    rw [Board.piecesWith_of_read hkept h.piece_ne_zero]
    exact Nat.le_of_add_le_add_right (hcleared.trans_le Board.piecesWith_le)

theorem exchanged (hon : pos.onBoard c.origin = true) :
    let taken := board.write pos.size c.origin (board.read pos.size c.target)
    taken.size = pos.size * pos.size ∧
      taken.read pos.size c.target = board.read pos.size c.target := by
  refine ⟨Board.size_write.trans h.size, ?_⟩
  rw [Board.read_write h.size hon h.target, ite_self]

theorem piecesWith_exchanged (hon : pos.onBoard c.origin = true)
    (hoccupied : board.read pos.size c.target ≠ 0) :
    ((board.write pos.size c.origin (board.read pos.size c.target)).write pos.size c.target
      c.piece).piecesWith pos.size c.target = board.pieces := by
  obtain ⟨hsize, hread⟩ := h.exchanged hon
  have hback : ((board.write pos.size c.origin (board.read pos.size c.target)).write pos.size
      c.target c.piece).read pos.size c.target = c.piece :=
    Board.read_write_self hsize h.target
  rw [Board.piecesWith_of_read hback h.piece_ne_zero,
    Board.pieces_write_of_ne_zero hsize h.target h.piece_ne_zero,
    Board.piecesWith_of_read hread hoccupied,
    Board.pieces_write_of_ne_zero h.size hon hoccupied,
    Board.piecesWith_of_read (h.origin hon) h.piece_ne_zero]

theorem piecesOf_exchanged (hon : pos.onBoard c.origin = true) :
    ((board.write pos.size c.origin (board.read pos.size c.target)).write pos.size c.target
      c.piece).piecesOf pos.mover.opponent = board.piecesOf pos.mover.opponent := by
  obtain ⟨hsize, hread⟩ := h.exchanged hon
  have hown : c.piece.sign ≠ pos.mover.opponent.sign := by
    rw [h.piece, ne_eq, Side.sign_inj]
    exact (Side.opponent_ne _).symm
  have htaken : (board.write pos.size c.origin (board.read pos.size c.target)).piecesOf
      pos.mover.opponent + _ = _ := Board.piecesOf_write h.size hon
  have hput : ((board.write pos.size c.origin (board.read pos.size c.target)).write pos.size
      c.target c.piece).piecesOf pos.mover.opponent + _ = _ :=
    Board.piecesOf_write hsize h.target
  rw [h.origin hon, if_neg hown] at htaken
  rw [hread, if_neg hown] at hput
  omega

end Poised

/-- However a piece lands, and also if it fills a target that was left empty by that, there is
at most one piece more. There is none more if it comes from the board, unless it has been put
on an empty target without leaving its square. -/
theorem Landing.piecesWith_le (h : c.Landing pos (board.read pos.size c.target) landing)
    (hboard : c.Poised pos board) :
    let filled := (board.writeAll pos.size landing).piecesWith pos.size c.target
    filled ≤ board.pieces + 1 ∧
      (pos.onBoard c.origin = true →
        ¬ (board.read pos.size c.target = 0 ∧ c.rule.land.empty = .deploy) →
        filled ≤ board.pieces) := by
  cases h with
  | moved =>
      unfold departure
      by_cases hon : pos.onBoard c.origin = true
      · rw [if_pos hon]
        have hle := hboard.piecesWith_departed_le hon
        exact ⟨Nat.le_succ_of_le hle, fun _ _ => hle⟩
      · rw [if_neg hon]
        exact ⟨hboard.piecesWith_put_le, fun hnot => absurd hnot hon⟩
  | deployed hcode hland =>
      exact ⟨hboard.piecesWith_put_le, fun _ hnot => absurd ⟨hcode, hland⟩ hnot⟩
  | swapped hcode _ hon =>
      have hle := (hboard.piecesWith_exchanged hon hcode).le
      exact ⟨Nat.le_succ_of_le hle, fun _ _ => hle⟩
  | stayed hcode =>
      have hle := (Board.piecesWith_of_read rfl hcode).le
      exact ⟨Nat.le_succ_of_le hle, fun _ _ => hle⟩

theorem sign_ne_opponent {code : Int} (hpiece : c.piece.sign = pos.mover.sign)
    (hcode : code.sign = c.piece.sign ∨ code = 0) : code.sign ≠ pos.mover.opponent.sign := by
  have hsign := pos.mover.sign_cases
  rw [Side.sign_opponent]
  rcases hcode with hown | rfl
  · omega
  · rw [Int.sign_zero]
    omega

theorem Landing.piecesOf_le (h : c.Landing pos (board.read pos.size c.target) landing)
    (hboard : c.Poised pos board) :
    (board.writeAll pos.size landing).piecesOf pos.mover.opponent ≤
      board.piecesOf pos.mover.opponent := by
  rcases h.codes with hcodes | ⟨hon, -, rfl⟩
  · refine Board.countP_writeAll_le hboard.size (onBoard_of_mem_landing hboard.target h) ?_
    intro w hw
    refine decide_eq_false (sign_ne_opponent hboard.piece ?_)
    exact (hcodes w hw).imp_left fun hcode => congrArg Int.sign hcode
  · exact (hboard.piecesOf_exchanged hon).le

/-! ## Jumping -/

theorem sign_ne_opponent_of_mem_jumpWrites (hpiece : c.piece.sign = pos.mover.sign) {w : Write}
    (hw : w ∈ c.jumpWrites pos) : w.code.sign ≠ pos.mover.opponent.sign := by
  obtain ⟨-, hempty | ⟨hturned, hother⟩⟩ := jumpedCode?_cases (of_mem_jumpWrites hw).2.2
  · exact sign_ne_opponent hpiece (.inr hempty)
  · rw [hturned, Int.sign_neg, Side.sign_opponent, ne_eq, Int.neg_inj, ← hpiece]
    exact hother

section

variable (hsize : pos.board.size = pos.size * pos.size)
include hsize

theorem read_jumped_of_not_inside {s : Square} (hs : pos.onBoard s = true)
    (h : ¬ Square.Inside c.origin c.target s) :
    (pos.board.writeAll pos.size (c.jumpWrites pos)).read pos.size s = pos.read s := by
  refine Board.read_writeAll_of_forall_ne hsize onBoard_of_mem_jumpWrites hs ?_
  rintro w hw rfl
  exact h (Square.mem_between_iff.mp (of_mem_jumpWrites hw).1)

theorem pieces_jumped_le :
    (pos.board.writeAll pos.size (c.jumpWrites pos)).pieces ≤ pos.board.pieces := by
  refine Board.countP_le_of_read hsize (Board.size_writeAll.trans hsize) fun s hs hpiece => ?_
  rw [decide_eq_true_eq] at hpiece ⊢
  rcases Board.read_writeAll_cases hsize (onBoard_of_mem_jumpWrites (c := c)) hs with
    hkept | ⟨w, hw, rfl, -⟩
  · exact fun hempty => hpiece (hkept.trans hempty)
  · exact (jumpedCode?_cases (of_mem_jumpWrites hw).2.2).1

theorem piecesOf_jumped_le (hpiece : c.piece.sign = pos.mover.sign) :
    (pos.board.writeAll pos.size (c.jumpWrites pos)).piecesOf pos.mover.opponent ≤
      pos.board.piecesOf pos.mover.opponent :=
  Board.countP_writeAll_le hsize onBoard_of_mem_jumpWrites fun _ hw =>
    decide_eq_false (sign_ne_opponent_of_mem_jumpWrites hpiece hw)

end

/-! ## The exchange -/

/-- The writes of the exchange at the end of a move: a piece of the side that moves on the
target, or none. -/
def Exchange (c : Candidate) (side : Side) (exchange : List Write) : Prop :=
  exchange = [] ∨ ∃ code : Int, code.sign = side.sign ∧ exchange = [⟨c.target, code⟩]

theorem exchange_of_exchangeWrites {rules : RuleSet} {side : Side} {exchange : List Write}
    (hpieces : rules.pieces.length ≤ maxPieceTypes)
    (h : c.exchangeWrites rules side = .ok exchange) : c.Exchange side exchange := by
  unfold exchangeWrites at h
  split at h
  · cases h
    exact .inl rfl
  · obtain ⟨code, hcode, h⟩ := bind_eq_ok.mp h
    cases h
    obtain ⟨i, hi, hindex⟩ := RuleSet.exists_index_of_codeOf hcode
    rw [RuleSet.pieceCode_eq (Nat.lt_of_lt_of_le hi hpieces)] at hindex
    have hpos : code.sign = 1 := Int.sign_eq_one_of_pos (by omega)
    refine .inr ⟨_, ?_, rfl⟩
    rw [Int.sign_mul, hpos, Int.one_mul, Side.sign_sign]

theorem Exchange.square {side : Side} {exchange : List Write} (h : c.Exchange side exchange) :
    ∀ w ∈ exchange, w.square = c.target := by
  rcases h with rfl | ⟨code, -, rfl⟩
  · exact fun _ hw => nomatch hw
  · exact fun _ hw => congrArg Write.square (List.mem_singleton.mp hw)

theorem Exchange.pieces_le {exchange : List Write} (h : c.Exchange pos.mover exchange)
    (hsize : board.size = pos.size * pos.size) (htarget : pos.onBoard c.target = true) :
    (board.writeAll pos.size exchange).pieces ≤ board.piecesWith pos.size c.target := by
  rcases h with rfl | ⟨code, hcode, rfl⟩
  · exact Board.pieces_le_piecesWith
  · have hne : code ≠ 0 := by
      rintro rfl
      have hsign := pos.mover.sign_cases
      rw [Int.sign_zero] at hcode
      omega
    exact (Board.pieces_write_of_ne_zero hsize htarget hne).le

/-! ## All writes of a move -/

/-- A move taken apart: a piece lands once the squares on its way have been jumped over, and may
be exchanged in the end. -/
structure Staged (c : Candidate) (pos : Position) (landing exchange : List Write) : Prop where
  size : pos.board.size = pos.size * pos.size
  target : pos.onBoard c.target = true
  piece : c.piece.sign = pos.mover.sign
  origin : pos.onBoard c.origin = true → pos.read c.origin = c.piece
  landing : c.Landing pos (pos.read c.target) landing
  exchange : c.Exchange pos.mover exchange

namespace Staged

variable {exchange : List Write} (h : c.Staged pos landing exchange)
include h

theorem poised : c.Poised pos (pos.board.writeAll pos.size (c.jumpWrites pos)) where
  size := Board.size_writeAll.trans h.size
  target := h.target
  piece := h.piece
  origin hon :=
    (read_jumped_of_not_inside h.size hon (Square.not_inside_origin _ _)).trans (h.origin hon)

theorem landing_jumped : c.Landing pos
    ((pos.board.writeAll pos.size (c.jumpWrites pos)).read pos.size c.target) landing := by
  rw [read_jumped_of_not_inside h.size h.target (Square.not_inside_target _ _)]
  exact h.landing

theorem square_of_mem {w : Write} (hw : w ∈ c.jumpWrites pos ++ landing ++ exchange) :
    Square.Inside c.origin c.target w.square ∨ w.square = c.origin ∨ w.square = c.target := by
  rw [List.mem_append, List.mem_append] at hw
  rcases hw with (hw | hw) | hw
  · exact .inl (Square.mem_between_iff.mp (of_mem_jumpWrites hw).1)
  · rcases h.landing.square hw with htarget | ⟨horigin, -⟩
    · exact .inr (.inr htarget)
    · exact .inr (.inl horigin)
  · exact .inr (.inr (h.exchange.square w hw))

theorem onBoard_of_mem : ∀ w ∈ c.jumpWrites pos ++ landing ++ exchange,
    pos.onBoard w.square = true :=
  onBoard_of_mem_parts h.target h.landing h.exchange.square

/-- The opponent's code is written only for a piece that has changed places with the piece
that lands. -/
theorem opponent_of_mem {w : Write} (hw : w ∈ c.jumpWrites pos ++ landing ++ exchange)
    (hcode : w.code.sign = pos.mover.opponent.sign) :
    w.square = c.origin ∧ w.code = pos.read c.target ∧
      c.rule.land.get (Occupant.classify (pos.read c.target) c.piece) = .swap := by
  rcases List.mem_append.mp hw with hw | hw
  · rcases List.mem_append.mp hw with hw | hw
    · exact absurd hcode (sign_ne_opponent_of_mem_jumpWrites h.piece hw)
    · rcases h.landing.codes with hcodes | ⟨-, hswap, rfl⟩
      · have hown := (hcodes w hw).imp_left (congrArg Int.sign)
        exact absurd hcode (sign_ne_opponent h.piece hown)
      · rcases List.mem_cons.mp hw with rfl | hw
        · exact ⟨rfl, rfl, hswap⟩
        · rw [List.mem_singleton.mp hw] at hcode
          exact absurd hcode (sign_ne_opponent h.piece (.inl rfl))
  · rcases h.exchange with rfl | ⟨code, hsign, rfl⟩
    · cases hw
    · rw [List.mem_singleton.mp hw] at hcode
      exact absurd hcode (sign_ne_opponent h.piece (.inl (hsign.trans h.piece.symm)))

theorem piecesOf_le :
    (pos.board.writeAll pos.size (c.jumpWrites pos ++ landing ++ exchange)).piecesOf
      pos.mover.opponent ≤ pos.board.piecesOf pos.mover.opponent := by
  have hjumped := piecesOf_jumped_le (c := c) h.size h.piece
  have hlanded := h.landing_jumped.piecesOf_le h.poised
  rw [Board.writeAll_append, Board.writeAll_append]
  rcases h.exchange with rfl | ⟨code, hsign, rfl⟩
  · exact hlanded.trans hjumped
  · have hexchanged : (((pos.board.writeAll pos.size (c.jumpWrites pos)).writeAll pos.size
        landing).write pos.size c.target code).piecesOf pos.mover.opponent + _ = _ :=
      Board.piecesOf_write (Board.size_writeAll.trans h.poised.size) h.target
    rw [if_neg (sign_ne_opponent h.piece (.inl (hsign.trans h.piece.symm)))] at hexchanged
    exact (Nat.le_of_add_right_le hexchanged.le).trans (hlanded.trans hjumped)

theorem pieces_le :
    let after := pos.board.writeAll pos.size (c.jumpWrites pos ++ landing ++ exchange)
    after.pieces ≤ pos.board.pieces + 1 ∧
      (pos.onBoard c.origin = true →
        ¬ (pos.read c.target = 0 ∧ c.rule.land.empty = .deploy) →
        after.pieces ≤ pos.board.pieces) := by
  have hjumped := pieces_jumped_le (c := c) h.size
  have hexchanged : (((pos.board.writeAll pos.size (c.jumpWrites pos)).writeAll pos.size
      landing).writeAll pos.size exchange).pieces ≤ _ :=
    h.exchange.pieces_le (Board.size_writeAll.trans h.poised.size) h.target
  obtain ⟨hmore, hsame⟩ := h.landing_jumped.piecesWith_le h.poised
  rw [read_jumped_of_not_inside h.size h.target (Square.not_inside_target _ _)] at hsame
  rw [Board.writeAll_append, Board.writeAll_append]
  refine ⟨by omega, fun hon hplain => ?_⟩
  have hlanded := hsame hon hplain
  omega

end Staged

end Candidate

/-! ## Whole moves -/

/-- What becomes of a position by a move. -/
structure Choice.Accounted (c : Choice) (pos next : Position) : Prop where
  last : next.last = ⟨c.mover.piece, c.mover.origin, c.target⟩
  size : next.size = pos.size
  cells : next.board.size = pos.board.size
  /-- Only the ends of the move and the squares between them change. -/
  frame : ∀ s, s ≠ c.mover.origin → s ≠ c.target →
    ¬ Square.Inside c.mover.origin c.target s → next.cell s = pos.cell s
  /-- A cell that becomes an opponent's is that of the piece that has changed places with the
  one on the target. -/
  opponent : ∀ s, next.cell s ≠ pos.cell s →
    (next.cell s).sign = pos.mover.opponent.sign →
    s = c.mover.origin ∧ next.cell s = pos.cell c.target ∧
      c.rule.land.get (Occupant.classify (pos.cell c.target) c.mover.piece) = .swap
  piecesOf_opponent : next.board.piecesOf pos.mover.opponent ≤
    pos.board.piecesOf pos.mover.opponent
  pieces : next.board.pieces ≤ pos.board.pieces + 1
  /-- There is a piece more only if it comes from outside or is deployed on an empty square. -/
  pieces_of_onBoard : pos.onBoard c.mover.origin = true →
    ¬ (pos.cell c.target = 0 ∧ c.rule.land.empty = .deploy) →
    next.board.pieces ≤ pos.board.pieces
  depth : next.depth = min (pos.depth + 1) maxDepth
  history : next.history = pos.history.set (Position.slot next.depth) next.board.hash
  mover : next.mover = if c.rule.continues then pos.mover else pos.mover.opponent

namespace RuleSet

variable {rules : RuleSet} {pos next : Position} {c : Choice}

theorem IsMover.piece {m : Mover} (h : rules.IsMover pos m) (hsize : pos.size = rules.boardSize) :
    m.piece.sign = pos.mover.sign ∧
      (pos.onBoard m.origin = true → pos.read m.origin = m.piece) := by
  unfold IsMover at h
  cases hsource : rules.moveSource with
  | piecesOnBoard =>
      rw [hsource] at h
      obtain ⟨hon, hcell, hsign⟩ := h
      rw [Position.cell, if_pos hon] at hcell
      exact ⟨hsign, fun _ => hcell⟩
  | ends =>
      rw [hsource] at h
      obtain ⟨⟨i, -, hpiece⟩, -, hy⟩ := h
      have hpos : ((i : Int) + 1).sign = 1 := Int.sign_eq_one_of_pos (by omega)
      refine ⟨?_, fun hon => ?_⟩
      · rw [hpiece, Int.sign_mul, hpos, Int.one_mul, Side.sign_sign]
      · rw [Position.onBoard, hsize, Square.onBoard_iff] at hon
        omega

theorem accounted_of_apply (hopen : c.Open rules pos)
    (hpieces : rules.pieces.length ≤ maxPieceTypes) (hsize : pos.size = rules.boardSize)
    (hcells : pos.board.size = pos.size * pos.size)
    (h : c.candidate.apply rules pos = .ok next) : c.Accounted pos next := by
  obtain ⟨hpiece, horigin⟩ := hopen.mover.piece hsize
  obtain ⟨name, landing, exchange, hland, hexchange, rfl⟩ := Candidate.exists_of_apply h
  rw [← hsize]
  have hstaged : c.candidate.Staged pos landing exchange :=
    ⟨hcells, hopen.onBoard, hpiece, horigin, Candidate.landing_of_landWrites hland,
      Candidate.exchange_of_exchangeWrites hpieces hexchange⟩
  obtain ⟨hmore, hsame⟩ := hstaged.pieces_le
  have hcell : pos.cell c.target = pos.read c.target := if_pos hopen.onBoard
  refine ⟨rfl, rfl, Board.size_writeAll, fun s horigin htarget hway => ?_,
    fun s hchanged hsign => ?_, hstaged.piecesOf_le, hmore, hcell ▸ hsame, rfl, rfl, rfl⟩
  · by_cases hs : pos.onBoard s = true
    · refine (if_pos hs).trans (Eq.trans ?_ (if_pos hs).symm)
      refine Board.read_writeAll_of_forall_ne hcells hstaged.onBoard_of_mem hs ?_
      rintro w hw rfl
      rcases hstaged.square_of_mem hw with hinside | heq | heq
      · exact hway hinside
      · exact horigin heq
      · exact htarget heq
    · exact (if_neg hs).trans (if_neg hs).symm
  · by_cases hs : pos.onBoard s = true
    · have hbefore : pos.cell s = pos.read s := if_pos hs
      have hafter {board : Board} {mover : Side} {last : LastMove} :
          (pos.successor board mover last).cell s = board.read pos.size s := if_pos hs
      rw [hafter, hbefore] at hchanged
      rw [hafter] at hsign ⊢
      rcases Board.read_writeAll_cases hcells hstaged.onBoard_of_mem hs with
        hkept | ⟨w, hw, rfl, hread⟩
      · exact absurd hkept hchanged
      · rw [hread] at hsign ⊢
        rw [hcell]
        exact hstaged.opponent_of_mem hw hsign
    · -- nothing stands off the board
      have hnone {board : Board} {mover : Side} {last : LastMove} :
          (pos.successor board mover last).cell s = 0 := if_neg hs
      exact absurd (hnone.trans (if_neg hs).symm) hchanged

/-- On a board so large that its edge is no coordinate, no piece is found. -/
theorem choices_eq_nil (hboard : 0x80000000 ≤ rules.boardSize)
    (hcount : rules.boardSize < 0x100000000) : rules.choices pos = [] := by
  have hedge : rules.edge ≤ 0 := by
    rw [edge, Square.coordinate_eq_bmod, Int.bmod_def]
    omega
  have hlines : rules.lines = [] := by
    rw [lines, Int.toNat_of_nonpos hedge, List.range_zero]
  have hmovers : rules.movers pos = [] := by
    unfold movers
    cases rules.moveSource <;> simp only [boardMovers, virtualMovers, hlines, List.flatMap_nil]
  rw [choices, hmovers, List.flatMap_nil]

/-- Every successor is accounted for by an open choice. -/
theorem successors_accounted (hpieces : rules.pieces.length ≤ maxPieceTypes)
    (hsize : pos.size = rules.boardSize) (hcells : pos.board.size = pos.size * pos.size)
    (hcount : (pos.board.size : Int) < Square.cellBound) {positions : List Position}
    (h : rules.successors pos = .ok positions) (hnext : next ∈ positions) :
    ∃ c : Choice, c.Open rules pos ∧ c.Accounted pos next := by
  obtain ⟨c, hc, happly⟩ := exists_choice_of_mem_successors h hnext
  by_cases hboard : rules.boardSize < 0x80000000
  · have hopen := (mem_choices hboard hpieces hsize).mp hc
    exact ⟨c, hopen, accounted_of_apply hopen hpieces hsize hcells happly⟩
  · have hedge : rules.boardSize < 0x100000000 := by
      rw [hcells, hsize] at hcount
      exact Nat.mul_self_lt_mul_self_iff.mp (Int.ofNat_lt.mp hcount)
    rw [choices_eq_nil (Nat.le_of_not_lt hboard) hedge] at hc
    cases hc

/-- Two swaps along a rank, one past a piece that changes sides. -/
theorem successors_accounted_swap :
    let rules : RuleSet :=
      { name := "swaps"
        boardSize := 3
        symmetry := .shared
        moveSource := .piecesOnBoard
        pieces := [
          { name := "A"
            moves := [
              { templates := [⟨.union, .plus, 0⟩]
                land := { opponent := .swap }
                jump := { opponent := .impress } }] }] }
    let pos := Position.ofBoard 3 #[1, -1, -1, 0, 0, 0, 0, 0, 0] .white .absent 0
    let near := pos.successor #[-1, 1, -1, 0, 0, 0, 0, 0, 0] .black ⟨1, ⟨0, 0⟩, ⟨1, 0⟩⟩
    let far := pos.successor #[-1, 1, 1, 0, 0, 0, 0, 0, 0] .black ⟨1, ⟨0, 0⟩, ⟨2, 0⟩⟩
    rules.pieces.length ≤ maxPieceTypes ∧ pos.size = rules.boardSize ∧
      pos.board.size = pos.size * pos.size ∧ (pos.board.size : Int) < Square.cellBound ∧
      rules.successors pos = .ok [near, far] ∧
      ∃ c : Choice, c.Open rules pos ∧ c.Accounted pos far := by
  intro rules pos near far
  have hpieces : rules.pieces.length ≤ maxPieceTypes := by decide
  have hcount : (pos.board.size : Int) < Square.cellBound := by decide
  have hsuccessors : rules.successors pos = .ok [near, far] := by decide +kernel
  have hfar : far ∈ [near, far] := List.mem_cons_of_mem near List.mem_cons_self
  exact ⟨hpieces, rfl, rfl, hcount, hsuccessors,
    successors_accounted hpieces rfl rfl hcount hsuccessors hfar⟩

end RuleSet

end BoardGame
