import BoardGame.Proofs.Encoding.Frame
import BoardGame.Proofs.Moves.Generation
/-!
# Moves in a frame

A frame that keeps the sides, or any frame of rules under which black looks the other way,
turns the moves of a position into the moves of the position that it shows: templates,
policies and writes are turned piece by piece. Only the order of the moves is another one.
-/

namespace BoardGame

/-! ## What a frame shows -/

namespace Frame

/-- The first position is seen in the frame as the second. -/
structure Shows (f : Frame) (p q : Position) : Prop where
  size : q.size = p.size
  board : q.board = f.board p.size p.board
  mover : q.mover = f.side p.mover

/-- A move as it is seen in a frame. -/
def move (f : Frame) (n : Nat) (m : LastMove) : LastMove :=
  ⟨f.code m.piece, f.flip n m.origin, f.flip n m.target⟩

/-- A position after a move, seen in a frame in which the one before the move is `q`. -/
def next (f : Frame) (q next : Position) : Position :=
  q.successor (f.board q.size next.board) (f.side next.mover) (f.move q.size next.last)

def mover (f : Frame) (n : Nat) (m : Mover) : Mover :=
  ⟨f.code m.piece, f.flip n m.origin⟩

def candidate (f : Frame) (n : Nat) (c : Candidate) : Candidate :=
  ⟨f.code c.piece, f.flip n c.origin, f.flip n c.target, c.rule⟩

def choice (f : Frame) (n : Nat) (c : Choice) : Choice :=
  ⟨f.mover n c.mover, c.index, c.rule, f.flip n c.target⟩

variable {f : Frame} {n : Nat}

theorem mover_mover (m : Mover) : f.mover n (f.mover n m) = m := by
  simp [mover, code_code, flip_flip]

theorem choice_choice (c : Choice) : f.choice n (f.choice n c) = c := by
  simp [choice, mover_mover, flip_flip]

end Frame

namespace RuleSet

/-- Exchanging the sides needs rules under which black looks the other way. -/
def Admits (rules : RuleSet) (f : Frame) : Prop :=
  f.reverseSides = true → rules.symmetry.flipsBlack = true

variable {rules : RuleSet} {f : Frame} {side : Side} {origin s : Square} {p q : Position}

/-! ## Templates -/

section Templates

variable (hf : rules.Admits f)

include hf

theorem forwardSign_side : rules.forwardSign (f.side side) = f.code (rules.forwardSign side) := by
  unfold forwardSign Frame.side Frame.code
  cases hreverse : f.reverseSides with
  | false => rfl
  | true =>
      rw [hf hreverse]
      cases side <;> rfl

theorem rankRow_side (extent : Int) :
    rules.rankRow (f.side side) extent =
      if f.reverseSides then rules.edge - 1 - rules.rankRow side extent
      else rules.rankRow side extent := by
  have hsign : rules.forwardSign side = 1 ∨ rules.forwardSign side = -1 := by
    unfold forwardSign
    split
    · exact Or.inr rfl
    · exact Or.inl rfl
  unfold rankRow
  rw [forwardSign_side hf, Frame.code]
  rcases hsign with hsign | hsign <;> rw [hsign] <;> cases f.reverseSides <;>
    simp only [if_true, if_false, Bool.false_eq_true] <;> omega

theorem covers_flip (hn : rules.boardSize < 0x80000000) (t : Template) :
    rules.covers (f.side side) (f.flip rules.boardSize origin) t (f.flip rules.boardSize s) =
      rules.covers side origin t s := by
  have hx := Frame.sub_flip_x (f := f) (s := origin) (t := s) hn
  have hy := Frame.sub_flip_y (f := f) (s := origin) (t := s) hn
  have hwithin (extent : Int) : Pattern.within extent
      (f.flip rules.boardSize s - f.flip rules.boardSize origin) =
        Pattern.within extent (s - origin) := by
    rw [Bool.eq_iff_iff, Pattern.within_iff, Pattern.within_iff, hx, hy]
    simp only [Frame.natAbs_turn, ne_eq, Frame.turn_eq_zero]
  have hahead : (f.flip rules.boardSize s - f.flip rules.boardSize origin).y *
      f.code (rules.forwardSign side) = (s - origin).y * rules.forwardSign side := by
    rw [hy, Frame.code]
    split
    · exact Int.neg_mul_neg _ _
    · rfl
  have hedge : rules.edge = rules.boardSize := Square.coordinate_of_lt hn
  unfold covers
  dsimp only
  rw [forwardSign_side hf, rankRow_side hf, hwithin]
  cases t.pattern with
  | square => rfl
  | plus =>
      dsimp only
      rw [Bool.eq_iff_iff]
      simp only [Bool.and_eq_true, Bool.or_eq_true, beq_iff_eq, hx, hy, Frame.turn_eq_zero]
  | cross =>
      dsimp only
      rw [hx, hy, Frame.natAbs_turn, Frame.natAbs_turn]
  | forward =>
      dsimp only
      rw [hahead]
  | backward =>
      dsimp only
      rw [Int.mul_neg, hahead, Int.mul_neg]
  | pass =>
      dsimp only
      rw [Bool.eq_iff_iff, beq_iff_eq, beq_iff_eq, (f.flip_injective _).eq_iff]
  | rank =>
      dsimp only
      rw [Bool.eq_iff_iff]
      simp only [Bool.and_eq_true, beq_iff_eq, decide_eq_true_iff, Frame.flip_x hn,
        Frame.flip_y hn, hedge]
      split <;> split <;> omega

theorem mem_targetSquares_flip (hn : rules.boardSize < 0x80000000) {rule : MoveRule} :
    f.flip rules.boardSize s ∈
        rules.targetSquares (f.side side) (f.flip rules.boardSize origin) rule ↔
      s ∈ rules.targetSquares side origin rule := by
  simp only [mem_targetSquares, covers_flip hf hn]

end Templates

theorem pieceType?_code (code : Int) : rules.pieceType? (f.code code) = rules.pieceType? code := by
  unfold pieceType?
  simp only [Frame.code_eq_zero, Frame.natAbs_code]

end RuleSet

/-! ## Candidates -/

/-- Rules, a frame and two positions of which the frame shows one as the other. -/
structure RuleSet.Mirrors (rules : RuleSet) (f : Frame) (p q : Position) : Prop where
  boardSize_lt : rules.boardSize < 0x80000000
  pieces_le : rules.pieces.length ≤ maxPieceTypes
  admits : rules.Admits f
  size : p.size = rules.boardSize
  cells : p.board.size = rules.boardSize * rules.boardSize
  shows : f.Shows p q

namespace RuleSet.Mirrors

variable {rules : RuleSet} {f : Frame} {p q : Position} {s : Square} {c : Candidate}

theorem size' (h : rules.Mirrors f p q) : q.size = rules.boardSize :=
  h.shows.size.trans h.size

theorem board_eq (h : rules.Mirrors f p q) : q.board = f.board rules.boardSize p.board :=
  h.size ▸ h.shows.board

theorem symm (h : rules.Mirrors f p q) : rules.Mirrors f q p where
  boardSize_lt := h.boardSize_lt
  pieces_le := h.pieces_le
  admits := h.admits
  size := h.size'
  cells := by rw [h.board_eq, Frame.size_board, h.cells]
  shows := {
    size := h.shows.size.symm
    board := by rw [h.size', h.board_eq, Frame.board_board h.boardSize_lt h.cells]
    mover := by rw [h.shows.mover, Frame.side_side] }

theorem onBoard_flip (h : rules.Mirrors f p q) :
    q.onBoard (f.flip rules.boardSize s) = p.onBoard s := by
  rw [Position.onBoard, Position.onBoard, h.size', h.size, Frame.onBoard_flip h.boardSize_lt]

theorem read_flip (h : rules.Mirrors f p q) (hs : p.onBoard s = true) :
    q.read (f.flip rules.boardSize s) = f.code (p.read s) := by
  have hon : (f.flip rules.boardSize s).onBoard rules.boardSize = true := by
    rw [Frame.onBoard_flip h.boardSize_lt, ← h.size]
    exact hs
  rw [Position.read, Position.read, h.size', h.size, h.board_eq,
    Frame.read_board h.boardSize_lt h.cells hon, Frame.flip_flip]

theorem cell_flip (h : rules.Mirrors f p q) :
    q.cell (f.flip rules.boardSize s) = f.code (p.cell s) := by
  unfold Position.cell
  rw [h.onBoard_flip]
  split
  next hs => exact h.read_flip hs
  next => exact Frame.code_zero.symm

theorem admissible (h : rules.Mirrors f p q) :
    (f.candidate rules.boardSize c).admissible q = c.admissible p := by
  have hjump : (f.candidate rules.boardSize c).mayJump q = c.mayJump p := by
    unfold Candidate.mayJump Frame.candidate
    dsimp only
    rw [Frame.between_flip h.boardSize_lt, List.all_map]
    congr 1
    funext s
    rw [Function.comp_apply, h.cell_flip, Frame.classify_code]
  have hon : q.onBoard (f.candidate rules.boardSize c).target = p.onBoard c.target :=
    h.onBoard_flip
  unfold Candidate.admissible
  rw [hon, hjump]
  cases htarget : p.onBoard c.target with
  | false => rfl
  | true =>
      have hland : (f.candidate rules.boardSize c).mayLand q = c.mayLand p := by
        unfold Candidate.mayLand Frame.candidate
        dsimp only
        rw [h.read_flip htarget, Frame.classify_code]
      rw [hland]

theorem isMover (h : rules.Mirrors f p q) {m : Mover} :
    rules.IsMover q (f.mover rules.boardSize m) ↔ rules.IsMover p m := by
  unfold RuleSet.IsMover
  cases rules.moveSource with
  | piecesOnBoard =>
      dsimp only [Frame.mover]
      rw [h.onBoard_flip, h.cell_flip, Frame.code_inj, h.shows.mover, Frame.sign_code,
        Frame.sign_side, Frame.code_inj]
  | ends =>
      dsimp only [Frame.mover]
      simp only [h.shows.mover, ← Frame.code_mul_sign, Frame.code_inj,
        Frame.flip_x h.boardSize_lt, Frame.flip_y h.boardSize_lt]
      refine and_congr_right fun _ => ?_
      split <;> split <;> omega

theorem mem_movers (h : rules.Mirrors f p q) {m : Mover} :
    f.mover rules.boardSize m ∈ rules.movers q ↔ m ∈ rules.movers p := by
  rw [isMover_of_mem h.boardSize_lt h.pieces_le h.size', h.isMover,
    isMover_of_mem h.boardSize_lt h.pieces_le h.size]

theorem mem_choices (h : rules.Mirrors f p q) {c : Choice} :
    f.choice rules.boardSize c ∈ rules.choices q ↔ c ∈ rules.choices p := by
  have hadmissible : (f.choice rules.boardSize c).candidate.admissible q =
      c.candidate.admissible p := h.admissible (c := c.candidate)
  have htype : rules.pieceType? (f.choice rules.boardSize c).mover.piece =
      rules.pieceType? c.mover.piece := pieceType?_code c.mover.piece
  have htarget : (f.choice rules.boardSize c).target ∈ rules.targetSquares q.mover
      (f.choice rules.boardSize c).mover.origin c.rule ↔
        c.target ∈ rules.targetSquares p.mover c.mover.origin c.rule := by
    rw [h.shows.mover]
    exact mem_targetSquares_flip h.admits h.boardSize_lt
  simp only [choices, List.mem_flatMap, mem_choicesAt]
  constructor
  · rintro ⟨m, hm, rfl, hrule, hmem, hadm⟩
    rw [htype] at hrule
    exact ⟨c.mover, h.mem_movers.mp hm, rfl, hrule, htarget.mp hmem, hadmissible.symm.trans hadm⟩
  · rintro ⟨m, hm, rfl, hrule, hmem, hadm⟩
    rw [← htype] at hrule
    exact ⟨_, h.mem_movers.mpr hm, rfl, hrule, htarget.mpr hmem, hadmissible.trans hadm⟩

theorem choices_perm (h : rules.Mirrors f p q) :
    (rules.choices q).Perm ((rules.choices p).map (f.choice rules.boardSize)) := by
  have hinjective : Function.Injective (f.choice rules.boardSize) :=
    Function.LeftInverse.injective Frame.choice_choice
  refine (List.perm_ext_iff_of_nodup (nodup_choices h.boardSize_lt q)
    ((nodup_choices h.boardSize_lt p).map hinjective)).mpr fun c => ?_
  rw [List.mem_map]
  constructor
  · intro hc
    rw [← Frame.choice_choice (f := f) (n := rules.boardSize) c, h.mem_choices] at hc
    exact ⟨_, hc, Frame.choice_choice c⟩
  · rintro ⟨d, hd, rfl⟩
    exact h.mem_choices.mpr hd

/-! ## Writes -/

theorem jumpedCode?_code {n : Nat} (code : Int) :
    (f.candidate n c).jumpedCode? (f.code code) = (c.jumpedCode? code).map f.code := by
  unfold Candidate.jumpedCode? Frame.candidate
  dsimp only
  rw [Frame.classify_code]
  cases Occupant.classify code c.piece with
  | empty => rfl
  | own =>
      dsimp only
      split <;> simp
  | opponent =>
      cases c.rule.jump.opponent <;> simp [Frame.code_neg]

theorem jumpWrites (h : rules.Mirrors f p q) :
    (f.candidate rules.boardSize c).jumpWrites q =
      (c.jumpWrites p).map (f.write rules.boardSize) := by
  have hbetween : Square.between (f.candidate rules.boardSize c).origin
      (f.candidate rules.boardSize c).target =
        (Square.between c.origin c.target).map (f.flip rules.boardSize) :=
    Frame.between_flip h.boardSize_lt
  unfold Candidate.jumpWrites
  rw [hbetween, List.filterMap_map, List.map_filterMap]
  congr 1
  funext s
  rw [Function.comp_apply, h.onBoard_flip]
  split
  next hs =>
    rw [h.read_flip hs, jumpedCode?_code]
    cases c.jumpedCode? (p.read s) <;> rfl
  next => rfl

theorem departure (h : rules.Mirrors f p q) :
    (f.candidate rules.boardSize c).departure q =
      (c.departure p).map (f.write rules.boardSize) := by
  have hon : q.onBoard (f.candidate rules.boardSize c).origin = p.onBoard c.origin :=
    h.onBoard_flip
  unfold Candidate.departure
  rw [hon]
  split
  · simp [Frame.write, Frame.candidate]
  · rfl

theorem landWrites (h : rules.Mirrors f p q) (name : String) (code : Int) :
    (f.candidate rules.boardSize c).landWrites q name (f.code code) =
      (c.landWrites p name code).map (List.map (f.write rules.boardSize)) := by
  have hclass : Occupant.classify (f.code code) (f.candidate rules.boardSize c).piece =
      Occupant.classify code c.piece := Frame.classify_code
  have hon : q.onBoard (f.candidate rules.boardSize c).origin = p.onBoard c.origin :=
    h.onBoard_flip
  have hrule : (f.candidate rules.boardSize c).rule = c.rule := rfl
  unfold Candidate.landWrites
  dsimp only
  rw [hclass, hrule, h.departure, hon]
  generalize Occupant.classify code c.piece = occupant
  generalize c.rule.land.get occupant = disposition
  cases occupant <;> cases disposition <;>
    first
      | rfl
      | dsimp only
        split <;> rfl

theorem exchangeWrites (h : rules.Mirrors f p q) :
    (f.candidate rules.boardSize c).exchangeWrites rules q.mover =
      (c.exchangeWrites rules p.mover).map (List.map (f.write rules.boardSize)) := by
  unfold Candidate.exchangeWrites Frame.candidate
  dsimp only
  cases c.rule.exchange with
  | none => rfl
  | some name =>
      dsimp only
      cases rules.codeOf name with
      | error e => rfl
      | ok code =>
          show Except.ok [_] = Except.ok [_]
          rw [h.shows.mover, ← Frame.code_mul_sign]
          rfl

theorem writes (h : rules.Mirrors f p q) (htarget : p.onBoard c.target = true)
    {writes : List Write} (hwrites : c.writes rules p = .ok writes) :
    (f.candidate rules.boardSize c).writes rules q =
      .ok (writes.map (f.write rules.boardSize)) := by
  obtain ⟨type, htype, hwrites⟩ := bind_eq_ok.mp hwrites
  obtain ⟨landing, hlanding, hwrites⟩ := bind_eq_ok.mp hwrites
  obtain ⟨exchange, hexchange, hwrites⟩ := bind_eq_ok.mp hwrites
  cases hwrites
  have htype' : rules.pieceType (f.candidate rules.boardSize c).piece = .ok type := by
    rw [← htype]
    unfold pieceType Frame.candidate
    dsimp only
    rw [pieceType?_code]
    cases htype'' : rules.pieceType? c.piece with
    | some _ => rfl
    | none =>
        unfold pieceType at htype
        rw [htype''] at htype
        cases htype
  have hlanding' : (f.candidate rules.boardSize c).landWrites q type.name
      (q.read (f.candidate rules.boardSize c).target) =
        .ok (landing.map (f.write rules.boardSize)) := by
    have hread : q.read (f.candidate rules.boardSize c).target = f.code (p.read c.target) :=
      h.read_flip htarget
    rw [hread, h.landWrites, hlanding]
    rfl
  have hexchange' : (f.candidate rules.boardSize c).exchangeWrites rules q.mover =
      .ok (exchange.map (f.write rules.boardSize)) := by
    rw [h.exchangeWrites, hexchange]
    rfl
  refine bind_eq_ok.mpr ⟨type, htype', bind_eq_ok.mpr ⟨_, hlanding', bind_eq_ok.mpr
    ⟨_, hexchange', ?_⟩⟩⟩
  rw [h.jumpWrites, List.map_append, List.map_append]
  rfl

theorem apply (h : rules.Mirrors f p q) (htarget : p.onBoard c.target = true) {next : Position}
    (hnext : c.apply rules p = .ok next) :
    (f.candidate rules.boardSize c).apply rules q = .ok (f.next q next) := by
  obtain ⟨writes, hwrites, hnext⟩ := bind_eq_ok.mp hnext
  cases hnext
  have hon : ∀ w ∈ writes, w.square.onBoard rules.boardSize = true :=
    h.size ▸ Candidate.onBoard_of_mem_writes htarget hwrites
  have hboard : q.board.writeAll rules.boardSize (writes.map (f.write rules.boardSize)) =
      f.board q.size (p.board.writeAll rules.boardSize writes) := by
    rw [h.board_eq, h.size', Frame.board_writeAll h.boardSize_lt h.cells hon]
  have hmover : (if c.rule.continues then q.mover else q.mover.opponent) =
      f.side (if c.rule.continues then p.mover else p.mover.opponent) := by
    rw [h.shows.mover]
    split
    · rfl
    · exact Frame.side_opponent.symm
  refine bind_eq_ok.mpr ⟨_, h.writes htarget hwrites, ?_⟩
  show Except.ok (q.successor (q.board.writeAll rules.boardSize _)
    (if c.rule.continues then q.mover else q.mover.opponent) _) = _
  rw [hboard, hmover, Frame.next]
  dsimp only [Position.successor_board, Position.successor_mover, Position.successor_last]
  rw [h.size']
  rfl

end RuleSet.Mirrors

/-! ## Successors -/

namespace RuleSet

variable {rules : RuleSet} {f : Frame} {p q : Position}

namespace Mirrors

/-- What is seen of the successors are successors of what is seen. -/
theorem exists_successors (h : rules.Mirrors f p q) {ps : List Position}
    (hps : rules.successors p = .ok ps) :
    ∃ qs, rules.successors q = .ok qs ∧ qs.Perm (ps.map (f.next q)) := by
  obtain ⟨htypes, entries, hentries, rfl⟩ := successors_eq_ok.mp hps
  have htypes' : ∀ m ∈ rules.movers q, (rules.pieceType? m.piece).isSome = true := by
    intro m hm
    have hm' := h.symm.mem_movers.mpr hm
    have hsome := htypes _ hm'
    rwa [Frame.mover, pieceType?_code] at hsome
  have hturned : ((rules.choices p).map (f.choice rules.boardSize)).mapM (rules.entry q) =
      .ok (entries.map fun e => (e.1, f.next q e.2)) := by
    rw [mapM_eq_ok_iff, List.forall₂_map_left_iff, List.forall₂_map_right_iff]
    have hall := (List.forall₂_and_left _ _).mpr
      ⟨fun c hc => onBoard_of_mem_choices hc, mapM_eq_ok_iff.mp hentries⟩
    refine hall.imp fun c e hce => ?_
    obtain ⟨hpriority, happly⟩ := entry_eq_ok.mp hce.2
    exact entry_eq_ok.mpr ⟨hpriority, h.apply (c := c.candidate) hce.1 happly⟩
  obtain ⟨entries', hentries', hperm⟩ := exists_mapM_of_perm h.choices_perm hturned
  refine ⟨_, successors_eq_ok.mpr ⟨htypes', entries', hentries', rfl⟩, ?_⟩
  exact (ofHighestPriority_perm hperm).trans (.of_eq (ofHighestPriority_map _ _))

end Mirrors

end RuleSet

end BoardGame
