import BoardGame.BuiltIn
import BoardGame.Proofs.Moves.Candidates
import BoardGame.Proofs.Moves.Effect
import BoardGame.Proofs.Othello.Outflanking
/-!
# Moves of the pieces of Othello

A plain piece moves along a ray over opponents to an empty square, and a helper
over opponents to an own piece; or the helper settles where it stands. What such a
move writes is said here for any position on a board of eight lines.
-/

namespace BoardGame.Othello

open Square (ray directions)
open BuiltIn

/-! ## The rules of the two pieces -/

def placing : MoveRule where
  templates := farLines
  land := { empty := .deploy }
  jump := turnOpponents
  exchange := some "P2"
  continues := true
  priority := 1

def turning : MoveRule where
  templates := farLines
  land := { own := .stay }
  jump := turnOpponents
  continues := true
  priority := 3

def settling : MoveRule where
  templates := [⟨.union, .pass, 0⟩]
  land := { own := .stay }
  exchange := some "P1"
  priority := 2

def plain : PieceType where
  name := "P1"
  placements := [⟨3, 3⟩, ⟨4, 4⟩]
  moves := [placing]

def helper : PieceType where
  name := "P2"
  moves := [turning, settling]

theorem pieceType?_plain {code : Int} (h : code.natAbs = 1) :
    othello.pieceType? code = some plain := by
  rw [RuleSet.pieceType?, if_neg (by omega), h]
  rfl

theorem pieceType?_helper {code : Int} (h : code.natAbs = 2) :
    othello.pieceType? code = some helper := by
  rw [RuleSet.pieceType?, if_neg (by omega), h]
  rfl

theorem pieceType?_cases {code : Int} {type : PieceType}
    (h : othello.pieceType? code = some type) :
    (code.natAbs = 1 ∧ type = plain) ∨ (code.natAbs = 2 ∧ type = helper) := by
  unfold RuleSet.pieceType? at h
  split at h
  · cases h
  · next hcode =>
    match habs : code.natAbs with
    | 0 => exact absurd (Int.natAbs_eq_zero.mp habs) hcode
    | 1 =>
        rw [habs] at h
        exact Or.inl ⟨rfl, (Option.some.inj h).symm⟩
    | 2 =>
        rw [habs] at h
        exact Or.inr ⟨rfl, (Option.some.inj h).symm⟩
    | k + 3 =>
        rw [habs] at h
        cases h

/-! ## Targets -/

theorem mem_farLines {rule : MoveRule} {side : Side} {o t : Square}
    (hrule : rule.templates = farLines) :
    t ∈ othello.targetSquares side o rule ↔
      ∃ d ∈ directions, ∃ n, 0 < n ∧ n < 8 ∧ t = ray o d (n + 1) := by
  have hplus : othello.extent ⟨.union, .plus, 0⟩ = 8 := rfl
  have hcross : othello.extent ⟨.union, .cross, 0⟩ = 8 := rfl
  have hsquare : othello.extent ⟨.subtract, .square, 1⟩ = 1 := rfl
  rw [RuleSet.mem_targetSquares, hrule]
  simp only [farLines, List.foldl_cons, List.foldl_nil, SetOp.holds, RuleSet.covers, hplus, hcross,
    hsquare, Bool.false_or, Bool.and_eq_true, Bool.or_eq_true, Bool.not_eq_true', beq_iff_eq,
    Pattern.within_iff, Square.sub_x, Square.sub_y]
  rw [← Bool.not_eq_true, Pattern.within_iff]
  simp only [Square.sub_x, Square.sub_y]
  constructor
  · rintro ⟨hline, hfar⟩
    have hne : o ≠ t := by
      rintro rfl
      omega
    obtain ⟨d, hd, heq⟩ := Square.exists_ray hne (by omega)
    refine ⟨d, hd, max (t.x - o.x).natAbs (t.y - o.y).natAbs - 1, by omega, by omega, ?_⟩
    rwa [Nat.sub_add_cancel (by omega)]
  · rintro ⟨⟨dx, dy⟩, hd, n, hn, hn8, rfl⟩
    obtain ⟨hdx, hdy, hd0⟩ := Square.mem_directions.mp hd
    simp only [ray] at hdx hdy hd0 ⊢
    rcases hdx with rfl | rfl | rfl <;> rcases hdy with rfl | rfl | rfl <;> omega

theorem mem_settling {side : Side} {o t : Square} :
    t ∈ othello.targetSquares side o settling ↔ t = o := by
  rw [RuleSet.mem_targetSquares]
  simp [settling, SetOp.holds, RuleSet.covers]

/-! ## Candidates -/

/-- A ray from `o` passes `n` opponents of the side to move. -/
def Passes (p : Position) (o d : Square) (n : Nat) : Prop :=
  0 < n ∧ ∀ i < n, (p.cell (ray o d (i + 1))).sign = -p.mover.sign

/-- A piece on `o` reaches `t` over opponents. -/
def Leaps (p : Position) (o t : Square) : Prop :=
  ∃ d ∈ directions, ∃ n, Passes p o d n ∧ t = ray o d (n + 1)

theorem classify_eq_opponent_iff {p : Position} {code piece : Int}
    (hpiece : piece.sign = p.mover.sign) :
    Occupant.classify code piece = .opponent ↔ code.sign = -p.mover.sign := by
  rw [Occupant.classify_eq_opponent, hpiece]
  rcases Side.sign_cases p.mover with h | h <;> rw [h] <;>
    rcases Int.lt_trichotomy code 0 with hc | hc | hc <;>
    simp_all [Int.sign_eq_neg_one_of_neg, Int.sign_eq_one_of_pos] <;> omega

theorem classify_eq_own_iff {p : Position} {code piece : Int}
    (hpiece : piece.sign = p.mover.sign) :
    Occupant.classify code piece = .own ↔ code.sign = p.mover.sign := by
  rw [Occupant.classify_eq_own, hpiece]
  constructor
  · exact fun h => h.2
  · intro h
    refine ⟨fun h0 => ?_, h⟩
    rw [h0] at h
    exact sign_ne_zero _ h.symm

theorem mayJump_ray {p : Position} {c : Candidate} {d : Square} {n : Nat}
    (hd : d ∈ directions) (hjump : c.rule.jump = turnOpponents)
    (hpiece : c.piece.sign = p.mover.sign) (htarget : c.target = ray c.origin d (n + 1)) :
    c.mayJump p = true ↔ ∀ i < n, (p.cell (ray c.origin d (i + 1))).sign = -p.mover.sign := by
  have hpass : ∀ occupant, turnOpponents.get occupant ≠ .disallowed ↔ occupant = .opponent := by
    intro occupant
    cases occupant <;> simp [SquarePolicy.get, turnOpponents]
  simp only [Candidate.mayJump, hjump, htarget, List.all_eq_true, bne_iff_ne, hpass,
    classify_eq_opponent_iff hpiece, Square.mem_between_ray hd (Nat.succ_pos n)]
  constructor
  · exact fun h i hi => h _ ⟨i + 1, ⟨Nat.succ_pos i, by omega⟩, rfl⟩
  · rintro h s ⟨i, ⟨hi, hin⟩, rfl⟩
    have := h (i - 1) (by omega)
    rwa [Nat.sub_add_cancel hi] at this

theorem mayJump_self {p : Position} {c : Candidate} (h : c.target = c.origin) :
    c.mayJump p = true := by
  simp [Candidate.mayJump, Square.between, h]

theorem cell_eq_read {p : Position} {s : Square} (h : p.onBoard s = true) :
    p.cell s = p.read s :=
  if_pos h

/-- On the board a line move is one over opponents. -/
theorem leaps_iff {p : Position} {c : Candidate} (hsize : p.size = 8)
    (hjump : c.rule.jump = turnOpponents) (htemplates : c.rule.templates = farLines)
    (horigin : p.onBoard c.origin = true) (hpiece : c.piece.sign = p.mover.sign)
    (htarget : p.onBoard c.target = true) :
    (c.target ∈ othello.targetSquares p.mover c.origin c.rule ∧ c.mayJump p = true) ↔
      Leaps p c.origin c.target := by
  rw [mem_farLines htemplates]
  constructor
  · rintro ⟨⟨d, hd, n, hn, -, heq⟩, hmay⟩
    exact ⟨d, hd, n, ⟨hn, (mayJump_ray hd hjump hpiece heq).mp hmay⟩, heq⟩
  · rintro ⟨d, hd, n, ⟨hn, hopp⟩, heq⟩
    have hlt : n + 1 < 8 := by
      rw [Position.onBoard, hsize] at horigin htarget
      rw [heq] at htarget
      exact Square.lt_of_onBoard_ray hd horigin htarget
    exact ⟨⟨d, hd, n, hn, by omega, heq⟩, (mayJump_ray hd hjump hpiece heq).mpr hopp⟩

theorem mayLand_placing {p : Position} {c : Candidate} (hrule : c.rule = placing)
    (htarget : p.onBoard c.target = true) : c.mayLand p = true ↔ p.cell c.target = 0 := by
  rw [Candidate.mayLand, hrule, cell_eq_read htarget, ← @Occupant.classify_eq_empty _ c.piece]
  cases Occupant.classify (p.read c.target) c.piece <;> simp [SquarePolicy.get, placing]

theorem mayLand_helper {p : Position} {c : Candidate} (hland : c.rule.land = { own := .stay })
    (hpiece : c.piece.sign = p.mover.sign) (htarget : p.onBoard c.target = true) :
    c.mayLand p = true ↔ (p.cell c.target).sign = p.mover.sign := by
  rw [Candidate.mayLand, hland, cell_eq_read htarget, ← classify_eq_own_iff hpiece]
  cases Occupant.classify (p.read c.target) c.piece <;> simp [SquarePolicy.get]

/-- What a piece of the side to move may do by one of the three rules. -/
def Allowed (p : Position) (c : Candidate) : Prop :=
  (c.piece.natAbs = 1 ∧ c.rule = placing ∧ p.cell c.target = 0 ∧ Leaps p c.origin c.target) ∨
    (c.piece.natAbs = 2 ∧ c.rule = turning ∧ (p.cell c.target).sign = p.mover.sign ∧
      Leaps p c.origin c.target) ∨
    (c.piece.natAbs = 2 ∧ c.rule = settling ∧ c.target = c.origin)

theorem allowed_iff {p : Position} {c : Candidate} (hsize : p.size = 8)
    (horigin : p.onBoard c.origin = true) (hread : p.cell c.origin = c.piece)
    (hpiece : c.piece.sign = p.mover.sign) (htarget : p.onBoard c.target = true) :
    (∃ type, othello.pieceType? c.piece = some type ∧ c.rule ∈ type.moves ∧
        c.target ∈ othello.targetSquares p.mover c.origin c.rule ∧ c.mayLand p = true ∧
        c.mayJump p = true) ↔ Allowed p c := by
  have hleaps : c.rule = placing ∨ c.rule = turning →
      ((c.target ∈ othello.targetSquares p.mover c.origin c.rule ∧ c.mayJump p = true) ↔
        Leaps p c.origin c.target) := by
    intro hrule
    apply leaps_iff hsize _ _ horigin hpiece htarget <;> rcases hrule with h | h <;> rw [h] <;> rfl
  constructor
  · rintro ⟨type, htype, hrule, hmem, hland, hjump⟩
    rcases pieceType?_cases htype with ⟨habs, rfl⟩ | ⟨habs, rfl⟩
    · have hrule : c.rule = placing := List.mem_singleton.mp hrule
      exact Or.inl ⟨habs, hrule, (mayLand_placing hrule htarget).mp hland,
        (hleaps (Or.inl hrule)).mp ⟨hmem, hjump⟩⟩
    · rcases List.mem_pair.mp hrule with hrule | hrule
      · have hown := (mayLand_helper (by rw [hrule]; rfl) hpiece htarget).mp hland
        exact Or.inr (Or.inl ⟨habs, hrule, hown, (hleaps (Or.inr hrule)).mp ⟨hmem, hjump⟩⟩)
      · rw [hrule, mem_settling] at hmem
        exact Or.inr (Or.inr ⟨habs, hrule, hmem⟩)
  · rintro (⟨habs, hrule, hempty, h⟩ | ⟨habs, hrule, hown, h⟩ | ⟨habs, hrule, heq⟩)
    · obtain ⟨hmem, hjump⟩ := (hleaps (Or.inl hrule)).mpr h
      exact ⟨plain, pieceType?_plain habs, List.mem_singleton.mpr hrule, hmem,
        (mayLand_placing hrule htarget).mpr hempty, hjump⟩
    · obtain ⟨hmem, hjump⟩ := (hleaps (Or.inr hrule)).mpr h
      exact ⟨helper, pieceType?_helper habs, List.mem_pair.mpr (Or.inl hrule), hmem,
        (mayLand_helper (by rw [hrule]; rfl) hpiece htarget).mpr hown, hjump⟩
    · have hown : (p.cell c.target).sign = p.mover.sign := by rw [heq, hread, hpiece]
      exact ⟨helper, pieceType?_helper habs, List.mem_pair.mpr (Or.inr hrule),
        by rw [hrule, mem_settling]; exact heq,
        (mayLand_helper (by rw [hrule]; rfl) hpiece htarget).mpr hown, mayJump_self heq⟩

/-- The candidates of a position: a plain piece places, a helper turns or settles. -/
theorem mem_allCandidates {p : Position} {c : Candidate} (hsize : p.size = 8) :
    c ∈ othello.allCandidates p ↔
      (p.onBoard c.origin = true ∧ p.cell c.origin = c.piece ∧ c.piece.sign = p.mover.sign) ∧
        p.onBoard c.target = true ∧ Allowed p c := by
  have hmovers : othello.movers p = othello.boardMovers p := rfl
  have hedge : othello.boardSize = p.size := hsize.symm
  have hsmall : othello.boardSize < 0x80000000 := by decide
  rw [RuleSet.allCandidates, List.mem_flatMap, hmovers]
  simp only [RuleSet.mem_candidatesAt, RuleSet.mem_boardMovers hsmall, hedge, Candidate.admissible,
    Bool.and_eq_true]
  constructor
  · rintro ⟨⟨piece, origin⟩, ⟨horigin, hread, hpiece⟩, type, htype, hrule, hmem, rfl, rfl,
      ⟨htarget, hland⟩, hjump⟩
    have hcell := (cell_eq_read horigin).trans hread
    exact ⟨⟨horigin, hcell, hpiece⟩, htarget, (allowed_iff hsize horigin hcell hpiece htarget).mp
      ⟨type, htype, hrule, hmem, hland, hjump⟩⟩
  · rintro ⟨⟨horigin, hcell, hpiece⟩, htarget, hallowed⟩
    obtain ⟨type, htype, hrule, hmem, hland, hjump⟩ :=
      (allowed_iff hsize horigin hcell hpiece htarget).mpr hallowed
    exact ⟨⟨c.piece, c.origin⟩, ⟨horigin, (cell_eq_read horigin).symm.trans hcell, hpiece⟩, type,
      htype, hrule, hmem, rfl, rfl, ⟨htarget, hland⟩, hjump⟩

/-! ## Effects -/

theorem mem_jumpWrites {p : Position} {c : Candidate} {d : Square} {n : Nat} {w : Write}
    (hd : d ∈ directions) (hjump : c.rule.jump = turnOpponents)
    (hpiece : c.piece.sign = p.mover.sign) (hpass : Passes p c.origin d n)
    (htarget : c.target = ray c.origin d (n + 1)) :
    w ∈ c.jumpWrites p ↔
      ∃ i < n, w = ⟨ray c.origin d (i + 1), -p.cell (ray c.origin d (i + 1))⟩ := by
  have hwrite : ∀ i < n,
      (if p.onBoard (ray c.origin d (i + 1)) = true then
        (c.jumpedCode? (p.read (ray c.origin d (i + 1)))).map (Write.mk (ray c.origin d (i + 1)))
      else none) = some ⟨ray c.origin d (i + 1), -p.cell (ray c.origin d (i + 1))⟩ := by
    intro i hi
    have hsign := hpass.2 i hi
    have hon : p.onBoard (ray c.origin d (i + 1)) = true := by
      apply onBoard_of_cell_ne_zero
      intro h0
      rw [h0] at hsign
      have := Side.sign_cases p.mover
      simp only [Int.sign_zero] at hsign
      omega
    have hclass := (classify_eq_opponent_iff hpiece).mpr hsign
    rw [cell_eq_read hon] at hclass ⊢
    rw [if_pos hon, Candidate.jumpedCode?, hclass, hjump]
    rfl
  rw [Candidate.jumpWrites, List.mem_filterMap, htarget]
  simp only [Square.mem_between_ray hd (Nat.succ_pos n)]
  constructor
  · rintro ⟨s, ⟨i, ⟨hi, hin⟩, rfl⟩, hw⟩
    have h := hwrite (i - 1) (by omega)
    rw [Nat.sub_add_cancel hi] at h
    rw [h, Option.some.injEq] at hw
    exact ⟨i - 1, by omega, by rw [Nat.sub_add_cancel hi]; exact hw.symm⟩
  · rintro ⟨i, hi, rfl⟩
    exact ⟨_, ⟨i + 1, ⟨Nat.succ_pos i, by omega⟩, rfl⟩, hwrite i hi⟩

theorem apply_placing {p : Position} {c : Candidate} (hrule : c.rule = placing)
    (habs : c.piece.natAbs = 1) (htarget : p.onBoard c.target = true)
    (hempty : p.cell c.target = 0) :
    c.apply othello p = .ok (p.successor
      (p.board.writeAll 8 (c.jumpWrites p ++ [⟨c.target, c.piece⟩] ++
        [⟨c.target, 2 * p.mover.sign⟩])) p.mover ⟨c.piece, c.origin, c.target⟩) := by
  have htype : othello.pieceType c.piece = .ok plain := by
    rw [RuleSet.pieceType, pieceType?_plain habs]
  have hland : c.landWrites p plain.name (p.read c.target) = .ok [⟨c.target, c.piece⟩] := by
    rw [cell_eq_read htarget] at hempty
    rw [Candidate.landWrites, hempty, hrule]
    rfl
  have hexchange : c.exchangeWrites othello p.mover = .ok [⟨c.target, 2 * p.mover.sign⟩] := by
    rw [Candidate.exchangeWrites, hrule]
    rfl
  rw [Candidate.apply_eq htype hland hexchange, hrule]
  rfl

theorem apply_turning {p : Position} {c : Candidate} (hrule : c.rule = turning)
    (habs : c.piece.natAbs = 2) (htarget : p.onBoard c.target = true)
    (hpiece : c.piece.sign = p.mover.sign) (hown : (p.cell c.target).sign = p.mover.sign) :
    c.apply othello p = .ok (p.successor (p.board.writeAll 8 (c.jumpWrites p)) p.mover
      ⟨c.piece, c.origin, c.target⟩) := by
  have htype : othello.pieceType c.piece = .ok helper := by
    rw [RuleSet.pieceType, pieceType?_helper habs]
  have hland : c.landWrites p helper.name (p.read c.target) = .ok [] := by
    have hclass := (classify_eq_own_iff hpiece).mpr hown
    rw [cell_eq_read htarget] at hclass
    rw [Candidate.landWrites, hclass, hrule]
    rfl
  have hexchange : c.exchangeWrites othello p.mover = .ok [] := by
    rw [Candidate.exchangeWrites, hrule]
    rfl
  rw [Candidate.apply_eq htype hland hexchange, hrule, List.append_nil, List.append_nil]
  rfl

theorem apply_settling {p : Position} {c : Candidate} (hrule : c.rule = settling)
    (habs : c.piece.natAbs = 2) (htarget : p.onBoard c.target = true)
    (hpiece : c.piece.sign = p.mover.sign) (hread : p.cell c.origin = c.piece)
    (heq : c.target = c.origin) :
    c.apply othello p = .ok (p.successor (p.board.writeAll 8 [⟨c.origin, p.mover.sign⟩])
      p.mover.opponent ⟨c.piece, c.origin, c.origin⟩) := by
  have htype : othello.pieceType c.piece = .ok helper := by
    rw [RuleSet.pieceType, pieceType?_helper habs]
  have hland : c.landWrites p helper.name (p.read c.target) = .ok [] := by
    have hclass : Occupant.classify (p.read c.target) c.piece = .own := by
      rw [← cell_eq_read htarget, heq, hread]
      exact (classify_eq_own_iff hpiece).mpr hpiece
    rw [Candidate.landWrites, hclass, hrule]
    rfl
  have hexchange : c.exchangeWrites othello p.mover = .ok [⟨c.origin, p.mover.sign⟩] := by
    have hcode : othello.codeOf "P1" = .ok 1 := rfl
    rw [Candidate.exchangeWrites, hrule, heq]
    simp only [settling, hcode, bind, Except.bind, pure, Except.pure, Int.one_mul]
  have hjump : c.jumpWrites p = [] := by
    simp [Candidate.jumpWrites, Square.between, heq]
  rw [Candidate.apply_eq htype hland hexchange, hjump, hrule, heq]
  rfl

end BoardGame.Othello
