import BoardGame.BuiltIn
import BoardGame.Proofs.Moves.Targets
/-!
# What templates describe

A template describes squares by their offset from the piece that moves: how far away they
lie, counted in moves of a king, whether on one of the piece's lines, and whether before or
behind it. Only a rank is a row of the board. The squares that a template lists are the
squares that it describes, hence the targets of a move rule are told by the descriptions of
its templates alone, taken from left to right.
-/

namespace BoardGame

/-! ## Offsets -/

namespace Square

/-- Number of king's moves that an offset takes. -/
def distance (d : Square) : Nat :=
  max d.x.natAbs d.y.natAbs

/-- The offset leads away from the piece by at most `n` king's moves. -/
def Around (n : Nat) (d : Square) : Prop :=
  1 ≤ d.distance ∧ d.distance ≤ n

instance (n : Nat) (d : Square) : Decidable (d.Around n) :=
  inferInstanceAs (Decidable (_ ∧ _))

theorem within_iff_around {n : Nat} {d : Square} : Pattern.within n d = true ↔ d.Around n := by
  rw [Pattern.within_iff, Around, distance]
  omega

end Square

/-! ## Frames of reference -/

namespace RuleSet

/-- Whether the side plays down the board. -/
def FacesDown (rules : RuleSet) (side : Side) : Prop :=
  side = .black ∧ (rules.symmetry = .rotate ∨ rules.symmetry = .flip)

instance (rules : RuleSet) (side : Side) : Decidable (rules.FacesDown side) :=
  inferInstanceAs (Decidable (_ ∧ _))

/-- The offset leads to a row that lies before the piece. -/
def Ahead (rules : RuleSet) (side : Side) (d : Square) : Prop :=
  if rules.FacesDown side then d.y < 0 else 0 < d.y

/-- The offset leads to a row that lies behind the piece. -/
def Behind (rules : RuleSet) (side : Side) (d : Square) : Prop :=
  if rules.FacesDown side then 0 < d.y else d.y < 0

variable {rules : RuleSet} {side : Side} {d : Square}

instance : Decidable (rules.Ahead side d) :=
  inferInstanceAs (Decidable (ite _ _ _))

instance : Decidable (rules.Behind side d) :=
  inferInstanceAs (Decidable (ite _ _ _))

theorem forwardSign_eq_ite : rules.forwardSign side = if rules.FacesDown side then -1 else 1 := by
  have hflips : rules.symmetry.flipsBlack = true ↔
      rules.symmetry = .rotate ∨ rules.symmetry = .flip := by
    cases rules.symmetry <;> decide
  exact if_congr (and_congr_right fun _ => hflips) rfl rfl

theorem ahead_iff : 0 < d.y * rules.forwardSign side ↔ rules.Ahead side d := by
  rw [forwardSign_eq_ite, Ahead]
  split <;> omega

theorem behind_iff : 0 < d.y * -rules.forwardSign side ↔ rules.Behind side d := by
  rw [forwardSign_eq_ite, Behind]
  split <;> omega

theorem rankRow_eq_ite (n : Int) :
    rules.rankRow side n = if rules.FacesDown side then rules.edge - n else n - 1 := by
  rw [rankRow, forwardSign_eq_ite]
  by_cases h : rules.FacesDown side <;> simp [h]

end RuleSet

/-! ## Descriptions -/

namespace Pattern

/-- Whether a pattern of size `n` has a square for a piece at `origin`. -/
def Describes (rules : RuleSet) (side : Side) (origin : Square) (n : Nat) (s : Square) :
    Pattern → Prop
  | square => (s - origin).Around n
  | plus => (s - origin).Around n ∧ ((s - origin).x = 0 ∨ (s - origin).y = 0)
  | cross => (s - origin).Around n ∧ (s - origin).x.natAbs = (s - origin).y.natAbs
  | forward => (s - origin).Around n ∧ rules.Ahead side (s - origin)
  | backward => (s - origin).Around n ∧ rules.Behind side (s - origin)
  | pass => (s - origin).x = 0 ∧ (s - origin).y = 0
  | rank => s.y = (if rules.FacesDown side then (rules.boardSize : Int) - n else n - 1) ∧
      0 ≤ s.x ∧ s.x < rules.boardSize

instance (rules : RuleSet) (side : Side) (origin : Square) (n : Nat) (s : Square) :
    ∀ pattern : Pattern, Decidable (pattern.Describes rules side origin n s)
  | square => inferInstanceAs (Decidable (Square.Around _ _))
  | plus | cross | forward | backward | pass | rank => inferInstanceAs (Decidable (_ ∧ _))

end Pattern

namespace Template

/-- The size of a template on a board of edge `edge`. -/
def sizeOn (edge : Nat) (t : Template) : Nat :=
  if t.size = 0 then edge else t.size

/-- Whether a template has a square for a piece at `origin`. -/
def Describes (rules : RuleSet) (side : Side) (origin : Square) (t : Template) (s : Square) :
    Prop :=
  t.pattern.Describes rules side origin (t.sizeOn rules.boardSize) s

instance (rules : RuleSet) (side : Side) (origin : Square) (t : Template) (s : Square) :
    Decidable (t.Describes rules side origin s) :=
  inferInstanceAs (Decidable (Pattern.Describes _ _ _ _ _ _))

end Template

namespace RuleSet

variable {rules : RuleSet} {side : Side} {origin s : Square}

theorem extent_eq_sizeOn (hedge : rules.boardSize < 0x80000000) {t : Template}
    (ht : t.size < 0x80000000) : rules.extent t = t.sizeOn rules.boardSize := by
  rw [extent, Template.sizeOn]
  split
  · exact Square.coordinate_of_lt hedge
  · exact Square.coordinate_of_lt ht

theorem covers_iff_describes (hedge : rules.boardSize < 0x80000000) {t : Template}
    (ht : t.size < 0x80000000) :
    rules.covers side origin t s = true ↔ t.Describes rules side origin s := by
  have hbound : rules.edge = rules.boardSize := Square.coordinate_of_lt hedge
  rw [covers, extent_eq_sizeOn hedge ht, Template.Describes]
  cases t.pattern with
  | square => exact Square.within_iff_around
  | plus =>
      simp only [Pattern.Describes, Bool.and_eq_true, Bool.or_eq_true, beq_iff_eq,
        Square.within_iff_around]
      exact and_comm
  | cross =>
      simp only [Pattern.Describes, Bool.and_eq_true, beq_iff_eq, Square.within_iff_around]
      exact and_comm
  | forward =>
      simp only [Pattern.Describes, Bool.and_eq_true, decide_eq_true_eq, ahead_iff,
        Square.within_iff_around]
      exact and_comm
  | backward =>
      simp only [Pattern.Describes, Bool.and_eq_true, decide_eq_true_eq, behind_iff,
        Square.within_iff_around]
      exact and_comm
  | pass =>
      obtain ⟨x, y⟩ := s
      obtain ⟨x', y'⟩ := origin
      simp only [Pattern.Describes, beq_iff_eq, Square.mk.injEq, Square.sub_x, Square.sub_y]
      omega
  | rank =>
      simp only [Pattern.Describes, Bool.and_eq_true, beq_iff_eq, decide_eq_true_eq,
        rankRow_eq_ite, hbound, and_assoc]

theorem covers_eq_decide (hedge : rules.boardSize < 0x80000000) {t : Template}
    (ht : t.size < 0x80000000) :
    rules.covers side origin t s = Decidable.decide (t.Describes rules side origin s) := by
  rw [Bool.eq_iff_iff, decide_eq_true_eq]
  exact covers_iff_describes hedge ht

/-- The targets of a move rule are listed once each, and a square is a target if the
descriptions of the templates, taken from left to right, say so. -/
theorem targetSquares_described (rules : RuleSet) (side : Side) (origin : Square)
    (move : MoveRule) (hedge : rules.boardSize < 0x80000000)
    (hsizes : ∀ t ∈ move.templates, t.size < 0x80000000) :
    (rules.targetSquares side origin move).Nodup ∧
      ∀ s, s ∈ rules.targetSquares side origin move ↔
        move.templates.foldl
          (fun inside t => t.op.holds inside (Decidable.decide (t.Describes rules side origin s)))
          false = true := by
  refine ⟨nodup_targetSquares move, fun s => ?_⟩
  have hdescribed : ∀ inside, ∀ t ∈ move.templates,
      t.op.holds inside (rules.covers side origin t s) =
        t.op.holds inside (Decidable.decide (t.Describes rules side origin s)) := by
    intro inside t ht
    rw [← covers_eq_decide hedge (hsizes t ht)]
  rw [mem_targetSquares, List.foldl_ext _ _ _ hdescribed]

/-- A black pawn that has not moved steps two rows down: its templates unite, intersect and
take away. -/
theorem targetSquares_described_doubleStep :
    let rule : MoveRule := { templates := BuiltIn.ahead 2 ++
      [⟨.subtract, .square, 1⟩, BuiltIn.onRank 4, ⟨.intersect, .plus, 0⟩] }
    BuiltIn.chess.boardSize < 0x80000000 ∧ (∀ t ∈ rule.templates, t.size < 0x80000000) ∧
      BuiltIn.chess.targetSquares .black ⟨4, 6⟩ rule = [⟨4, 4⟩] ∧
      (BuiltIn.chess.targetSquares .black ⟨4, 6⟩ rule).Nodup ∧
      ∀ s, s ∈ BuiltIn.chess.targetSquares .black ⟨4, 6⟩ rule ↔
        rule.templates.foldl (fun inside t =>
          t.op.holds inside
            (Decidable.decide (t.Describes BuiltIn.chess .black ⟨4, 6⟩ s))) false = true := by
  intro rule
  have hsizes : ∀ t ∈ rule.templates, t.size < 0x80000000 := by decide
  exact ⟨by decide, hsizes, by decide,
    targetSquares_described BuiltIn.chess .black ⟨4, 6⟩ rule (by decide) hsizes⟩

end RuleSet

end BoardGame
