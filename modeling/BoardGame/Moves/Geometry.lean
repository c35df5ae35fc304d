import BoardGame.Rules.Basic
/-!
# Geometry of templates

A template stands for a list of squares around a moving piece, in a fixed order.
A move rule folds the lists of its templates, from left to right, into an ordered
set of targets.
-/

namespace BoardGame

namespace Pattern

/-- An offset and its images under quarter turns. -/
def quarterTurns (i j : Int) : List Square :=
  [⟨i, j⟩, ⟨-j, i⟩, ⟨-i, -j⟩, ⟨j, -i⟩]

/-- All offsets within king's distance `n`, the origin left out. The square ring is
the union of the quarter turns of its first quadrant, one axis included. -/
def squareOffsets (n : Int) : List Square :=
  (List.range (n.toNat + 1)).flatMap fun (i : Nat) =>
    (List.range' 1 n.toNat).flatMap fun (j : Nat) => quarterTurns i j

/-- Orthogonal rays of length `n`. -/
def plusOffsets (n : Int) : List Square :=
  (List.range' 1 n.toNat).flatMap fun (j : Nat) => quarterTurns 0 j

/-- Diagonal rays of length `n`. -/
def crossOffsets (n : Int) : List Square :=
  (List.range' 1 n.toNat).flatMap fun (j : Nat) => quarterTurns j j

/-- The part of the square that lies strictly ahead, `sign` being the direction
of up. -/
def forwardOffsets (n sign : Int) : List Square :=
  (squareOffsets n).filter fun s => 0 < s.y * sign

/-- Whether an offset lies within king's distance `n`, the origin left out. -/
def within (n : Int) (d : Square) : Bool :=
  decide ((d.x.natAbs : Int) ≤ n) && decide ((d.y.natAbs : Int) ≤ n) && (d.x != 0 || d.y != 0)

theorem within_iff {n : Int} {d : Square} :
    within n d = true ↔
      (d.x.natAbs : Int) ≤ n ∧ (d.y.natAbs : Int) ≤ n ∧ (d.x ≠ 0 ∨ d.y ≠ 0) := by
  simp [within, and_assoc]

theorem mem_quarterTurns {i j : Int} {d : Square} :
    d ∈ quarterTurns i j ↔
      (d.x = i ∧ d.y = j) ∨ (d.x = -j ∧ d.y = i) ∨ (d.x = -i ∧ d.y = -j) ∨
        (d.x = j ∧ d.y = -i) := by
  obtain ⟨x, y⟩ := d
  simp [quarterTurns]

theorem mem_squareOffsets {n : Int} {d : Square} :
    d ∈ squareOffsets n ↔ within n d = true := by
  simp only [squareOffsets, List.mem_flatMap, List.mem_range, List.mem_range'_1, mem_quarterTurns,
    within_iff]
  constructor
  · rintro ⟨i, hi, j, hj, h⟩
    omega
  · rintro ⟨hx, hy, h⟩
    by_cases right : 0 ≤ d.x ∧ 0 < d.y
    · exact ⟨d.x.toNat, by omega, d.y.toNat, by omega, by omega⟩
    by_cases up : d.x < 0 ∧ 0 ≤ d.y
    · exact ⟨d.y.toNat, by omega, (-d.x).toNat, by omega, by omega⟩
    by_cases left : d.x ≤ 0 ∧ d.y < 0
    · exact ⟨(-d.x).toNat, by omega, (-d.y).toNat, by omega, by omega⟩
    · exact ⟨(-d.y).toNat, by omega, d.x.toNat, by omega, by omega⟩

theorem mem_plusOffsets {n : Int} {d : Square} :
    d ∈ plusOffsets n ↔ (d.x = 0 ∨ d.y = 0) ∧ within n d = true := by
  simp only [plusOffsets, List.mem_flatMap, List.mem_range'_1, mem_quarterTurns, within_iff]
  constructor
  · rintro ⟨j, hj, h⟩
    omega
  · rintro ⟨axis, hx, hy, h⟩
    exact ⟨max d.x.natAbs d.y.natAbs, by omega, by omega⟩

theorem mem_crossOffsets {n : Int} {d : Square} :
    d ∈ crossOffsets n ↔ d.x.natAbs = d.y.natAbs ∧ within n d = true := by
  simp only [crossOffsets, List.mem_flatMap, List.mem_range'_1, mem_quarterTurns, within_iff]
  constructor
  · rintro ⟨j, hj, h⟩
    omega
  · rintro ⟨diagonal, hx, hy, h⟩
    exact ⟨d.x.natAbs, by omega, by omega⟩

theorem mem_forwardOffsets {n sign : Int} {d : Square} :
    d ∈ forwardOffsets n sign ↔ 0 < d.y * sign ∧ within n d = true := by
  simp [forwardOffsets, mem_squareOffsets, and_comm]

end Pattern

namespace RuleSet

/-- Direction of forward for a side: `1` is up the board. -/
def forwardSign (rules : RuleSet) (side : Side) : Int :=
  if side = .black ∧ rules.symmetry.flipsBlack then -1 else 1

/-- Size of a template as a coordinate; zero stands for the board's edge. -/
def extent (rules : RuleSet) (t : Template) : Int :=
  if t.size = 0 then rules.edge else Square.coordinate t.size

/-- The row that a rank template names, counted from the back edge of the side that moves. -/
def rankRow (rules : RuleSet) (side : Side) (extent : Int) : Int :=
  if 0 < rules.forwardSign side then extent - 1 else rules.edge - extent

/-- The squares of the row that a rank template names. -/
def rankSquares (rules : RuleSet) (side : Side) (extent : Int) : List Square :=
  rules.lines.map fun (x : Nat) => ⟨x, rules.rankRow side extent⟩

theorem mem_rankSquares {rules : RuleSet} {side : Side} {extent : Int} {s : Square} :
    s ∈ rules.rankSquares side extent ↔
      (s.y = rules.rankRow side extent ∧ 0 ≤ s.x) ∧ s.x < rules.edge := by
  obtain ⟨x, y⟩ := s
  simp only [rankSquares, lines, List.mem_map, List.mem_range, Square.mk.injEq]
  constructor
  · rintro ⟨i, hi, rfl, rfl⟩
    omega
  · rintro ⟨⟨rfl, hx⟩, hlt⟩
    exact ⟨x.toNat, by omega, by omega, rfl⟩

/-- Squares of one template for a piece of `side` at `origin`. -/
def templateSquares (rules : RuleSet) (side : Side) (origin : Square) (t : Template) :
    List Square :=
  let extent := rules.extent t
  let sign := rules.forwardSign side
  match t.pattern with
  | .square => (Pattern.squareOffsets extent).map (origin + ·)
  | .plus => (Pattern.plusOffsets extent).map (origin + ·)
  | .cross => (Pattern.crossOffsets extent).map (origin + ·)
  | .forward => (Pattern.forwardOffsets extent sign).map (origin + ·)
  | .backward => (Pattern.forwardOffsets extent (-sign)).map (origin + ·)
  | .pass => [origin]
  | .rank => rules.rankSquares side extent

/-- Whether a square is one of a template's, told without listing them. -/
def covers (rules : RuleSet) (side : Side) (origin : Square) (t : Template) (s : Square) : Bool :=
  let extent := rules.extent t
  let sign := rules.forwardSign side
  let d := s - origin
  match t.pattern with
  | .square => Pattern.within extent d
  | .plus => (d.x == 0 || d.y == 0) && Pattern.within extent d
  | .cross => d.x.natAbs == d.y.natAbs && Pattern.within extent d
  | .forward => decide (0 < d.y * sign) && Pattern.within extent d
  | .backward => decide (0 < d.y * -sign) && Pattern.within extent d
  | .pass => s == origin
  | .rank =>
    let row := rules.rankRow side extent
    s.y == row && decide (0 ≤ s.x) && decide (s.x < rules.edge)

/-- Squares at the offsets of a pattern. -/
theorem mem_map_add {origin s : Square} {offsets : List Square} :
    s ∈ offsets.map (origin + ·) ↔ s - origin ∈ offsets := by
  rw [List.mem_map]
  constructor
  · rintro ⟨d, hd, rfl⟩
    rwa [Square.add_sub_cancel_left]
  · intro h
    exact ⟨s - origin, h, Square.add_sub_cancel origin s⟩

/-- A template covers the squares that it lists. -/
theorem mem_templateSquares {rules : RuleSet} {side : Side} {origin : Square} {t : Template}
    {s : Square} :
    s ∈ rules.templateSquares side origin t ↔ rules.covers side origin t s = true := by
  cases hp : t.pattern <;>
    simp only [templateSquares, covers, hp, mem_map_add, Pattern.mem_squareOffsets,
      Pattern.mem_plusOffsets, Pattern.mem_crossOffsets, Pattern.mem_forwardOffsets,
      Bool.and_eq_true, Bool.or_eq_true, beq_iff_eq, decide_eq_true_eq, List.mem_singleton]
  case rank => exact mem_rankSquares

/-- Changes a set of targets by the squares of a template. A pattern lists no square
twice, so only the targets already there have to be looked at. -/
def combine (rules : RuleSet) (side : Side) (origin : Square) (targets : List Square)
    (t : Template) : List Square :=
  match t.op with
  | .union =>
    targets ++ (rules.templateSquares side origin t).filter fun s => !targets.contains s
  | .intersect => targets.filter (rules.covers side origin t)
  | .subtract => targets.filter fun s => !rules.covers side origin t s

/-- Targets of a move rule for a piece of `side` at `origin`, on or off the board. -/
def targetSquares (rules : RuleSet) (side : Side) (origin : Square) (move : MoveRule) :
    List Square :=
  move.templates.foldl (rules.combine side origin) []

end RuleSet

end BoardGame
