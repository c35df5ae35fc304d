import BoardGame.BuiltIn
import BoardGame.Proofs.Ending.Lines
import BoardGame.Proofs.Ray
/-!
# Pieces in a row

Lines are followed from every square, in four of the eight directions and beyond the edge,
and the signs along a line are added up. A line of `n` squares is worth `n` to a side exactly
if it stays on the board and the side holds all of it. So a longest run of at least `n` tells
that the side has `n` pieces in a row, whatever the direction.
-/

namespace BoardGame

open Square

theorem lineDirections_or {d : Square} (hd : d ∈ directions) :
    d ∈ lineDirections ∨ opposite d ∈ lineDirections := by
  simp only [directions, List.mem_cons, List.not_mem_nil, or_false] at hd
  rcases hd with rfl | rfl | rfl | rfl | rfl | rfl | rfl | rfl <;> decide

theorem lineDirections_subset {d : Square} (hd : d ∈ lineDirections) : d ∈ directions := by
  simp only [lineDirections, List.mem_cons, List.not_mem_nil, or_false] at hd
  rcases hd with rfl | rfl | rfl | rfl <;> decide

namespace Position

variable {pos : Position} {side : Side} {start dir s : Square} {n : Nat}

/-! ## Lines held by one side -/

/-- A piece of `side` stands on the square. -/
def Holds (pos : Position) (side : Side) (s : Square) : Prop :=
  pos.onBoard s = true ∧ (pos.read s).sign = side.sign

/-- A side holds `n` squares of the board that follow one another in a direction. -/
def HasRow (pos : Position) (side : Side) (n : Nat) : Prop :=
  ∃ start, ∃ dir ∈ directions, ∀ i < n, pos.Holds side (ray start dir i)

theorem worth_iff (pos : Position) (side : Side) (s : Square) : side.sign * (pos.cell s).sign ≤ 1 ∧
    (side.sign * (pos.cell s).sign = 1 ↔ pos.Holds side s) := by
  unfold cell Holds
  by_cases hs : pos.onBoard s = true
  · rw [if_pos hs]
    simp only [hs, true_and]
    have hread := Int.sign_trichotomy (pos.read s)
    cases side <;> simp only [Side.sign] <;> omega
  · simp [hs]

theorem lineSum_le (pos : Position) (side : Side) (start dir : Square) (n : Nat) :
    side.sign * pos.lineSum start dir n ≤ n := by
  induction n generalizing start with
  | zero => simp [lineSum]
  | succ n ih =>
      have hfirst := (worth_iff pos side start).1
      have hrest := ih (start + dir)
      rw [lineSum, Int.mul_add]
      omega

/-- Only a line that a side holds from one end to the other is worth its length. -/
theorem le_lineSum_iff :
    (n : Int) ≤ side.sign * pos.lineSum start dir n ↔
      ∀ i < n, pos.Holds side (ray start dir i) := by
  induction n generalizing start with
  | zero => simp [lineSum]
  | succ n ih =>
      obtain ⟨hle, hfirst⟩ := worth_iff pos side start
      have hrest := lineSum_le pos side (start + dir) dir n
      rw [Nat.forall_lt_succ_left, ray_zero, ← hfirst]
      simp only [ray_succ]
      rw [← ih, lineSum, Int.mul_add]
      omega

/-- A row can be followed from its other end. -/
theorem hasRow_iff : pos.HasRow side n ↔
    ∃ start, ∃ dir ∈ lineDirections, ∀ i < n, pos.Holds side (ray start dir i) := by
  constructor
  · rintro ⟨start, dir, hdir, hrow⟩
    rcases lineDirections_or hdir with h | h
    · exact ⟨start, dir, h, hrow⟩
    · refine ⟨ray start dir (n - 1), opposite dir, h, fun i hi => ?_⟩
      rw [ray_opposite (by omega)]
      exact hrow _ (by omega)
  · rintro ⟨start, dir, hdir, hrow⟩
    exact ⟨start, dir, lineDirections_subset hdir, hrow⟩

/-- A side has a run of `n` exactly if it has `n` pieces in a row. -/
theorem le_longestRun_iff_hasRow (hn : 0 < n) :
    (n : Int) ≤ pos.longestRun side n ↔ pos.HasRow side n := by
  rw [le_longestRun_iff, Int.toNat_natCast, hasRow_iff]
  constructor
  · rintro (hle | ⟨sum, hsum, hle⟩)
    · omega
    · obtain ⟨x, -, y, -, dir, hdir, rfl⟩ := mem_lineSums.mp hsum
      have hlength := lineSum_le pos side ⟨x, y⟩ dir (min n pos.size)
      have hmin : min n pos.size = n := by omega
      rw [hmin] at hle
      exact ⟨_, dir, hdir, le_lineSum_iff.mp hle⟩
  · rintro ⟨start, dir, hdir, hrow⟩
    right
    have hstart : start.onBoard pos.size = true := by
      have hfirst := (hrow 0 hn).1
      rwa [ray_zero] at hfirst
    have hlast : (ray start dir (n - 1)).onBoard pos.size = true := (hrow (n - 1) (by omega)).1
    have hlt := lt_of_onBoard_ray (lineDirections_subset hdir) hstart hlast
    have hmin : min n pos.size = n := by omega
    rw [onBoard_iff] at hstart
    refine ⟨pos.lineSum start dir n, ?_, le_lineSum_iff.mpr hrow⟩
    refine mem_lineSums.mpr ⟨start.x.toNat, by omega, start.y.toNat, by omega, dir, hdir, ?_⟩
    rw [hmin, Int.toNat_of_nonneg hstart.1.1, Int.toNat_of_nonneg hstart.1.2]

end Position

namespace RuleSet

/-! ## The ending -/

section

variable {rules : RuleSet} {pos : Position} {m : Type → Type} [Monad m] [LawfulMonad m]
  {noMoves : m Bool}

theorem firstOutcome_append {before : List EndRule}
    (h : ∀ ending ∈ before, rules.endOutcome pos noMoves ending = pure none)
    (after : List EndRule) :
    rules.firstOutcome pos noMoves (before ++ after) = rules.firstOutcome pos noMoves after := by
  induction before with
  | nil => rfl
  | cons ending rest ih =>
      obtain ⟨hfirst, hrest⟩ := List.forall_mem_cons.mp h
      rw [List.cons_append, firstOutcome, hfirst, pure_bind]
      exact ih hrest

theorem firstOutcome_nInARow {n : Nat} (hn : n ≤ 2147483647) (decision : Decision)
    (after : List EndRule) :
    rules.firstOutcome pos noMoves (⟨.nInARow, n, decision⟩ :: after) =
      match lineOutcome pos n with
      | some outcome => pure outcome
      | none => rules.firstOutcome pos noMoves after := by
  have hparam : Int.bmod n 0x100000000 = n := by
    rw [Int.bmod_eq_of_le] <;> omega
  cases hline : lineOutcome pos n <;>
    simp only [firstOutcome, endOutcome, hparam, hline, pure_bind]

end

/-- The longest runs of a position tell which side has `n` pieces in a row. So an ending that
asks for them, when those before it do not apply, decides for white if white has such a row,
else for black if black has one, and is passed over if neither has. -/
theorem rows_decide {n : Nat} (hpos : 0 < n) (hn : n ≤ 2147483647) (pos : Position) :
    ((n : Int) ≤ (pos.longestRuns n).1 ↔ pos.HasRow .white n) ∧
      ((n : Int) ≤ (pos.longestRuns n).2 ↔ pos.HasRow .black n) ∧
      ∀ (m : Type → Type) [Monad m] [LawfulMonad m] (rules : RuleSet) (noMoves : m Bool)
        (before after : List EndRule) (decision : Decision),
        rules.endings = before ++ ⟨.nInARow, n, decision⟩ :: after →
        (∀ ending ∈ before, rules.endOutcome pos noMoves ending = pure none) →
        (pos.HasRow .white n →
          rules.outcome pos noMoves = pure (.ofWinner .white pos.mover)) ∧
        (¬ pos.HasRow .white n → pos.HasRow .black n →
          rules.outcome pos noMoves = pure (.ofWinner .black pos.mover)) ∧
        (¬ pos.HasRow .white n → ¬ pos.HasRow .black n →
          rules.outcome pos noMoves = rules.firstOutcome pos noMoves after) := by
  have hruns (side : Side) : (n : Int) ≤ pos.longestRun side n ↔ pos.HasRow side n :=
    Position.le_longestRun_iff_hasRow hpos
  have hwhite : (n : Int) ≤ (pos.longestRuns n).1 ↔ pos.HasRow .white n := hruns .white
  have hblack : (n : Int) ≤ (pos.longestRuns n).2 ↔ pos.HasRow .black n := hruns .black
  refine ⟨hwhite, hblack, fun m _ _ rules noMoves before after decision hendings hbefore => ?_⟩
  rw [outcome, hendings, firstOutcome_append hbefore, firstOutcome_nInARow hn]
  refine ⟨fun hw => ?_, fun hw hb => ?_, fun hw hb => ?_⟩
  · have houtcome : lineOutcome pos n = some (.ofWinner .white pos.mover) :=
      if_pos (hwhite.mpr hw)
    rw [houtcome]
  · have houtcome : lineOutcome pos n = some (.ofWinner .black pos.mover) :=
      (if_neg (mt hwhite.mp hw)).trans (if_pos (hblack.mpr hb))
    rw [houtcome]
  · have houtcome : lineOutcome pos n = none :=
      (if_neg (mt hwhite.mp hw)).trans (if_neg (mt hblack.mp hb))
    rw [houtcome]

/-- Black holds the falling diagonal from `a4` to `d1`. -/
def fallingDiagonal : Position :=
  Position.ofBoard 4 #[1, 1, 0, -1, 0, 1, -1, 1, 1, -1, 0, 0, -1, 0, 0, 0] .white .absent 9

theorem rows_decide_fallingDiagonal :
    let rules : RuleSet := { BuiltIn.ticTacToe with
      boardSize := 4, endings := [⟨.boardFull, 0, .draw⟩, ⟨.nInARow, 4, .win⟩] }
    let noMoves : Except RuleError Bool := .ok false
    rules.endings = [⟨.boardFull, 0, .draw⟩] ++ ⟨.nInARow, 4, .win⟩ :: [] ∧
      rules.endOutcome fallingDiagonal noMoves ⟨.boardFull, 0, .draw⟩ = pure none ∧
      ¬ fallingDiagonal.HasRow .white 4 ∧ fallingDiagonal.HasRow .black 4 ∧
      rules.outcome fallingDiagonal noMoves = .ok .lose := by
  intro rules noMoves
  have hbefore : ∀ ending ∈ [EndRule.mk .boardFull 0 .draw],
      rules.endOutcome fallingDiagonal noMoves ending = pure none :=
    List.forall_mem_singleton.mpr rfl
  obtain ⟨hwhite, hblack, hdecide⟩ :=
    rows_decide (by decide : 0 < 4) (by decide : 4 ≤ 2147483647) fallingDiagonal
  have hnot : ¬ fallingDiagonal.HasRow .white 4 := mt hwhite.mpr (by decide +kernel)
  have hrow : fallingDiagonal.HasRow .black 4 := hblack.mp (by decide +kernel)
  obtain ⟨-, hwins, -⟩ := hdecide (Except RuleError) rules noMoves _ [] .win rfl hbefore
  exact ⟨rfl, hbefore _ List.mem_cons_self, hnot, hrow, hwins hnot hrow⟩

end RuleSet

end BoardGame
