import Mathlib.Algebra.Order.Ring.Int
import BoardGame.Outcome
/-!
# Lines of pieces

The longest run of a side is what the best of all lines is worth to it, but nothing at least.
So it gets longer only if some square comes to be worth more to that side.
-/

namespace BoardGame

/-! ## Greatest and least of a list -/

theorem le_foldl_max_iff {l : List Int} {a n : Int} :
    n ≤ l.foldl max a ↔ n ≤ a ∨ ∃ b ∈ l, n ≤ b := by
  induction l generalizing a with
  | nil => simp
  | cons b l ih => simp [ih, or_assoc]

theorem foldl_min_le_iff {l : List Int} {a n : Int} :
    l.foldl min a ≤ n ↔ a ≤ n ∨ ∃ b ∈ l, b ≤ n := by
  induction l generalizing a with
  | nil => simp
  | cons b l ih => simp [ih, or_assoc]

namespace Position

variable {p q : Position} {side : Side} {n k sum : Int}

/-! ## Runs -/

/-- Greatest surplus of a side in a line of length `n`. -/
def longestRun (pos : Position) (side : Side) (n : Int) : Int :=
  match side with
  | .white => (pos.longestRuns n).1
  | .black => (pos.longestRuns n).2

theorem mem_lineSums {length : Nat} : sum ∈ p.lineSums length ↔
    ∃ x < p.size, ∃ y < p.size, ∃ dir ∈ lineDirections,
      p.lineSum ⟨(x : Nat), (y : Nat)⟩ dir (min length p.size) = sum := by
  simp only [lineSums, List.mem_flatMap, List.mem_range, List.mem_map]
  constructor
  · rintro ⟨y, hy, x, hx, dir, hdir, hsum⟩
    exact ⟨x, hx, y, hy, dir, hdir, hsum⟩
  · rintro ⟨x, hx, y, hy, dir, hdir, hsum⟩
    exact ⟨y, hy, x, hx, dir, hdir, hsum⟩

theorem le_longestRun_iff :
    k ≤ p.longestRun side n ↔ k ≤ 0 ∨ ∃ sum ∈ p.lineSums n.toNat, k ≤ side.sign * sum := by
  cases side with
  | white =>
      have hone (sum : Int) : Side.white.sign * sum = sum := Int.one_mul sum
      simp only [hone]
      exact le_foldl_max_iff
  | black =>
      have hneg (sum : Int) : k ≤ Side.black.sign * sum ↔ sum ≤ -k := by
        show k ≤ -1 * sum ↔ _
        omega
      simp only [hneg]
      show k ≤ -(p.lineSums n.toNat).foldl min 0 ↔ _
      rw [le_neg, foldl_min_le_iff, Int.neg_nonneg]

/-! ## Worth of squares -/

/-- No square is worth more to a side in `p` than in `q`. -/
def NoGain (side : Side) (p q : Position) : Prop :=
  p.size = q.size ∧ ∀ s, side.sign * (p.cell s).sign ≤ side.sign * (q.cell s).sign

namespace NoGain

variable (h : NoGain side p q)

include h

theorem lineSum_le (start dir : Square) (length : Nat) :
    side.sign * p.lineSum start dir length ≤ side.sign * q.lineSum start dir length := by
  induction length generalizing start with
  | zero => exact Int.le_refl _
  | succ length ih =>
      rw [lineSum, lineSum, Int.mul_add, Int.mul_add]
      exact add_le_add (h.2 start) (ih _)

theorem longestRun_le (n : Int) : p.longestRun side n ≤ q.longestRun side n := by
  rw [le_longestRun_iff]
  refine (le_longestRun_iff.mp (Int.le_refl (p.longestRun side n))).imp_right ?_
  rintro ⟨sum, hsum, hle⟩
  obtain ⟨x, hx, y, hy, dir, hdir, rfl⟩ := mem_lineSums.mp hsum
  rw [h.1] at hx hy hle
  refine ⟨_, mem_lineSums.mpr ⟨x, hx, y, hy, dir, hdir, rfl⟩, ?_⟩
  exact Int.le_trans hle (h.lineSum_le _ dir _)

end NoGain

end Position

end BoardGame
