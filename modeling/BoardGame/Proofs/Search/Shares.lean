import Mathlib.Algebra.Order.BigOperators.Group.Finset
import Mathlib.Algebra.Order.Field.Basic
import Mathlib.Algebra.Order.Field.Rat
import BoardGame.Proofs.Search.Picking
/-!
# Shares of a draw

With exact numbers for weights the moves that do not lose lie end to end: each takes up as
much of the total as it weighs, and a move is drawn exactly if the point that is drawn
falls into its share. Counting the cumulative weights up to the point finds that move
wherever moves without a share lie between the others.
-/

namespace BoardGame

open Finset (range)

namespace Sampling

variable {K : Type} [Field K] {verdicts : List Verdict} {weights : List K} {total point : K}
  {i j n : Nat}

/-! ## Shares -/

/-- What a move weighs in the draw: a move that loses, like one that does not exist, has no
share in it, and a weight that is missing is none. -/
def share (verdicts : List Verdict) (weights : List K) (i : Nat) : K :=
  if verdicts.getD i .loss = .loss then 0 else weights.getD i 0

/-- Where the share of a move begins. -/
def shareStart (verdicts : List Verdict) (weights : List K) (i : Nat) : K :=
  ∑ j ∈ range i, share verdicts weights j

theorem shareStart_succ (verdicts : List Verdict) (weights : List K) (i : Nat) :
    shareStart verdicts weights (i + 1) =
      shareStart verdicts weights i + share verdicts weights i :=
  Finset.sum_range_succ _ i

variable [LinearOrder K]

/-- A move that does not lose and has a positive weight. -/
def Weighs (verdicts : List Verdict) (weights : List K) (i : Nat) : Prop :=
  (∃ v, verdicts[i]? = some v ∧ v ≠ .loss) ∧ 0 < weights.getD i 0

theorem share_pos_iff : 0 < share verdicts weights i ↔ Weighs verdicts weights i := by
  unfold share Weighs
  rw [List.getD_eq_getElem?_getD]
  cases verdicts[i]? with
  | none => simp
  | some v => by_cases hv : v = .loss <;> simp [hv]

theorem Weighs.lt_length (h : Weighs verdicts weights i) : i < verdicts.length := by
  obtain ⟨⟨v, hv, -⟩, -⟩ := h
  exact (List.getElem?_eq_some_iff.mp hv).1

theorem Weighs.share_eq (h : Weighs verdicts weights i) :
    share verdicts weights i = weights.getD i 0 := by
  obtain ⟨⟨v, hv, hne⟩, -⟩ := h
  rw [share, List.getD_eq_getElem?_getD, hv]
  exact if_neg hne

theorem getD_nonneg (hweights : ∀ w ∈ weights, 0 ≤ w) (i : Nat) : 0 ≤ weights.getD i 0 := by
  rw [List.getD_eq_getElem?_getD]
  cases hw : weights[i]? with
  | none => exact le_refl 0
  | some w => exact hweights w (List.mem_of_getElem? hw)

theorem share_nonneg (hweights : ∀ w ∈ weights, 0 ≤ w) (i : Nat) :
    0 ≤ share verdicts weights i := by
  unfold share
  split
  · exact le_refl 0
  · exact getD_nonneg hweights i

/-- The share of a move has a point in it. -/
def InShare (verdicts : List Verdict) (weights : List K) (i : Nat) (point : K) : Prop :=
  shareStart verdicts weights i ≤ point ∧ point < shareStart verdicts weights (i + 1)

theorem exists_inShare (hpoint : 0 ≤ point) (hlt : point < shareStart verdicts weights n) :
    ∃ i < n, InShare verdicts weights i point := by
  induction n with
  | zero => exact absurd hlt (not_lt.mpr hpoint)
  | succ n ih =>
      by_cases hbefore : point < shareStart verdicts weights n
      · obtain ⟨i, hi, hshare⟩ := ih hbefore
        exact ⟨i, Nat.lt_succ_of_lt hi, hshare⟩
      · exact ⟨n, Nat.lt_succ_self n, not_lt.mp hbefore, hlt⟩

section

variable [IsStrictOrderedRing K]

theorem shareStart_mono (hweights : ∀ w ∈ weights, 0 ≤ w) :
    Monotone (shareStart verdicts weights) := by
  apply monotone_nat_of_le_succ
  intro i
  rw [shareStart_succ]
  exact le_add_of_nonneg_right (share_nonneg hweights i)

theorem InShare.weighs (h : InShare verdicts weights i point) : Weighs verdicts weights i := by
  obtain ⟨hstart, hend⟩ := h
  rw [shareStart_succ] at hend
  exact share_pos_iff.mp (pos_of_lt_add_right (lt_of_le_of_lt hstart hend))

/-- The shares that have ended up to a point are those before the one that it lies in. -/
theorem InShare.end_le_iff (h : InShare verdicts weights i point)
    (hweights : ∀ w ∈ weights, 0 ≤ w) : shareStart verdicts weights (j + 1) ≤ point ↔ j < i := by
  have hmono : Monotone (shareStart verdicts weights) := shareStart_mono hweights
  constructor
  · intro hj
    by_contra hge
    exact absurd (hmono (Nat.succ_le_succ (not_lt.mp hge))) (not_le.mpr (lt_of_le_of_lt hj h.2))
  · intro hlt
    exact le_trans (hmono hlt) h.1

theorem InShare.unique (hi : InShare verdicts weights i point)
    (hj : InShare verdicts weights j point) (hweights : ∀ w ∈ weights, 0 ≤ w) : i = j := by
  have hij := not_congr (hi.end_le_iff (j := j) hweights)
  have hji := not_congr (hj.end_le_iff (j := i) hweights)
  have hji' := hij.mp (not_le.mpr hj.2)
  have hij' := hji.mp (not_le.mpr hi.2)
  omega

theorem total_pos_iff (hweights : ∀ w ∈ weights, 0 ≤ w) :
    0 < shareStart verdicts weights verdicts.length ↔ ∃ i, Weighs verdicts weights i := by
  constructor
  · intro hpos
    obtain ⟨i, -, hi⟩ := exists_inShare (le_refl 0) hpos
    exact ⟨i, hi.weighs⟩
  · rintro ⟨i, hi⟩
    have hmono : Monotone (shareStart verdicts weights) := shareStart_mono hweights
    calc
      0 ≤ shareStart verdicts weights i := hmono (Nat.zero_le i)
      _ < shareStart verdicts weights (i + 1) := by
        rw [shareStart_succ]
        exact lt_add_of_pos_right _ (share_pos_iff.mpr hi)
      _ ≤ shareStart verdicts weights verdicts.length := hmono (Nat.succ_le_of_lt hi.lt_length)

end

end Sampling

/-! ## Cumulative weights -/

variable {K : Type} [Field K] [LinearOrder K]

/-- Exact numbers as weights: they are all finite, and comparisons are what they say. -/
instance Weight.exact : Weight K where
  zero := 0
  isFinite _ := true
  lt a b := Decidable.decide (a < b)
  le a b := Decidable.decide (a ≤ b)

namespace Sampling

variable {verdicts : List Verdict} {weights : List K} {total point : K} {i j n : Nat}

theorem counted_eq (total : K) (v : Verdict) {w : K} (hw : 0 ≤ w) :
    (if counts v w = true then total + w else total) = total + if v = .loss then 0 else w := by
  unfold counts
  by_cases hv : v = .loss
  · simp [hv]
  by_cases hpos : 0 < w
  · have hcounts : Weight.lt Weight.zero w = true := decide_eq_true hpos
    simp [hv, hcounts, Weight.isFinite]
  · have hzero : w = 0 := le_antisymm (not_lt.mp hpos) hw
    simp [hv, hzero]

/-- Each cumulative weight is where the share of its move ends. -/
theorem getElem?_cumulative (total : K) (hweights : ∀ w ∈ weights, 0 ≤ w)
    (h : i < verdicts.length) :
    (cumulative total verdicts weights)[i]? =
      some (total + shareStart verdicts weights (i + 1)) := by
  induction verdicts generalizing total weights i with
  | nil => cases h
  | cons v rest ih =>
      have hhead : weights.head?.getD Weight.zero = weights.getD 0 0 := by
        cases weights <;> rfl
      have hnext : ∀ j, share (v :: rest) weights (j + 1) = share rest weights.tail j := by
        intro j
        cases weights <;> rfl
      have hcons : cumulative total (v :: rest) weights =
          (total + share (v :: rest) weights 0) ::
            cumulative (total + share (v :: rest) weights 0) rest weights.tail := by
        have hadd := counted_eq total v (getD_nonneg hweights 0)
        rw [cumulative, hhead]
        exact congrArg (fun t => t :: cumulative t rest weights.tail) hadd
      rw [hcons]
      cases i with
      | zero => simp [shareStart]
      | succ i =>
          have htail : ∀ w ∈ weights.tail, 0 ≤ w := fun w hw => hweights w (List.mem_of_mem_tail hw)
          rw [List.getElem?_cons_succ, ih _ htail (Nat.lt_of_succ_lt_succ h), shareStart,
            shareStart, Finset.sum_range_succ' _ (i + 1)]
          simp only [hnext]
          rw [add_assoc, add_comm (share _ _ 0)]

theorem getElem_cumulative (hweights : ∀ w ∈ weights, 0 ≤ w)
    (h : i < (cumulative Weight.zero verdicts weights).length) :
    (cumulative Weight.zero verdicts weights)[i] = shareStart verdicts weights (i + 1) := by
  have hlt : i < verdicts.length := by rwa [length_cumulative] at h
  have hentry := getElem?_cumulative Weight.zero hweights hlt
  rw [List.getElem?_eq_getElem h, Option.some.injEq] at hentry
  exact hentry.trans (zero_add _)

theorem getLastD_cumulative (hweights : ∀ w ∈ weights, 0 ≤ w) (h : verdicts ≠ []) :
    (cumulative Weight.zero verdicts weights).getLastD Weight.zero =
      shareStart verdicts weights verdicts.length := by
  have hlength := length_cumulative Weight.zero verdicts weights
  have hpos := List.length_pos_iff.mpr h
  have hlt : verdicts.length - 1 < (cumulative Weight.zero verdicts weights).length := by omega
  rw [List.getLastD_eq_getLast?, List.getLast?_eq_getElem?, hlength, List.getElem?_eq_getElem hlt,
    Option.getD_some, getElem_cumulative hweights hlt, Nat.sub_add_cancel hpos]

theorem countP_eq_of_iff_lt {α : Type} {p : α → Bool} {l : List α} {k : Nat} (hk : k ≤ l.length)
    (h : ∀ i (hi : i < l.length), p l[i] = true ↔ i < k) : l.countP p = k := by
  have htake : (l.take k).countP p = (l.take k).length := by
    refine List.countP_eq_length.mpr fun a ha => ?_
    obtain ⟨i, hi, rfl⟩ := List.mem_iff_getElem.mp ha
    rw [List.getElem_take, h]
    exact Nat.lt_of_lt_of_le hi (List.length_take_le k l)
  have hdrop : (l.drop k).countP p = 0 := by
    refine List.countP_eq_zero.mpr fun a ha => ?_
    obtain ⟨i, hi, rfl⟩ := List.mem_iff_getElem.mp ha
    rw [List.getElem_drop, h]
    exact Nat.not_lt.mpr (Nat.le_add_right k i)
  rw [← List.take_append_drop k l, List.countP_append, htake, hdrop, List.length_take]
  omega

variable [IsStrictOrderedRing K]

theorem InShare.indexAt_eq (h : InShare verdicts weights i point)
    (hweights : ∀ w ∈ weights, 0 ≤ w) :
    indexAt (cumulative Weight.zero verdicts weights) point = i := by
  have hlength := length_cumulative Weight.zero verdicts weights
  have hi := h.weighs.lt_length
  have hcount : (cumulative Weight.zero verdicts weights).countP (Weight.le · point) = i := by
    refine countP_eq_of_iff_lt (by omega) fun j hj => ?_
    rw [getElem_cumulative hweights]
    exact decide_eq_true_iff.trans (h.end_le_iff hweights)
  -- the last entry is beyond the point, so that nothing is cut off
  rw [indexAt, hcount, hlength]
  omega

/-- A draw picks a move that wins if there is one. Otherwise it picks the move into whose share
of the total the point falls that the fraction stands for, if any move has a share; and a move
that does not lose, if there is one, in any case. -/
theorem pickBy_by_shares (fraction : RandomM K) (g : Generator)
    (hfraction : 0 ≤ (fraction g).1 ∧ (fraction g).1 < 1) (h : verdicts ≠ [])
    (hweights : ∀ w ∈ weights, 0 ≤ w) :
    let point := (fraction g).1 * shareStart verdicts weights verdicts.length
    ∃ i, (pickBy fraction verdicts weights g).1 = some i ∧ i < verdicts.length ∧
      (.win ∈ verdicts → verdicts[i]? = some .win) ∧
      (.win ∉ verdicts → (∃ j, Weighs verdicts weights j) →
        Weighs verdicts weights i ∧ ∀ j, Weighs verdicts weights j →
          (i = j ↔ shareStart verdicts weights j ≤ point ∧
            point < shareStart verdicts weights j + weights.getD j 0)) ∧
      (.win ∉ verdicts → (∃ v ∈ verdicts, v ≠ .loss) → verdicts[i]? ≠ some .loss) := by
  intro point
  have htotal := getLastD_cumulative hweights h
  have hnot : ∀ {i : Nat}, verdicts[i]? = some .win → ¬ Verdict.win ∉ verdicts := fun hwin hnone =>
    hnone (List.mem_of_getElem? hwin)
  obtain ⟨i, hi, hwin | ⟨hnone, hcases⟩⟩ := pickBy_cases fraction h weights g
  · exact ⟨i, hi, (List.getElem?_eq_some_iff.mp hwin).1, fun _ => hwin,
      fun hnone => absurd hnone (hnot hwin), fun hnone => absurd hnone (hnot hwin)⟩
  refine ⟨i, hi, ?_⟩
  rw [htotal] at hcases
  rcases hcases with ⟨hweighed, hindex⟩ | ⟨hweightless, hlt, hsafe⟩
  · have hpos : 0 < shareStart verdicts weights verdicts.length := by
      simpa [Weight.lt, Weight.isFinite, Weight.zero] using hweighed
    obtain ⟨k, -, hk⟩ := exists_inShare (mul_nonneg hfraction.1 hpos.le)
      (mul_lt_of_lt_one_left hpos hfraction.2)
    obtain rfl : i = k := hindex.trans (hk.indexAt_eq hweights)
    have hweighs := hk.weighs
    obtain ⟨⟨v, hv, hne⟩, -⟩ := id hweighs
    refine ⟨hweighs.lt_length, fun hmem => absurd hmem hnone, fun _ _ => ⟨hweighs, ?_⟩, ?_⟩
    · intro j hj
      rw [← hj.share_eq, ← shareStart_succ]
      constructor
      · rintro rfl
        exact hk
      · exact fun hpoint => hk.unique hpoint hweights
    · rw [hv]
      exact fun _ _ heq => hne (Option.some.inj heq)
  · have hnoWeight : ¬ ∃ j, Weighs verdicts weights j := by
      rw [← total_pos_iff hweights]
      simpa [Weight.lt, Weight.isFinite, Weight.zero] using hweightless
    exact ⟨hlt, fun hmem => absurd hmem hnone, fun _ hsome => absurd hsome hnoWeight,
      fun _ => hsafe⟩

/-- Moves that lose and moves without weight lie among those that are drawn: two thirds of the
total fall to the last move. -/
theorem pickBy_by_shares_last :
    let verdicts : List Verdict := [.loss, .open, .loss, .open, .open]
    let weights : List ℚ := [5, 1, 5, 0, 3]
    let fraction : RandomM ℚ := pure (2 / 3)
    let g : Generator := ⟨7⟩
    (0 ≤ (fraction g).1 ∧ (fraction g).1 < 1) ∧ verdicts ≠ [] ∧ (∀ w ∈ weights, 0 ≤ w) ∧
      .win ∉ verdicts ∧ Weighs verdicts weights 4 ∧
      (pickBy fraction verdicts weights g).1 = some 4 := by
  intro verdicts weights fraction g
  have hfraction : 0 ≤ (fraction g).1 ∧ (fraction g).1 < 1 := by decide +kernel
  have hne : verdicts ≠ [] := List.cons_ne_nil _ _
  have hweights : ∀ w ∈ weights, 0 ≤ w := by decide +kernel
  have hnone : .win ∉ verdicts := by decide
  have hlast : Weighs verdicts weights 4 := ⟨⟨.open, rfl, by decide⟩, by decide +kernel⟩
  obtain ⟨i, hi, -, -, hshares, -⟩ := pickBy_by_shares fraction g hfraction hne hweights
  have hpoint : shareStart verdicts weights 4 ≤ (fraction g).1 * shareStart verdicts weights 5 ∧
      (fraction g).1 * shareStart verdicts weights 5 <
        shareStart verdicts weights 4 + weights.getD 4 0 := by
    decide +kernel
  obtain rfl : i = 4 := ((hshares hnone ⟨4, hlast⟩).2 4 hlast).mpr hpoint
  exact ⟨hfraction, hne, hweights, hnone, hlast, hi⟩

end Sampling

end BoardGame
