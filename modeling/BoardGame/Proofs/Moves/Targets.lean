import Mathlib.Data.Set.Basic
import Mathlib.Data.List.Nodup
import BoardGame.Proofs.Ray
import BoardGame.Proofs.Moves.Candidates
/-!
# Sets of targets

The targets of a move rule are listed once each, and they are the set that the rule's
templates describe when they are taken from left to right: united with the squares
before, intersected with them, or taken away from them. The squares on the way to a
target are those that a ray to it passes.
-/

namespace BoardGame

/-! ## No square twice -/

namespace Pattern

theorem nodup_quarterTurns {i j : Int} (hj : 0 < j) : (quarterTurns i j).Nodup := by
  simp only [quarterTurns, List.nodup_cons, List.mem_cons, Square.mk.injEq, List.not_mem_nil,
    or_false, not_false_eq_true, List.nodup_nil, and_true]
  omega

/-- A square is a quarter turn of one offset only, that of its quadrant. -/
theorem eq_of_mem_quarterTurns {i j i' j' : Int} (hi : 0 ≤ i) (hj : 0 < j) (hi' : 0 ≤ i')
    (hj' : 0 < j') {d : Square} (h : d ∈ quarterTurns i j) (h' : d ∈ quarterTurns i' j') :
    i = i' ∧ j = j' := by
  rw [mem_quarterTurns] at h h'
  omega

theorem nodup_squareOffsets (n : Int) : (squareOffsets n).Nodup := by
  refine List.nodup_flatMap.mpr ⟨fun i _ => List.nodup_flatMap.mpr ⟨?_, ?_⟩, ?_⟩
  · intro j hj
    have hpos := (List.mem_range'_1.mp hj).1
    exact nodup_quarterTurns (by omega)
  · refine List.Pairwise.imp_of_mem ?_ (List.nodup_range' 1 : (List.range' 1 _ 1).Nodup)
    intro j j' hj hj' hne d hd hd'
    have hpos := (List.mem_range'_1.mp hj).1
    have hpos' := (List.mem_range'_1.mp hj').1
    have heq := (eq_of_mem_quarterTurns (by omega) (by omega) (by omega) (by omega) hd hd').2
    omega
  · refine List.Pairwise.imp_of_mem ?_ List.nodup_range
    intro i i' _ _ hne d hd hd'
    obtain ⟨j, hj, hd⟩ := List.mem_flatMap.mp hd
    obtain ⟨j', hj', hd'⟩ := List.mem_flatMap.mp hd'
    have hpos := (List.mem_range'_1.mp hj).1
    have hpos' := (List.mem_range'_1.mp hj').1
    have heq := (eq_of_mem_quarterTurns (by omega) (by omega) (by omega) (by omega) hd hd').1
    omega

theorem nodup_rays {lean : Nat → Int} (hlean : ∀ j, 0 ≤ lean j) (n : Nat) :
    ((List.range' 1 n).flatMap fun (j : Nat) => quarterTurns (lean j) j).Nodup := by
  refine List.nodup_flatMap.mpr ⟨?_, ?_⟩
  · intro j hj
    have hpos := (List.mem_range'_1.mp hj).1
    exact nodup_quarterTurns (by omega)
  · refine List.Pairwise.imp_of_mem ?_ (List.nodup_range' 1 : (List.range' 1 _ 1).Nodup)
    intro j j' hj hj' hne d hd hd'
    have hpos := (List.mem_range'_1.mp hj).1
    have hpos' := (List.mem_range'_1.mp hj').1
    have heq := (eq_of_mem_quarterTurns (hlean j) (by omega) (hlean j') (by omega) hd hd').2
    omega

end Pattern

/-- What an operation makes of a set and the squares of a template. -/
def SetOp.combine : SetOp → Set Square → Set Square → Set Square
  | union, a, b => a ∪ b
  | intersect, a, b => a ∩ b
  | subtract, a, b => a \ b

namespace RuleSet

variable {rules : RuleSet} {side : Side} {origin s : Square}

theorem nodup_templateSquares (t : Template) : (rules.templateSquares side origin t).Nodup := by
  have hinjective : Function.Injective (origin + · : Square → Square) := by
    intro a b hab
    change origin + a = origin + b at hab
    rw [← Square.add_sub_cancel_left origin a, hab, Square.add_sub_cancel_left]
  have hforward (n sign : Int) : (Pattern.forwardOffsets n sign).Nodup :=
    (Pattern.nodup_squareOffsets n).filter _
  unfold templateSquares
  cases t.pattern with
  | square => exact (Pattern.nodup_squareOffsets _).map hinjective
  | plus => exact (Pattern.nodup_rays (fun _ => Int.le_refl 0) _).map hinjective
  | cross => exact (Pattern.nodup_rays (fun j => Int.natCast_nonneg j) _).map hinjective
  | forward => exact (hforward _ _).map hinjective
  | backward => exact (hforward _ _).map hinjective
  | pass => exact List.nodup_singleton origin
  | rank =>
      refine List.nodup_range.map fun a b hab => ?_
      exact Int.ofNat_inj.mp (Square.mk.inj hab).1

theorem nodup_combine {targets : List Square} (h : targets.Nodup) (t : Template) :
    (rules.combine side origin targets t).Nodup := by
  unfold combine
  cases t.op with
  | union =>
      refine List.nodup_append.mpr ⟨h, (nodup_templateSquares t).filter _, ?_⟩
      intro a ha b hb hab
      simpa [← hab, ha] using (List.mem_filter.mp hb).2
  | intersect => exact h.filter _
  | subtract => exact h.filter _

theorem nodup_targetSquares (move : MoveRule) :
    (rules.targetSquares side origin move).Nodup := by
  have hfold : ∀ (templates : List Template) (targets : List Square), targets.Nodup →
      (templates.foldl (rules.combine side origin) targets).Nodup := by
    intro templates
    induction templates with
    | nil => exact fun _ h => h
    | cons t rest ih => exact fun targets h => ih _ (nodup_combine h t)
  exact hfold _ _ List.nodup_nil

/-! ## The set that templates describe -/

/-- The squares of a move rule's templates, combined as sets from left to right. -/
def targetSet (rules : RuleSet) (side : Side) (origin : Square) (move : MoveRule) : Set Square :=
  move.templates.foldl
    (fun squares t => t.op.combine squares {s | s ∈ rules.templateSquares side origin t}) ∅

theorem mem_targetSet {move : MoveRule} :
    s ∈ rules.targetSet side origin move ↔ s ∈ rules.targetSquares side origin move := by
  have hstep (t : Template) (squares : Set Square) (targets : List Square)
      (h : ∀ s, s ∈ squares ↔ s ∈ targets) (s : Square) :
      s ∈ t.op.combine squares {s | s ∈ rules.templateSquares side origin t} ↔
        s ∈ rules.combine side origin targets t := by
    rw [mem_combine]
    cases t.op <;> simp [SetOp.combine, SetOp.holds, h, mem_templateSquares]
  have hfold : ∀ (templates : List Template) (squares : Set Square) (targets : List Square),
      (∀ s, s ∈ squares ↔ s ∈ targets) → ∀ s,
      s ∈ templates.foldl (fun squares t =>
        t.op.combine squares {s | s ∈ rules.templateSquares side origin t}) squares ↔
        s ∈ templates.foldl (rules.combine side origin) targets := by
    intro templates
    induction templates with
    | nil => exact fun _ _ h => h
    | cons t rest ih => exact fun squares targets h => ih _ _ (hstep t squares targets h)
  exact hfold _ ∅ [] (by simp) s

end RuleSet

/-! ## Squares on the way -/

namespace Square

/-- `s` lies strictly between two squares of one row, column or diagonal. -/
def Inside (origin target s : Square) : Prop :=
  ∃ d ∈ directions, ∃ i n, (0 < i ∧ i < n) ∧ target = ray origin d n ∧ s = ray origin d i

theorem mem_between_iff {origin target s : Square} :
    s ∈ between origin target ↔ Inside origin target s := by
  constructor
  · intro h
    have hne : origin ≠ target := by
      rintro rfl
      simp [between] at h
    have hline : target.x = origin.x ∨ target.y = origin.y ∨
        (target.x - origin.x).natAbs = (target.y - origin.y).natAbs := by
      by_contra hnone
      unfold between at h
      rw [if_pos (by omega)] at h
      cases h
    obtain ⟨d, hd, heq⟩ := exists_ray hne hline
    have hpos : 0 < max (target.x - origin.x).natAbs (target.y - origin.y).natAbs := by
      by_contra hzero
      rw [Nat.eq_zero_of_not_pos hzero, ray_zero] at heq
      exact hne heq.symm
    generalize max (target.x - origin.x).natAbs (target.y - origin.y).natAbs = n at heq hpos
    rw [heq, mem_between_ray hd hpos] at h
    obtain ⟨i, hi, hs⟩ := h
    exact ⟨d, hd, i, n, hi, heq, hs.symm⟩
  · rintro ⟨d, hd, i, n, hi, rfl, rfl⟩
    exact (mem_between_ray hd (by omega)).mpr ⟨i, hi, rfl⟩

theorem not_inside_origin (origin target : Square) : ¬ Inside origin target origin := by
  rintro ⟨d, hd, i, n, hi, -, hs⟩
  exact ray_ne_self hd hi.1 hs.symm

theorem not_inside_target (origin target : Square) : ¬ Inside origin target target := by
  rintro ⟨d, hd, i, n, hi, htarget, hs⟩
  obtain ⟨-, heq⟩ := ray_inj hd hd (by omega) hi.1 (htarget.symm.trans hs)
  omega

end Square

end BoardGame
