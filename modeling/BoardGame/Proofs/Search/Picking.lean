import BoardGame.Search.Sampling
/-!
# Drawing a move

Whatever the weights are, a draw among some moves picks one of them, and a move that wins
at once if there is one. Of the numbers drawn nothing is needed for that but that one
below `n` is below it: a point that misses all shares falls into the last one.
-/

namespace BoardGame

open RandomM

namespace Sampling

theorem drawFrom_mem {indices : List Nat} (h : indices ≠ []) (g : Generator) :
    (drawFrom indices g).1 ∈ indices := by
  have hlt := Generator.below_lt (List.length_pos_iff.mpr h) g
  rw [drawFrom, fst_map fun i => indices.getD i 0, ← List.getElem_eq_getD (h := hlt)]
  exact List.getElem_mem hlt

theorem mem_indicesWhere {p : Verdict → Bool} {verdicts : List Verdict} {i : Nat} :
    i ∈ indicesWhere p verdicts ↔ ∃ v, verdicts[i]? = some v ∧ p v = true := by
  simp only [indicesWhere, List.mem_map, List.mem_filter, Prod.exists, List.mem_zipIdx_iff_getElem?]
  constructor
  · rintro ⟨v, j, ⟨hv, hp⟩, rfl⟩
    exact ⟨v, hv, hp⟩
  · rintro ⟨v, hv, hp⟩
    exact ⟨v, i, ⟨hv, hp⟩, rfl⟩

theorem indicesWhere_eq_nil {p : Verdict → Bool} {verdicts : List Verdict} :
    indicesWhere p verdicts = [] ↔ ∀ v ∈ verdicts, p v = false := by
  constructor
  · intro h v hv
    obtain ⟨i, hi⟩ := List.mem_iff_getElem?.mp hv
    refine Bool.eq_false_iff.mpr fun hp => ?_
    have hmem : i ∈ indicesWhere p verdicts := mem_indicesWhere.mpr ⟨v, hi, hp⟩
    rw [h] at hmem
    cases hmem
  · intro h
    refine List.eq_nil_iff_forall_not_mem.mpr fun i hi => ?_
    obtain ⟨v, hv, hp⟩ := mem_indicesWhere.mp hi
    rw [h v (List.mem_of_getElem? hv)] at hp
    cases hp

variable {α : Type} [Weight α]

theorem length_cumulative (total : α) (verdicts : List Verdict) (weights : List α) :
    (cumulative total verdicts weights).length = verdicts.length := by
  induction verdicts generalizing total weights with
  | nil => rfl
  | cons v rest ih => simp only [cumulative, List.length_cons, ih]

theorem indexAt_lt {cumulated : List α} (h : cumulated ≠ []) (point : α) :
    indexAt cumulated point < cumulated.length := by
  have := List.length_pos_iff.mpr h
  unfold indexAt
  omega

/-- How a draw among some moves can go: a move that wins is taken; else the cumulative weights
are looked up; and where they come to nothing, a move that does not lose is taken, if there is
one. -/
theorem pickBy_cases (fraction : RandomM α) {verdicts : List Verdict} (h : verdicts ≠ [])
    (weights : List α) (g : Generator) :
    let cumulated := cumulative Weight.zero verdicts weights
    let total := cumulated.getLastD Weight.zero
    let weighed := Weight.lt Weight.zero total && Weight.isFinite total
    ∃ i, (pickBy fraction verdicts weights g).1 = some i ∧
      (verdicts[i]? = some .win ∨ Verdict.win ∉ verdicts ∧
        (weighed = true ∧ i = indexAt cumulated ((fraction g).1 * total) ∨
          weighed = false ∧ i < verdicts.length ∧
            ((∃ v ∈ verdicts, v ≠ .loss) → verdicts[i]? ≠ some .loss))) := by
  intro cumulated total weighed
  unfold pickBy
  rw [if_neg (by simpa using h)]
  by_cases hwins : indicesWhere (· == .win) verdicts = []
  · have hwin : Verdict.win ∉ verdicts := fun hmem =>
      absurd (indicesWhere_eq_nil.mp hwins .win hmem) (by decide)
    rw [hwins]
    simp only [List.isEmpty_nil, Bool.not_true, Bool.false_eq_true, if_false]
    split
    next hweighed => exact ⟨_, fst_map _ fraction g, Or.inr ⟨hwin, Or.inl ⟨hweighed, rfl⟩⟩⟩
    next hweightless =>
      suffices hpick : ∃ i, _ = some i ∧ i < verdicts.length ∧
          ((∃ v ∈ verdicts, v ≠ .loss) → verdicts[i]? ≠ some .loss) by
        obtain ⟨i, hi, hlt, hsafe⟩ := hpick
        exact ⟨i, hi, Or.inr ⟨hwin, Or.inr ⟨Bool.eq_false_iff.mpr hweightless, hlt, hsafe⟩⟩⟩
      by_cases hsafe : indicesWhere (· != .loss) verdicts = []
      · rw [if_pos (by simpa using hsafe)]
        refine ⟨_, fst_map some _ g, Generator.below_lt (List.length_pos_iff.mpr h) g, ?_⟩
        rintro ⟨v, hv, hne⟩
        exact absurd (indicesWhere_eq_nil.mp hsafe v hv) (by simpa using hne)
      · rw [if_neg (by simpa using hsafe)]
        have hmem := drawFrom_mem hsafe g
        obtain ⟨v, hv, hne⟩ := mem_indicesWhere.mp hmem
        refine ⟨_, fst_map some _ g, (List.getElem?_eq_some_iff.mp hv).1, fun _ => ?_⟩
        rw [hv]
        simpa using hne
  · rw [if_pos (by simpa using hwins)]
    obtain ⟨v, hv, hwin⟩ := mem_indicesWhere.mp (drawFrom_mem hwins g)
    obtain rfl : v = .win := by simpa using hwin
    exact ⟨_, fst_map some _ g, Or.inl hv⟩

theorem pickBy_spec (fraction : RandomM α) {verdicts : List Verdict} (h : verdicts ≠ [])
    (weights : List α) (g : Generator) :
    ∃ i, (pickBy fraction verdicts weights g).1 = some i ∧ i < verdicts.length ∧
      (Verdict.win ∈ verdicts → verdicts[i]? = some .win) := by
  have hlength := length_cumulative Weight.zero verdicts weights
  obtain ⟨i, hi, hwin | ⟨hnone, ⟨-, rfl⟩ | ⟨-, hlt, -⟩⟩⟩ := pickBy_cases fraction h weights g
  · exact ⟨i, hi, (List.getElem?_eq_some_iff.mp hwin).1, fun _ => hwin⟩
  · have hcumulated : cumulative Weight.zero verdicts weights ≠ [] := by
      rw [← List.length_pos_iff, hlength]
      exact List.length_pos_iff.mpr h
    exact ⟨_, hi, hlength ▸ indexAt_lt hcumulated _, fun hmem => absurd hmem hnone⟩
  · exact ⟨i, hi, hlt, fun hmem => absurd hmem hnone⟩

end Sampling

theorem pickIndex_spec {verdicts : List Verdict} (h : verdicts ≠ []) (weights : List Float)
    (g : Generator) :
    ∃ i, (pickIndex verdicts weights g).1 = some i ∧ i < verdicts.length ∧
      (Verdict.win ∈ verdicts → verdicts[i]? = some .win) :=
  Sampling.pickBy_spec Generator.double h weights g

end BoardGame
