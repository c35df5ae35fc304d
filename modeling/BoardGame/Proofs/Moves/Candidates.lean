import BoardGame.Moves.Successors
import BoardGame.Proofs.Board
import BoardGame.Proofs.Failure
/-!
# Candidates of a position

What the template engine returns is said by its candidates alone: if every piece
that may move has a type and every candidate can be applied, the successors are
the results of the candidates of the highest priority.
-/

namespace BoardGame

namespace SetOp

/-- Whether a square is in a set after an operation, given whether it was in it before
and whether the other set has it. -/
def holds : SetOp → Bool → Bool → Bool
  | union, a, b => a || b
  | intersect, a, b => a && b
  | subtract, a, b => a && !b

end SetOp

namespace RuleSet

variable {rules : RuleSet} {pos : Position} {side : Side} {origin s : Square}

/-! ## Targets -/

theorem mem_combine {targets : List Square} {t : Template} :
    s ∈ rules.combine side origin targets t ↔
      t.op.holds (Decidable.decide (s ∈ targets)) (rules.covers side origin t s) = true := by
  unfold combine
  cases hop : t.op with
  | union =>
      simp only [List.mem_append, List.mem_filter, mem_templateSquares, SetOp.holds,
        Bool.or_eq_true, decide_eq_true_eq, Bool.not_eq_true', List.contains_eq_mem,
        decide_eq_false_iff_not]
      by_cases h : s ∈ targets <;> simp [h]
  | intersect => simp [SetOp.holds]
  | subtract => simp [SetOp.holds]

theorem mem_targetSquares {move : MoveRule} :
    s ∈ rules.targetSquares side origin move ↔
      move.templates.foldl (fun inside t => t.op.holds inside (rules.covers side origin t s))
        false = true := by
  have hfold : ∀ (templates : List Template) (targets : List Square),
      s ∈ templates.foldl (rules.combine side origin) targets ↔
        templates.foldl (fun inside t => t.op.holds inside (rules.covers side origin t s))
          (Decidable.decide (s ∈ targets)) = true := by
    intro templates
    induction templates with
    | nil => intro targets; simp
    | cons t rest ih =>
        intro targets
        rw [List.foldl_cons, List.foldl_cons, ih]
        have hstep : Decidable.decide (s ∈ rules.combine side origin targets t) =
            t.op.holds (Decidable.decide (s ∈ targets)) (rules.covers side origin t s) := by
          rw [Bool.eq_iff_iff, decide_eq_true_eq, mem_combine]
        rw [hstep]
  rw [targetSquares, hfold]
  simp

/-! ## Movers -/

/-- On a board of no more than 31 bits the movers are the own pieces on their squares. -/
theorem mem_boardMovers {m : Mover} (hsize : rules.boardSize < 0x80000000) :
    m ∈ rules.boardMovers pos ↔ m.origin.onBoard rules.boardSize = true ∧
      pos.read m.origin = m.piece ∧ m.piece.sign = pos.mover.sign := by
  obtain ⟨piece, x, y⟩ := m
  have hlines : rules.lines = List.range rules.boardSize := by
    rw [lines, edge, Square.coordinate_of_lt hsize, Int.toNat_natCast]
  simp only [boardMovers, hlines, List.mem_flatMap, List.mem_filterMap, List.mem_range,
    Option.ite_none_right_eq_some, Option.some.injEq, Mover.mk.injEq, Square.mk.injEq,
    Square.onBoard_iff]
  constructor
  · rintro ⟨j, hj, i, hi, hsign, rfl, rfl, rfl⟩
    exact ⟨by omega, rfl, hsign⟩
  · rintro ⟨⟨⟨hx, hy⟩, hx', hy'⟩, hread, hsign⟩
    have ex : (x.toNat : Int) = x := Int.toNat_of_nonneg hx
    have ey : (y.toNat : Int) = y := Int.toNat_of_nonneg hy
    refine ⟨y.toNat, by omega, x.toNat, by omega, ?_⟩
    rw [ex, ey, hread]
    exact ⟨hsign, rfl, rfl, rfl⟩

theorem mem_virtualMovers {m : Mover} (hsize : rules.boardSize < 0x80000000)
    (hpieces : rules.pieces.length ≤ maxPieceTypes) :
    m ∈ rules.virtualMovers pos ↔
      (∃ i < rules.pieces.length, m.piece = (i + 1) * pos.mover.sign) ∧
        (0 ≤ m.origin.x ∧ m.origin.x < rules.boardSize) ∧
        (m.origin.y = -1 ∨ m.origin.y = rules.boardSize) := by
  obtain ⟨piece, x, y⟩ := m
  have hedge : rules.edge = rules.boardSize := by rw [edge, Square.coordinate_of_lt hsize]
  have hlines : rules.lines = List.range rules.boardSize := by
    rw [lines, hedge, Int.toNat_natCast]
  have hcount : (Int.bmod rules.pieces.length 256).toNat = rules.pieces.length := by
    have hle : rules.pieces.length ≤ 127 := hpieces
    rw [Int.bmod_eq_of_le (by omega) (by omega), Int.toNat_natCast]
  simp only [virtualMovers, hlines, hcount, hedge, List.mem_flatMap, List.mem_range,
    List.mem_cons, List.not_mem_nil, or_false, Mover.mk.injEq, Square.mk.injEq]
  constructor
  · rintro ⟨j, hj, i, hi, ⟨rfl, rfl, rfl⟩ | ⟨rfl, rfl, rfl⟩⟩
    · exact ⟨⟨i, hi, rfl⟩, by omega, Or.inl rfl⟩
    · exact ⟨⟨i, hi, rfl⟩, by omega, Or.inr rfl⟩
  · rintro ⟨⟨i, hi, rfl⟩, ⟨hx, hx'⟩, hy⟩
    have ex : (x.toNat : Int) = x := Int.toNat_of_nonneg hx
    refine ⟨x.toNat, by omega, i, hi, ?_⟩
    rw [ex]
    exact hy.imp (fun h => ⟨rfl, rfl, h⟩) (fun h => ⟨rfl, rfl, h⟩)

/-! ## Priorities -/

theorem mem_ofHighestPriority {α : Type} {entries : List (Int × α)} {a : α} :
    a ∈ ofHighestPriority entries ↔ ∃ p, (p, a) ∈ entries ∧ ∀ e ∈ entries, e.1 ≤ p := by
  unfold ofHighestPriority
  cases hmax : (entries.map (·.1)).max? with
  | none =>
      have hnil : entries = [] := by simpa using hmax
      simp [hnil]
  | some top =>
      rw [List.max?_eq_some_iff] at hmax
      obtain ⟨hmem, hle⟩ := hmax
      simp only [List.mem_map, List.mem_filter, decide_eq_true_eq]
      constructor
      · rintro ⟨⟨p, b⟩, ⟨hb, rfl⟩, rfl⟩
        exact ⟨p, hb, fun e he => hle _ (List.mem_map_of_mem he)⟩
      · rintro ⟨p, ha, htop⟩
        obtain ⟨e, he, rfl⟩ := List.mem_map.mp hmem
        have h₁ := htop e he
        have h₂ := hle _ (List.mem_map_of_mem ha)
        exact ⟨(p, a), ⟨ha, Int.le_antisymm h₂ h₁⟩, rfl⟩

theorem ofHighestPriority_eq_nil {α : Type} {entries : List (Int × α)} :
    ofHighestPriority entries = [] ↔ entries = [] := by
  constructor
  · intro h
    cases hmax : (entries.map (·.1)).max? with
    | none => simpa using hmax
    | some top =>
        obtain ⟨hmem, hle⟩ := List.max?_eq_some_iff.mp hmax
        obtain ⟨⟨p, a⟩, he, rfl⟩ := List.mem_map.mp hmem
        have ha : a ∈ ofHighestPriority entries :=
          mem_ofHighestPriority.mpr ⟨p, he, fun e he' => hle _ (List.mem_map_of_mem he')⟩
        rw [h] at ha
        cases ha
  · rintro rfl
    rfl

theorem ofHighestPriority_eq {α : Type} (entries : List (Int × α)) :
    ofHighestPriority entries =
      (entries.filter fun e => entries.all fun d => Decidable.decide (d.1 ≤ e.1)).map (·.2) := by
  unfold ofHighestPriority
  cases hmax : (entries.map (·.1)).max? with
  | none =>
      have hnil : entries = [] := by simpa using hmax
      rw [hnil]
      rfl
  | some top =>
      obtain ⟨hmem, hle⟩ := List.max?_eq_some_iff.mp hmax
      obtain ⟨best, hbest, rfl⟩ := List.mem_map.mp hmem
      dsimp only
      congr 1
      apply List.filter_congr
      intro e he
      rw [Bool.eq_iff_iff, decide_eq_true_iff, List.all_eq_true]
      simp only [decide_eq_true_iff]
      constructor
      · intro heq d hd
        rw [heq]
        exact hle _ (List.mem_map_of_mem hd)
      · intro hall
        exact Int.le_antisymm (hle _ (List.mem_map_of_mem he)) (hall best hbest)

theorem ofHighestPriority_perm {α : Type} {entries entries' : List (Int × α)}
    (h : entries.Perm entries') :
    (ofHighestPriority entries).Perm (ofHighestPriority entries') := by
  have hsame (e : Int × α) : (entries.all fun d => Decidable.decide (d.1 ≤ e.1)) =
      entries'.all fun d => Decidable.decide (d.1 ≤ e.1) := by
    rw [Bool.eq_iff_iff, List.all_eq_true, List.all_eq_true]
    exact forall_congr' fun d => by rw [h.mem_iff]
  rw [ofHighestPriority_eq, ofHighestPriority_eq]
  simp only [hsame]
  exact (h.filter _).map _

theorem ofHighestPriority_map {α β : Type} (g : α → β) (entries : List (Int × α)) :
    ofHighestPriority (entries.map fun e => (e.1, g e.2)) = (ofHighestPriority entries).map g := by
  rw [ofHighestPriority_eq, ofHighestPriority_eq]
  simp only [List.filter_map, List.map_map, List.all_map]
  rfl

/-! ## Successors -/

/-- Admissible moves of one piece. A piece without a type has none. -/
def candidatesAt (rules : RuleSet) (pos : Position) (m : Mover) : List Candidate :=
  match rules.pieceType? m.piece with
  | none => []
  | some type => type.moves.flatMap (rules.candidatesBy pos m)

/-- Admissible moves of all pieces, in order. -/
def allCandidates (rules : RuleSet) (pos : Position) : List Candidate :=
  (rules.movers pos).flatMap (rules.candidatesAt pos)

theorem mem_candidatesAt {m : Mover} {c : Candidate} :
    c ∈ rules.candidatesAt pos m ↔ ∃ type, rules.pieceType? m.piece = some type ∧
      c.rule ∈ type.moves ∧ c.target ∈ rules.targetSquares pos.mover m.origin c.rule ∧
      c.piece = m.piece ∧ c.origin = m.origin ∧ c.admissible pos = true := by
  obtain ⟨piece, origin, target, rule⟩ := c
  unfold candidatesAt
  cases rules.pieceType? m.piece with
  | none => simp
  | some type =>
      simp only [List.mem_flatMap, candidatesBy, List.mem_filter, List.mem_map,
        Candidate.mk.injEq, Option.some.injEq]
      constructor
      · rintro ⟨r, hr, ⟨t, ht, rfl, rfl, rfl, rfl⟩, hadm⟩
        exact ⟨type, rfl, hr, ht, rfl, rfl, hadm⟩
      · rintro ⟨_, rfl, hr, ht, rfl, rfl, hadm⟩
        exact ⟨rule, hr, ⟨target, ht, rfl, rfl, rfl, rfl⟩, hadm⟩

theorem candidates_eq {m : Mover} (htype : (rules.pieceType? m.piece).isSome = true) :
    rules.candidates pos m = .ok (rules.candidatesAt pos m) := by
  obtain ⟨type, htype⟩ := Option.isSome_iff_exists.mp htype
  simp only [candidates, pieceType, candidatesAt, htype]
  rfl

theorem successors_eq {f : Candidate → Position}
    (htypes : ∀ m ∈ rules.movers pos, (rules.pieceType? m.piece).isSome = true)
    (happly : ∀ c ∈ rules.allCandidates pos, c.apply rules pos = .ok (f c)) :
    rules.successors pos =
      .ok (ofHighestPriority ((rules.allCandidates pos).map fun c => (c.rule.priority, f c))) := by
  let entriesOf (m : Mover) : List (Int × Position) :=
    (rules.candidatesAt pos m).map fun c : Candidate => (c.rule.priority, f c)
  have hmoves : ∀ m ∈ rules.movers pos, rules.movesOf pos m = .ok (entriesOf m) := by
    intro m hm
    rw [movesOf, candidates_eq (htypes m hm)]
    apply mapM_eq_ok
    intro c hc
    rw [happly c (List.mem_flatMap.mpr ⟨m, hm, hc⟩)]
    rfl
  rw [successors, mapM_eq_ok hmoves]
  change Except.ok _ = _
  rw [allCandidates, List.map_flatMap, List.flatMap_def]

/-- If every candidate can be applied, the successors are what the candidates of the
highest priority lead to. -/
theorem exists_successors
    (htypes : ∀ m ∈ rules.movers pos, (rules.pieceType? m.piece).isSome = true)
    (happly : ∀ c ∈ rules.allCandidates pos, ∃ q, c.apply rules pos = .ok q) :
    ∃ next, rules.successors pos = .ok next ∧
      ∀ q, q ∈ next ↔ ∃ c ∈ rules.allCandidates pos, c.apply rules pos = .ok q ∧
        ∀ c' ∈ rules.allCandidates pos, c'.rule.priority ≤ c.rule.priority := by
  let result (c : Candidate) : Position := ((c.apply rules pos).toOption).getD pos
  have hresult : ∀ c ∈ rules.allCandidates pos, c.apply rules pos = .ok (result c) := by
    intro c hc
    obtain ⟨q, hq⟩ := happly c hc
    simp [result, hq, Except.toOption]
  refine ⟨_, successors_eq htypes hresult, fun q => ?_⟩
  rw [mem_ofHighestPriority]
  constructor
  · rintro ⟨p, hmem, htop⟩
    obtain ⟨c, hc, heq⟩ := List.mem_map.mp hmem
    obtain ⟨rfl, rfl⟩ := Prod.mk.inj heq
    exact ⟨c, hc, hresult c hc, fun c' hc' => htop _ (List.mem_map_of_mem hc')⟩
  · rintro ⟨c, hc, hq, htop⟩
    rw [hresult c hc, Except.ok.injEq] at hq
    refine ⟨c.rule.priority, List.mem_map.mpr ⟨c, hc, by rw [hq]⟩, ?_⟩
    intro e he
    obtain ⟨c', hc', rfl⟩ := List.mem_map.mp he
    exact htop c' hc'

end RuleSet

end BoardGame
