import BoardGame.BuiltIn
import BoardGame.Proofs.Failure
import BoardGame.Proofs.Rules.Validity
import BoardGame.Proofs.Moves.Targets
/-!
# What is generated

A choice is a piece with the square it comes from, one of its move rules and a target.
The open choices of a position are told by the rules alone: the target is in the set of
the rule's templates, and the two policies let the piece land there and pass what lies
between. The successors are the results of the open choices of the highest priority,
one for each, in the order in which pieces, rules and targets are gone through.
-/

namespace BoardGame

namespace RuleSet

/-- A piece that may move: one of the side to move, or a virtual one of any type above or
below a column. -/
def IsMover (rules : RuleSet) (pos : Position) (m : Mover) : Prop :=
  match rules.moveSource with
  | .piecesOnBoard => pos.onBoard m.origin = true ∧ pos.cell m.origin = m.piece ∧
      m.piece.sign = pos.mover.sign
  | .ends => (∃ i < rules.pieces.length, m.piece = (i + 1) * pos.mover.sign) ∧
      (0 ≤ m.origin.x ∧ m.origin.x < rules.boardSize) ∧
      (m.origin.y = -1 ∨ m.origin.y = rules.boardSize)

end RuleSet

/-- Pieces are gone through rank by rank, virtual ones column by column and type by type
from below and from above. -/
def Mover.Before (source : MoveSource) (a b : Mover) : Prop :=
  match source with
  | .piecesOnBoard =>
    a.origin.y < b.origin.y ∨ a.origin.y = b.origin.y ∧ a.origin.x < b.origin.x
  | .ends =>
    a.origin.x < b.origin.x ∨ a.origin.x = b.origin.x ∧
      (a.piece.natAbs < b.piece.natAbs ∨ a.piece.natAbs = b.piece.natAbs ∧
        a.origin.y < b.origin.y)

structure Choice where
  mover : Mover
  /-- Number of the rule among those of the piece. -/
  index : Nat
  rule : MoveRule
  target : Square

namespace Choice

def candidate (c : Choice) : Candidate :=
  ⟨c.mover.piece, c.mover.origin, c.target, c.rule⟩

/-- Whether the rules let the choice be made. -/
structure Open (rules : RuleSet) (pos : Position) (c : Choice) : Prop where
  mover : rules.IsMover pos c.mover
  rule : ∃ type, rules.pieceType? c.mover.piece = some type ∧ type.moves[c.index]? = some c.rule
  onBoard : pos.onBoard c.target = true
  target : c.target ∈ rules.targetSet pos.mover c.mover.origin c.rule
  land : c.rule.land.get (Occupant.classify (pos.cell c.target) c.mover.piece) ≠ .disallowed
  jump : ∀ s, Square.Inside c.mover.origin c.target s →
    c.rule.jump.get (Occupant.classify (pos.cell s) c.mover.piece) ≠ .disallowed

/-- Pieces come before rules and rules before targets. -/
def Before (rules : RuleSet) (pos : Position) (a b : Choice) : Prop :=
  a.mover.Before rules.moveSource b.mover ∨ a.mover = b.mover ∧
    (a.index < b.index ∨ a.index = b.index ∧
      let targets := rules.targetSquares pos.mover a.mover.origin a.rule
      targets.idxOf a.target < targets.idxOf b.target)

/-- Whether no choice of a list has a higher priority. -/
def isTop (choices : List Choice) (c : Choice) : Bool :=
  choices.all fun d => d.rule.priority ≤ c.rule.priority

end Choice

theorem Mover.not_before_self {source : MoveSource} (m : Mover) : ¬m.Before source m := by
  unfold Mover.Before
  cases source <;> simp

theorem Choice.not_before_self {rules : RuleSet} {pos : Position} (c : Choice) :
    ¬c.Before rules pos c := by
  unfold Choice.Before
  simp [c.mover.not_before_self]

namespace RuleSet

variable {rules : RuleSet} {pos : Position}

/-! ## The pieces in order -/

theorem isMover_of_mem (hboard : rules.boardSize < 0x80000000)
    (hpieces : rules.pieces.length ≤ maxPieceTypes) (hsize : pos.size = rules.boardSize)
    {m : Mover} : m ∈ rules.movers pos ↔ rules.IsMover pos m := by
  unfold movers IsMover
  cases rules.moveSource with
  | piecesOnBoard =>
      rw [mem_boardMovers hboard, Position.onBoard, hsize]
      constructor
      · rintro ⟨hon, hread, hsign⟩
        exact ⟨hon, by rw [Position.cell, Position.onBoard, hsize, if_pos hon, hread], hsign⟩
      · rintro ⟨hon, hcell, hsign⟩
        rw [Position.cell, Position.onBoard, hsize, if_pos hon] at hcell
        exact ⟨hon, hcell, hsign⟩
  | ends => exact mem_virtualMovers hboard hpieces

theorem origin_eq_of_eq_some {x y : Nat} {m : Mover}
    (h : (if (pos.read ⟨x, y⟩).sign = pos.mover.sign then some (Mover.mk (pos.read ⟨x, y⟩) ⟨x, y⟩)
      else none) = some m) : m.origin = ⟨x, y⟩ := by
  obtain ⟨-, hm⟩ := Option.ite_none_right_eq_some.mp h
  rw [← Option.some.inj hm]

theorem pairwise_boardMovers (rules : RuleSet) (pos : Position) :
    (rules.boardMovers pos).Pairwise (Mover.Before .piecesOnBoard) := by
  refine List.pairwise_flatMap.mpr ⟨fun y _ => ?_, ?_⟩
  · refine List.pairwise_filterMap.mpr (List.pairwise_lt_range.imp ?_)
    intro x x' hlt m hm m' hm'
    have hx : m.origin = ⟨x, y⟩ := origin_eq_of_eq_some hm
    have hx' : m'.origin = ⟨x', y⟩ := origin_eq_of_eq_some hm'
    refine Or.inr ?_
    rw [hx, hx']
    exact ⟨rfl, Int.ofNat_lt.mpr hlt⟩
  · refine List.pairwise_lt_range.imp ?_
    intro y y' hlt m hm m' hm'
    obtain ⟨x, -, hm⟩ := List.mem_filterMap.mp hm
    obtain ⟨x', -, hm'⟩ := List.mem_filterMap.mp hm'
    have hy : m.origin = ⟨x, y⟩ := origin_eq_of_eq_some hm
    have hy' : m'.origin = ⟨x', y'⟩ := origin_eq_of_eq_some hm'
    refine Or.inl ?_
    rw [hy, hy']
    exact Int.ofNat_lt.mpr hlt

theorem pairwise_virtualMovers (hboard : rules.boardSize < 0x80000000) (pos : Position) :
    (rules.virtualMovers pos).Pairwise (Mover.Before .ends) := by
  have hedge : rules.edge = rules.boardSize := by rw [edge, Square.coordinate_of_lt hboard]
  have habs (i : Nat) : (((i : Int) + 1) * pos.mover.sign).natAbs = i + 1 := by
    rw [Int.natAbs_mul, Side.natAbs_sign, Nat.mul_one]
    omega
  refine List.pairwise_flatMap.mpr ⟨fun x _ => List.pairwise_flatMap.mpr ⟨fun i _ => ?_, ?_⟩, ?_⟩
  · -- the one from below comes before the one from above
    rw [List.pairwise_pair]
    refine Or.inr ⟨rfl, Or.inr ⟨rfl, ?_⟩⟩
    show (-1 : Int) < rules.edge
    omega
  · refine List.pairwise_lt_range.imp ?_
    intro i i' hlt m hm m' hm'
    simp only [List.mem_cons, List.not_mem_nil, or_false] at hm hm'
    refine Or.inr ?_
    rcases hm with rfl | rfl <;> rcases hm' with rfl | rfl <;>
      exact ⟨rfl, Or.inl (by rw [habs, habs]; omega)⟩
  · refine List.pairwise_lt_range.imp ?_
    intro x x' hlt m hm m' hm'
    simp only [List.mem_flatMap, List.mem_cons, List.not_mem_nil, or_false] at hm hm'
    obtain ⟨i, -, hm⟩ := hm
    obtain ⟨i', -, hm'⟩ := hm'
    refine Or.inl ?_
    rcases hm with rfl | rfl <;> rcases hm' with rfl | rfl <;> exact Int.ofNat_lt.mpr hlt

theorem pairwise_movers (hboard : rules.boardSize < 0x80000000) (pos : Position) :
    (rules.movers pos).Pairwise (Mover.Before rules.moveSource) := by
  unfold movers
  cases rules.moveSource with
  | piecesOnBoard => exact pairwise_boardMovers rules pos
  | ends => exact pairwise_virtualMovers hboard pos

/-! ## The choices in order -/

/-- Admissible moves of one piece by one of its rules, with the number of the rule. -/
def choicesBy (rules : RuleSet) (pos : Position) (m : Mover) (numbered : MoveRule × Nat) :
    List Choice :=
  ((rules.targetSquares pos.mover m.origin numbered.1).map fun target =>
    Choice.mk m numbered.2 numbered.1 target).filter (·.candidate.admissible pos)

def choicesAt (rules : RuleSet) (pos : Position) (m : Mover) : List Choice :=
  match rules.pieceType? m.piece with
  | none => []
  | some type => type.moves.zipIdx.flatMap (rules.choicesBy pos m)

def choices (rules : RuleSet) (pos : Position) : List Choice :=
  (rules.movers pos).flatMap (rules.choicesAt pos)

theorem map_candidate_choicesAt {m : Mover} : (rules.choicesAt pos m).map Choice.candidate =
    rules.candidatesAt pos m := by
  have hby (numbered : MoveRule × Nat) :
      (rules.choicesBy pos m numbered).map Choice.candidate =
        rules.candidatesBy pos m numbered.1 := by
    rw [choicesBy, candidatesBy, List.filter_map, List.filter_map, List.map_map]
    rfl
  unfold choicesAt candidatesAt
  cases rules.pieceType? m.piece with
  | none => rfl
  | some type =>
      dsimp only
      rw [List.map_flatMap, funext hby]
      conv_rhs => rw [← List.zipIdx_map_fst 0 type.moves, List.flatMap_map]

theorem mem_choicesAt {m : Mover} {c : Choice} :
    c ∈ rules.choicesAt pos m ↔ c.mover = m ∧
      (∃ type, rules.pieceType? m.piece = some type ∧ type.moves[c.index]? = some c.rule) ∧
      c.target ∈ rules.targetSquares pos.mover m.origin c.rule ∧
      c.candidate.admissible pos = true := by
  obtain ⟨mover, index, rule, target⟩ := c
  unfold choicesAt
  cases rules.pieceType? m.piece with
  | none => simp
  | some type =>
      simp only [List.mem_flatMap, choicesBy, List.mem_filter, List.mem_map, Prod.exists,
        List.mem_zipIdx_iff_getElem?, Choice.mk.injEq, Option.some.injEq, exists_eq_left']
      constructor
      · rintro ⟨rule, index, hrule, ⟨target, htarget, rfl, rfl, rfl, rfl⟩, hadm⟩
        exact ⟨rfl, hrule, htarget, hadm⟩
      · rintro ⟨rfl, hrule, htarget, hadm⟩
        exact ⟨rule, index, hrule, ⟨target, htarget, rfl, rfl, rfl, rfl⟩, hadm⟩

theorem mem_choices (hboard : rules.boardSize < 0x80000000)
    (hpieces : rules.pieces.length ≤ maxPieceTypes) (hsize : pos.size = rules.boardSize)
    {c : Choice} : c ∈ rules.choices pos ↔ c.Open rules pos := by
  simp only [choices, List.mem_flatMap, mem_choicesAt, isMover_of_mem hboard hpieces hsize,
    Candidate.admissible, Bool.and_eq_true, Candidate.mayLand, Candidate.mayJump, bne_iff_ne,
    List.all_eq_true, Square.mem_between_iff, Choice.candidate]
  have hcell (h : pos.onBoard c.target = true) : pos.cell c.target = pos.read c.target := by
    rw [Position.cell, if_pos h]
  constructor
  · rintro ⟨m, hm, rfl, hrule, htarget, ⟨hon, hland⟩, hjump⟩
    exact ⟨hm, hrule, hon, mem_targetSet.mpr htarget, by rwa [hcell hon], hjump⟩
  · intro h
    refine ⟨c.mover, h.mover, rfl, h.rule, mem_targetSet.mp h.target, ⟨h.onBoard, ?_⟩, h.jump⟩
    rw [← hcell h.onBoard]
    exact h.land

theorem pairwise_choicesBy (m : Mover) (numbered : MoveRule × Nat) :
    (rules.choicesBy pos m numbered).Pairwise (Choice.Before rules pos) := by
  have hnodup : (rules.targetSquares pos.mover m.origin numbered.1).Nodup :=
    nodup_targetSquares numbered.1
  refine (List.pairwise_map.mpr ?_).filter _
  refine List.pairwise_iff_getElem.mpr fun i j hi hj hij => ?_
  refine Or.inr ⟨rfl, Or.inr ⟨rfl, ?_⟩⟩
  dsimp only
  rw [hnodup.idxOf_getElem i hi, hnodup.idxOf_getElem j hj]
  exact hij

theorem pairwise_choicesAt (m : Mover) :
    (rules.choicesAt pos m).Pairwise (Choice.Before rules pos) := by
  unfold choicesAt
  cases rules.pieceType? m.piece with
  | none => exact List.Pairwise.nil
  | some type =>
      have hnumbers : type.moves.zipIdx.Pairwise fun a b => a.2 < b.2 := by
        rw [← List.pairwise_map (f := Prod.snd), List.zipIdx_map_snd]
        exact List.pairwise_lt_range' _
      refine List.pairwise_flatMap.mpr ⟨fun numbered _ => pairwise_choicesBy m numbered, ?_⟩
      refine hnumbers.imp ?_
      intro a b hlt c hc d hd
      obtain ⟨_, -, rfl⟩ := List.mem_map.mp (List.mem_filter.mp hc).1
      obtain ⟨_, -, rfl⟩ := List.mem_map.mp (List.mem_filter.mp hd).1
      exact Or.inr ⟨rfl, Or.inl hlt⟩

theorem pairwise_choices (hboard : rules.boardSize < 0x80000000) (pos : Position) :
    (rules.choices pos).Pairwise (Choice.Before rules pos) := by
  refine List.pairwise_flatMap.mpr ⟨fun m _ => pairwise_choicesAt m, ?_⟩
  refine (pairwise_movers hboard pos).imp ?_
  intro a b hbefore c hc d hd
  rw [mem_choicesAt] at hc hd
  refine Or.inl ?_
  rw [hc.1, hd.1]
  exact hbefore

theorem nodup_choices (hboard : rules.boardSize < 0x80000000) (pos : Position) :
    (rules.choices pos).Nodup := by
  refine (pairwise_choices hboard pos).imp fun {a b} hbefore heq => ?_
  subst heq
  exact a.not_before_self hbefore

/-! ## Playing the choices -/

/-- The result of a choice with its priority. -/
def entry (rules : RuleSet) (pos : Position) (c : Choice) : Except RuleError (Int × Position) := do
  return (c.rule.priority, ← c.candidate.apply rules pos)

theorem entry_eq_ok {c : Choice} {e : Int × Position} :
    rules.entry pos c = .ok e ↔ e.1 = c.rule.priority ∧ c.candidate.apply rules pos = .ok e.2 := by
  unfold entry
  rw [bind_eq_ok]
  constructor
  · rintro ⟨q, hq, he⟩
    rw [← Except.ok.inj he]
    exact ⟨rfl, hq⟩
  · rintro ⟨hpriority, hq⟩
    exact ⟨e.2, hq, by rw [← hpriority]; rfl⟩

/-- Playing piece by piece is playing the choices one after the other. -/
theorem successors_eq_mapM
    (htypes : ∀ m ∈ rules.movers pos, (rules.pieceType? m.piece).isSome = true) :
    rules.successors pos = ofHighestPriority <$> (rules.choices pos).mapM (rules.entry pos) := by
  have hmoves : ∀ m ∈ rules.movers pos,
      rules.movesOf pos m = (rules.choicesAt pos m).mapM (rules.entry pos) := by
    intro m hm
    have hplay : (fun c : Candidate => do return (c.rule.priority, ← c.apply rules pos)) ∘
        Choice.candidate = rules.entry pos := rfl
    have hmap : (rules.choicesAt pos m).map Choice.candidate = rules.candidatesAt pos m :=
      map_candidate_choicesAt
    rw [movesOf, candidates_eq (htypes m hm), ← hplay, ← List.mapM_map, hmap]
    rfl
  rw [choices, mapM_flatMap, successors, mapM_congr hmoves]
  cases (rules.movers pos).mapM fun m => (rules.choicesAt pos m).mapM (rules.entry pos) <;> rfl

theorem successors_eq_ok {next : List Position} :
    rules.successors pos = .ok next ↔
      (∀ m ∈ rules.movers pos, (rules.pieceType? m.piece).isSome = true) ∧
        ∃ entries, (rules.choices pos).mapM (rules.entry pos) = .ok entries ∧
          ofHighestPriority entries = next := by
  constructor
  · intro h
    have htypes : ∀ m ∈ rules.movers pos, (rules.pieceType? m.piece).isSome = true := by
      intro m hm
      obtain ⟨entries, hentries, -⟩ := bind_eq_ok.mp h
      obtain ⟨_, -, hmoves⟩ := exists_eq_ok_of_mapM hentries hm
      obtain ⟨_, hcandidates, -⟩ := bind_eq_ok.mp hmoves
      obtain ⟨type, htype, -⟩ := bind_eq_ok.mp hcandidates
      unfold pieceType at htype
      cases hsome : rules.pieceType? m.piece with
      | some _ => rfl
      | none =>
          rw [hsome] at htype
          cases htype
    refine ⟨htypes, ?_⟩
    rw [successors_eq_mapM htypes] at h
    cases hentries : (rules.choices pos).mapM (rules.entry pos) with
    | error e =>
        rw [hentries] at h
        cases h
    | ok entries =>
        rw [hentries] at h
        exact ⟨entries, rfl, Except.ok.inj h⟩
  · rintro ⟨htypes, entries, hentries, rfl⟩
    rw [successors_eq_mapM htypes, hentries]
    rfl

theorem exists_choice_of_mem_successors {next : List Position}
    (h : rules.successors pos = .ok next) {a : Position} (ha : a ∈ next) :
    ∃ c ∈ rules.choices pos, c.candidate.apply rules pos = .ok a := by
  obtain ⟨-, entries, hentries, rfl⟩ := successors_eq_ok.mp h
  obtain ⟨priority, hmem, -⟩ := mem_ofHighestPriority.mp ha
  obtain ⟨c, hc, hentry⟩ := exists_mem_of_mapM_eq_ok hentries hmem
  exact ⟨c, hc, (entry_eq_ok.mp hentry).2⟩

theorem onBoard_of_mem_choices {c : Choice} (h : c ∈ rules.choices pos) :
    pos.onBoard c.target = true := by
  obtain ⟨m, -, hc⟩ := List.mem_flatMap.mp h
  have hadm := (mem_choicesAt.mp hc).2.2.2
  simp only [Candidate.admissible, Bool.and_eq_true] at hadm
  exact hadm.1.1

/-- Entries of the highest priority are those of the choices without a better one. -/
theorem forall₂_ofHighestPriority {choices : List Choice} {entries : List (Int × Position)}
    (h : List.Forall₂ (fun c e => rules.entry pos c = .ok e) choices entries) :
    List.Forall₂ (fun c q => c.candidate.apply rules pos = .ok q)
      (choices.filter (Choice.isTop choices)) (ofHighestPriority entries) := by
  have hpriorities : entries.map (·.1) = choices.map (·.rule.priority) := by
    induction h with
    | nil => rfl
    | cons hfirst _ ih => rw [List.map_cons, List.map_cons, ih, (entry_eq_ok.mp hfirst).1]
  unfold ofHighestPriority
  cases hmax : (entries.map (·.1)).max? with
  | none =>
      have hnil : entries = [] := by simpa using hmax
      subst hnil
      rw [List.forall₂_nil_right_iff.mp h]
      exact List.Forall₂.nil
  | some top =>
      rw [hpriorities, List.max?_eq_some_iff] at hmax
      obtain ⟨hmem, hle⟩ := hmax
      obtain ⟨best, hbest, rfl⟩ := List.mem_map.mp hmem
      -- no better choice is left out of sight: to be on top is to have the greatest priority
      have htop : ∀ c ∈ choices, Choice.isTop choices c = true ↔
          c.rule.priority = best.rule.priority := by
        intro c hc
        simp only [Choice.isTop, List.all_eq_true, decide_eq_true_eq]
        constructor
        · intro hall
          exact Int.le_antisymm (hle _ (List.mem_map_of_mem hc)) (hall best hbest)
        · intro heq d hd
          rw [heq]
          exact hle _ (List.mem_map_of_mem hd)
      have hsame : choices.filter (Choice.isTop choices) =
          choices.filter fun c => Decidable.decide (c.rule.priority = best.rule.priority) := by
        apply List.filter_congr
        intro c hc
        rw [Bool.eq_iff_iff, htop c hc, decide_eq_true_iff]
      rw [hsame, List.forall₂_map_right_iff]
      have hfilter := List.rel_filter (p := fun c : Choice =>
          Decidable.decide (c.rule.priority = best.rule.priority))
        (q := fun e : Int × Position => Decidable.decide (e.1 = best.rule.priority)) ?_ h
      · exact hfilter.imp fun c e he => (entry_eq_ok.mp he).2
      · intro c e he
        simp only [decide_eq_true_iff]
        rw [(entry_eq_ok.mp he).1]

/-- What a list of choices has to do with the successors of a position. -/
structure Generates (rules : RuleSet) (pos : Position) (choices : List Choice) : Prop where
  /-- It holds the open choices, each once, in the order in which they are gone through. -/
  mem : ∀ c, c ∈ choices ↔ c.Open rules pos
  ordered : choices.Pairwise (Choice.Before rules pos)
  nodup : choices.Nodup
  /-- If all of them can be played there is one successor for each that has the highest
  priority, in the same order, and none only if there is no choice. -/
  successors : (∀ c ∈ choices, ∃ q, c.candidate.apply rules pos = .ok q) →
    ∃ next, rules.successors pos = .ok next ∧
      List.Forall₂ (fun c q => c.candidate.apply rules pos = .ok q)
        (choices.filter (Choice.isTop choices)) next ∧
      (next = [] ↔ choices = [])
  /-- Otherwise the first that cannot be played says why. -/
  failure : ∀ before c after error, choices = before ++ c :: after →
    (∀ b ∈ before, ∃ q, b.candidate.apply rules pos = .ok q) →
    c.candidate.apply rules pos = .error error → rules.successors pos = .error error

/-- The open choices of a position generate its successors. -/
theorem exists_generates (hpieces : rules.pieces.length ≤ maxPieceTypes)
    (hboard : rules.boardSize < 0x80000000) (hsize : pos.size = rules.boardSize)
    (hown : ∀ s, pos.onBoard s = true → (pos.cell s).sign = pos.mover.sign →
      (rules.pieceType? (pos.cell s)).isSome = true) :
    ∃ choices, rules.Generates pos choices := by
  have hmem (c : Choice) : c ∈ rules.choices pos ↔ c.Open rules pos :=
    mem_choices hboard hpieces hsize
  -- with a type for every piece that moves, only the play of a choice can fail
  have hpairwise := pairwise_choices hboard pos
  have htypes : ∀ m ∈ rules.movers pos, (rules.pieceType? m.piece).isSome = true := by
    intro m hm
    have hmover := (isMover_of_mem hboard hpieces hsize).mp hm
    unfold IsMover at hmover
    cases hsource : rules.moveSource with
    | piecesOnBoard =>
        rw [hsource] at hmover
        obtain ⟨hon, hcell, hsign⟩ := hmover
        rw [← hcell]
        exact hown m.origin hon (by rw [hcell, hsign])
    | ends =>
        rw [hsource] at hmover
        obtain ⟨⟨i, hi, hpiece⟩, -⟩ := hmover
        rcases pos.mover.sign_cases with hs | hs <;> rw [hpiece, hs] <;>
          exact isSome_pieceType? (by omega) (by omega)
  have hsuccessors := successors_eq_mapM htypes
  refine ⟨rules.choices pos, hmem, hpairwise, ?_, ?_, ?_⟩
  · refine hpairwise.imp fun {a b} hbefore heq => ?_
    subst heq
    exact a.not_before_self hbefore
  · intro hplayed
    have hentries : ∀ c ∈ rules.choices pos, ∃ e, rules.entry pos c = .ok e := by
      intro c hc
      obtain ⟨q, hq⟩ := hplayed c hc
      exact ⟨(c.rule.priority, q), entry_eq_ok.mpr ⟨rfl, hq⟩⟩
    obtain ⟨entries, hmapM⟩ := exists_mapM_eq_ok hentries
    have hforall := mapM_eq_ok_iff.mp hmapM
    rw [hmapM] at hsuccessors
    refine ⟨ofHighestPriority entries, hsuccessors, forall₂_ofHighestPriority hforall, ?_⟩
    rw [ofHighestPriority_eq_nil, ← List.length_eq_zero_iff, ← hforall.length_eq,
      List.length_eq_zero_iff]
  · intro before c after error hsplit hbefore hfails
    have hentry : rules.entry pos c = .error error := by
      rw [entry, hfails]
      rfl
    rw [hsuccessors, hsplit, mapM_eq_error ?_ hentry]
    · rfl
    · intro b hb
      obtain ⟨q, hq⟩ := hbefore b hb
      exact ⟨(b.rule.priority, q), entry_eq_ok.mpr ⟨rfl, hq⟩⟩

/-- A helper and plain pieces in the middle of a turn of othello, where the rules have three
priorities. -/
theorem exists_generates_helper :
    let rules := BuiltIn.othello
    let board := ((((Board.clear 8).write 8 ⟨2, 2⟩ 2).write 8 ⟨3, 3⟩ (-1)).write 8 ⟨4, 4⟩ 1).write
      8 ⟨5, 4⟩ (-1)
    let pos := Position.ofBoard 8 board .white .absent 0
    rules.pieces.length ≤ maxPieceTypes ∧ rules.boardSize < 0x80000000 ∧
      pos.size = rules.boardSize ∧
      (∀ s, pos.onBoard s = true → (pos.cell s).sign = pos.mover.sign →
        (rules.pieceType? (pos.cell s)).isSome = true) ∧
      ∃ choices, rules.Generates pos choices := by
  intro rules board pos
  have hpieces : rules.pieces.length ≤ maxPieceTypes := by decide
  have hboard : rules.boardSize < 0x80000000 := by decide
  have hsize : pos.size = rules.boardSize := rfl
  have hown : ∀ s, pos.onBoard s = true → (pos.cell s).sign = pos.mover.sign →
      (rules.pieceType? (pos.cell s)).isSome = true := by
    intro s hs hsign
    have hcodes : ∀ code ∈ board, code.sign = 1 → (rules.pieceType? code).isSome = true := by
      decide +kernel
    have hcells : board.size = 8 * 8 := by decide +kernel
    have hcell : pos.cell s = board.read 8 s := if_pos hs
    rw [hcell] at hsign ⊢
    exact hcodes _ (Board.mem_of_read hcells hs) hsign
  exact ⟨hpieces, hboard, hsize, hown, exists_generates hpieces hboard hsize hown⟩

end RuleSet

end BoardGame
