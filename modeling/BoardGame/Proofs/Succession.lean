import BoardGame.Game
import BoardGame.Proofs.Moves.Candidates
/-!
# One move later

Whatever the rules and the engine, a successor is the position one move later:
it has the size of its predecessor and its history with one board more, and its
depth is one greater as long as depths are counted.
-/

namespace BoardGame

/-- `next` is the position after some move in `pos`. -/
def Position.Follows (next pos : Position) : Prop :=
  ∃ board mover last, next = pos.successor board mover last

theorem Position.Follows.depth_eq {next pos : Position} (h : next.Follows pos) :
    next.depth = min (pos.depth + 1) maxDepth := by
  obtain ⟨board, mover, last, rfl⟩ := h
  rfl

theorem Position.Follows.depth_le {next pos : Position} (h : next.Follows pos) :
    next.depth ≤ maxDepth := by
  rw [h.depth_eq]
  exact Nat.min_le_right _ _

theorem Position.Follows.le_depth {next pos : Position} (h : next.Follows pos)
    (hpos : pos.depth ≤ maxDepth) : pos.depth ≤ next.depth := by
  rw [h.depth_eq]
  omega

theorem Position.Follows.size_eq {next pos : Position} (h : next.Follows pos) :
    next.size = pos.size := by
  obtain ⟨board, mover, last, rfl⟩ := h
  rfl

variable {pos next : Position}

theorem Candidate.follows_of_apply {c : Candidate} {rules : RuleSet}
    (h : c.apply rules pos = .ok next) : next.Follows pos := by
  obtain ⟨writes, -, hnext⟩ := bind_eq_ok.mp h
  exact ⟨_, _, _, (Except.ok.inj hnext).symm⟩

theorem RuleSet.exists_candidate {rules : RuleSet} {positions : List Position}
    (h : rules.successors pos = .ok positions) (hmem : next ∈ positions) :
    ∃ c ∈ rules.allCandidates pos, c.apply rules pos = .ok next := by
  obtain ⟨entries, hm, hpositions⟩ := bind_eq_ok.mp h
  rw [← Except.ok.inj hpositions] at hmem
  obtain ⟨priority, hentry, -⟩ := mem_ofHighestPriority.mp hmem
  obtain ⟨list, hlist, hentry⟩ := List.mem_flatten.mp hentry
  obtain ⟨m, hmover, hmoves⟩ := exists_mem_of_mapM_eq_ok hm hlist
  obtain ⟨candidates, hc, hmoves⟩ := bind_eq_ok.mp hmoves
  obtain ⟨c, hmem, happly⟩ := exists_mem_of_mapM_eq_ok hmoves hentry
  obtain ⟨q, hq, heq⟩ := bind_eq_ok.mp happly
  obtain ⟨-, rfl⟩ := Prod.mk.inj (Except.ok.inj heq)
  refine ⟨c, List.mem_flatMap.mpr ⟨m, hmover, ?_⟩, hq⟩
  obtain ⟨type, htype, hcandidates⟩ := bind_eq_ok.mp hc
  have hsome : (rules.pieceType? m.piece).isSome = true := by
    unfold pieceType at htype
    cases hfound : rules.pieceType? m.piece with
    | none =>
        rw [hfound] at htype
        cases htype
    | some type' => rfl
  rw [candidates_eq hsome] at hc
  rwa [Except.ok.inj hc]

theorem RuleSet.follows_of_mem_successors {rules : RuleSet} {positions : List Position}
    (h : rules.successors pos = .ok positions) (hmem : next ∈ positions) : next.Follows pos := by
  obtain ⟨c, -, happly⟩ := RuleSet.exists_candidate h hmem
  exact Candidate.follows_of_apply happly

namespace Chess

theorem follows_of_move? {king : Option Square} {origin target : Square} {piece : Int}
    (h : move? pos king origin target piece = some next) : next.Follows pos := by
  unfold move? at h
  simp only [Option.ite_none_left_eq_some] at h
  obtain ⟨-, -, -, hnext⟩ := h
  exact ⟨_, _, _, (Option.some.inj hnext).symm⟩

theorem follows_of_castle? {king : Square} {corner dir : Int}
    (h : castle? pos king corner dir = some next) : next.Follows pos := by
  unfold castle? at h
  simp only [Option.ite_none_left_eq_some] at h
  obtain ⟨-, -, -, hnext⟩ := h
  exact ⟨_, _, _, (Option.some.inj hnext).symm⟩

theorem follows_of_mem_filterMap {king : Square → Option Square} {origin : Square}
    {piece : Square → Int} {targets : List Square}
    (h : next ∈ targets.filterMap fun t => move? pos (king t) origin t (piece t)) :
    next.Follows pos := by
  obtain ⟨t, -, ht⟩ := List.mem_filterMap.mp h
  exact follows_of_move? ht

theorem follows_of_mem_kingMoves {s : Square} (h : next ∈ kingMoves pos s) : next.Follows pos :=
  follows_of_mem_filterMap h

theorem follows_of_mem_movesFrom {king : Option Square} {s : Square}
    (h : next ∈ movesFrom pos king s) : next.Follows pos := by
  unfold movesFrom at h
  dsimp only at h
  cases hkind : Kind.ofCode? (pos.board.read boardSize s * pos.mover.sign) with
  | none =>
      rw [hkind] at h
      cases h
  | some kind =>
      rw [hkind] at h
      cases kind
      case king => exact follows_of_mem_kingMoves h
      case unmovedKing =>
        rcases List.mem_append.mp h with h | h
        · rcases List.mem_append.mp h with h | h
          · exact follows_of_mem_kingMoves h
          · exact follows_of_castle? (Option.mem_toList.mp h)
        · exact follows_of_castle? (Option.mem_toList.mp h)
      all_goals exact follows_of_mem_filterMap h

theorem follows_of_mem_successors (h : next ∈ successors pos) : next.Follows pos := by
  obtain ⟨i, -, hi⟩ := List.mem_flatMap.mp h
  exact follows_of_mem_movesFrom hi

end Chess

/-- A failure of the rules is never taken for a result. -/
theorem Game.liftM_eq_ok {α : Type} {x : Except RuleError α} {a : α} :
    (liftM x : Except EngineError α) = .ok a ↔ x = .ok a := by
  cases x with
  | error e => exact ⟨nofun, nofun⟩
  | ok b => exact ⟨fun h => Except.ok.inj h ▸ rfl, fun h => Except.ok.inj h ▸ rfl⟩

theorem Game.follows_of_mem_successors {game : Game} {positions : List Position}
    (h : game.successors pos = .ok positions) (hmem : next ∈ positions) : next.Follows pos := by
  unfold Game.successors at h
  cases hengine : game.engine with
  | template =>
      rw [hengine] at h
      exact RuleSet.follows_of_mem_successors (liftM_eq_ok.mp h) hmem
  | chess =>
      rw [hengine] at h
      obtain ⟨u, -, hpositions⟩ := bind_eq_ok.mp h
      exact Chess.follows_of_mem_successors (Except.ok.inj hpositions ▸ hmem)

/-! ## Reachable positions -/

/-- The positions of a game that are reached from its initial position. -/
inductive Game.Reachable (game : Game) : Position → Prop where
  | initial {pos : Position} (h : game.initial = .ok pos) : game.Reachable pos
  | step {pos next : Position} {positions : List Position} (h : game.Reachable pos)
      (hs : game.successors pos = .ok positions) (hmem : next ∈ positions) : game.Reachable next

namespace Game

/-- The position after some plies, the latest first, each given by its place among the
successors. -/
def after (game : Game) : List Nat → Option Position
  | [] => game.initial.toOption
  | i :: earlier => do
    let pos ← game.after earlier
    let positions ← (game.successors pos).toOption
    positions[i]?

theorem reachable_of_after {game : Game} {plies : List Nat} {pos : Position}
    (h : game.after plies = some pos) : game.Reachable pos := by
  induction plies generalizing pos with
  | nil => exact .initial (ok_of_toOption h)
  | cons i earlier ih =>
      obtain ⟨before, hbefore, h⟩ := Option.bind_eq_some_iff.mp h
      obtain ⟨positions, hpositions, h⟩ := Option.bind_eq_some_iff.mp h
      exact (ih hbefore).step (ok_of_toOption hpositions) (List.mem_of_getElem? h)

end Game

end BoardGame
