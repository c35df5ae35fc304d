import BoardGame.Proofs.Chess.Games
import BoardGame.Proofs.Encoding.Observation
import BoardGame.Proofs.Games
import BoardGame.Search.MeanValue
/-!
# Observations that an evaluator accepts

Wherever a built-in game has come to, the board has as many cells as its edge says, and
every legal move has an index within the policy, in any frame. That is all that the
evaluator without knowledge asks for.
-/

namespace BoardGame

open RuleSet

variable {game : Game} {rules : RuleSet} {p q : Position} {next : List Position}

/-- A game whose positions and moves can be encoded. -/
structure Game.Encodable (game : Game) : Prop where
  boardSize_lt : game.rules.boardSize < 0x80000000
  pieces_le : game.rules.pieces.length ≤ maxPieceTypes
  cells : ∀ p, game.Reachable p → p.board.size = p.size * p.size
  indexed : ∀ p next, game.Reachable p → game.successors p = .ok next →
    ∀ q ∈ next, game.rules.Indexed q.last

namespace Game

theorem encodable_template (hvalid : rules.Valid) : Encodable ⟨rules, .template⟩ := by
  have hboard := hvalid.boardSize_lt
  refine ⟨hboard, hvalid.pieces_le, fun p hp => ?_, fun p next hp hnext q hq => ?_⟩
  · have hfits := hp.playable.fits hvalid
    rw [hfits.size]
    exact hfits.cells
  · have hfits := hp.playable.fits hvalid
    exact indexed_of_mem_successors hboard hvalid.pieces_le hfits.size
      (successors_template.mp hnext) hq

theorem encodable_chess : Encodable Chess.game := by
  refine ⟨by decide, by decide, fun p hp => ?_, fun p next hp hnext q hq => ?_⟩
  · obtain ⟨moves, hplayed⟩ := Chess.exists_played hp
    obtain ⟨hagrees, -⟩ := Chess.agrees_of_played hplayed
    rw [hagrees.size]
    exact hagrees.board.size
  · obtain ⟨moves, hplayed⟩ := Chess.exists_played hp
    obtain ⟨hagrees, hsound⟩ := Chess.agrees_of_played hplayed
    rw [hagrees.successors_eq] at hnext
    obtain rfl := Except.ok.inj hnext
    obtain ⟨⟨⟨htarget, -, piece, hpiece, -⟩, -⟩, -⟩ := hagrees.of_mem_successors hsound hq
    have horigin := hsound.onBoard _ _ hpiece
    exact ⟨Chess.onBoard_iff_laws.mpr htarget, Chess.onBoard_iff_laws.mpr horigin⟩

end Game

theorem Registry.encodable_of_create {id : String} (h : builtIn.create id = .ok game) :
    game.Encodable := by
  have hmem := create_eq_ok.mp h
  simp only [builtInGames, List.mem_cons, Prod.mk.injEq, List.not_mem_nil, or_false] at hmem
  rcases hmem with ⟨-, rfl⟩ | ⟨-, rfl⟩ | ⟨-, rfl⟩ | ⟨-, rfl⟩ | ⟨-, rfl⟩
  · exact Game.encodable_template (valid_of_validate rfl)
  · exact Game.encodable_template (valid_of_validate rfl)
  · exact Game.encodable_template (valid_of_validate rfl)
  · exact Game.encodable_template (valid_of_validate rfl)
  · exact Game.encodable_chess

/-! ## The evaluator without knowledge -/

/-- An observation that makes sense: the cells fill the board and the legal moves have places
in the policy. -/
structure Observation.Sensible (o : Observation) : Prop where
  cells : o.board.size = o.size * o.size
  legal : ∀ index ∈ o.legal, index < o.policySize

theorem Game.Encodable.sensible (h : game.Encodable) (hp : game.Reachable p)
    (hnext : game.successors p = .ok next) (f : Frame) :
    (Observation.ofPosition game.rules p
      (next.map fun q => game.rules.moveIndex q.last) f).Sensible := by
  refine ⟨Frame.size_board.trans (h.cells p hp), ?_⟩
  intro index hindex
  obtain ⟨index', hindex', rfl⟩ := List.mem_map.mp hindex
  obtain ⟨q, hq, rfl⟩ := List.mem_map.mp hindex'
  have hindexed := h.indexed p next hp hnext q hq
  rw [flipIndex_moveIndex h.boardSize_lt h.pieces_le hindexed]
  exact (hindexed.move h.boardSize_lt f).moveIndex_lt

namespace Evaluator

theorem exists_foldlM_spread {policySize : Nat} (share : Float32) {indices : List Nat}
    (h : ∀ index ∈ indices, index < policySize) {policy : Array Float32}
    (hsize : policy.size = policySize) :
    ∃ policy', indices.foldlM (spread policySize share) policy = .ok policy' ∧
      policy'.size = policySize := by
  induction indices generalizing policy with
  | nil => exact ⟨policy, rfl, hsize⟩
  | cons index rest ih =>
      obtain ⟨hindex, hrest⟩ := List.forall_mem_cons.mp h
      obtain ⟨policy', hpolicy, hsize'⟩ :=
        ih hrest
          (Array.size_setIfInBounds.trans hsize : (policy.setIfInBounds index share).size = _)
      refine ⟨policy', ?_, hsize'⟩
      have hspread :
          spread policySize share policy index = .ok (policy.setIfInBounds index share) :=
        if_pos (hsize ▸ hindex)
      rw [List.foldlM_cons, hspread]
      exact hpolicy

theorem exists_uniformAt {o : Observation} (h : o.Sensible) :
    ∃ e, uniformAt o = .ok e ∧ e.policy.size = o.policySize ∧ e.value = 0 := by
  obtain ⟨policy, hpolicy, hsize⟩ := exists_foldlM_spread (1 / Float32.ofNat o.legal.length)
    h.legal (Array.size_replicate : (Array.replicate o.policySize (0 : Float32)).size = _)
  refine ⟨⟨policy, 0⟩, ?_, hsize, rfl⟩
  unfold uniformAt
  rw [if_neg (not_not.mpr h.cells)]
  exact bind_eq_ok.mpr ⟨policy, hpolicy, rfl⟩

theorem exists_answers_uniform {policySize : Nat} {observations : List Observation}
    (h : ∀ o ∈ observations, o.Sensible ∧ o.policySize = policySize) :
    ∃ evaluations, MeanValue.answers uniform policySize observations = .ok evaluations := by
  have hall : ∀ o ∈ observations, ∃ e, uniformAt o = .ok e := fun o ho =>
    let ⟨e, he, _⟩ := exists_uniformAt (h o ho).1
    ⟨e, he⟩
  obtain ⟨evaluations, hevaluations⟩ := exists_mapM_eq_ok hall
  have hforall := mapM_eq_ok_iff.mp hevaluations
  refine ⟨evaluations, ?_⟩
  have hfind :
      (evaluations.find? fun a => a.policy.size != policySize || !a.value.isFinite) = none := by
    rw [List.find?_eq_none]
    intro e he
    obtain ⟨o, ho, heq⟩ := exists_mem_of_mapM_eq_ok hevaluations he
    obtain ⟨e', he', hsize, hvalue⟩ := exists_uniformAt (h o ho).1
    obtain rfl := Except.ok.inj (heq.symm.trans he')
    have hfinite : (0 : Float32).isFinite = true := rfl
    rw [hsize, (h o ho).2, hvalue, hfinite, bne_self_eq_false]
    decide
  have hmapM : uniform.evaluate observations = .ok evaluations := hevaluations
  unfold MeanValue.answers
  rw [hmapM]
  show (if evaluations.length ≠ observations.length then _ else _) = _
  rw [if_neg (not_not.mpr hforall.length_eq.symm), hfind]
  rfl

end Evaluator

end BoardGame
