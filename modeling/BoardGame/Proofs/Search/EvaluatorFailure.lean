import BoardGame.Proofs.GameTree.Constancy
import BoardGame.Proofs.Search.Searches
/-!
# Searches whose evaluator fails

An iteration asks the evaluator after it has found its leaf and before it writes anything down.
So if the evaluator fails, or its answers are of no use, the statistics are those before the
iteration, and the tree, which may have grown, tells the same of its nodes as before.
-/

namespace BoardGame

open Stateful SearchM
open GameTree (Arena Repeats SameReports)

variable {V : Type} {α : Type} {e : EngineError}

/-! ## Blame -/

/-- The evaluator has failed, or has answered too little, too much or what cannot be used. -/
def EngineError.FromEvaluator : EngineError → Prop
  | .evaluator _ => True
  | .invariant (.answerCount _ _) => True
  | _ => False

theorem MeanValue.fromEvaluator_of_answers {evaluator : Evaluator} {policySize : Nat}
    {observations : List Observation} (h : answers evaluator policySize observations = .error e) :
    e.FromEvaluator := by
  unfold answers at h
  rcases bind_eq_error.mp h with hasked | ⟨given, -, hchecked⟩
  · cases hgiven : evaluator.evaluate observations with
    | ok given =>
        rw [hgiven] at hasked
        cases hasked
    | error cause =>
        rw [hgiven] at hasked
        exact Except.error.inj hasked ▸ trivial
  · dsimp only at hchecked
    split at hchecked
    · exact Except.error.inj hchecked ▸ trivial
    · split at hchecked
      · exact Except.error.inj hchecked ▸ trivial
      · cases hchecked

/-- `x` asks no evaluator, or at least does not fail by one. -/
abbrev Unaided {σ : Type} (x : ExceptT EngineError (StateM σ) α) : Prop :=
  Avoids EngineError.FromEvaluator x

/-! ## The tree asks no evaluator -/

namespace GameTree

theorem unaided_lift {r : Except EngineError α} (h : FailsByRules r) :
    Unaided (liftM r : TreeM α) := by
  intro tree e he
  have hr : r = .error e := (value_lift r tree).symm.trans he
  obtain ⟨cause, rfl⟩ := h e hr
  exact fun hblame => hblame

theorem unaided_node (id : NodeId) : Unaided (node id) := by
  intro tree e he
  cases hnode : tree.node? id with
  | none =>
      obtain rfl := Except.error.inj ((value_node_of_none hnode).symm.trans he)
      exact fun hblame => hblame
  | some node => cases (value_node hnode).symm.trans he

theorem unaided_position (id : NodeId) : Unaided (position id) :=
  (unaided_node id).bind fun _ => .pure _

theorem unaided_depth (id : NodeId) : Unaided (depth id) :=
  (unaided_position id).bind fun _ => .pure _

theorem unaided_sameMover (a b : NodeId) : Unaided (sameMover a b) :=
  (unaided_position a).bind fun _ => (unaided_position b).bind fun _ => .pure _

theorem unaided_legalMoves (id : NodeId) : Unaided (legalMoves id) := by
  refine (unaided_node id).bind fun node => ?_
  cases node.successors with
  | some ids => exact .pure ids
  | none =>
      refine .bind .get fun tree => ?_
      refine (unaided_lift (tree.game.successors_failsByRules node.position)).bind fun next => ?_
      have hinsert : Unaided (insertAll next) := .mapM (fun _ => .modifyGet _) next
      exact hinsert.bind fun _ => .bind (.modifyGet _) fun _ => .pure _

theorem unaided_outcome (id : NodeId) : Unaided (outcome id) := by
  refine (unaided_node id).bind fun node => ?_
  cases node.outcome with
  | some o => exact .pure o
  | none =>
      have hunaided : @Sequential TreeM (Except EngineError) _ _ fun _ x _ => Unaided x :=
        ⟨Avoids.pure, Avoids.bind⟩
      have hmoves : Unaided (List.isEmpty <$> legalMoves id) := by
        rw [← bind_pure_comp]
        exact (unaided_legalMoves id).bind fun _ => .pure _
      have hcheck := unaided_lift (Game.checkBoard_failsByRules node.position)
      refine .bind .get fun tree => ?_
      refine (hunaided.outcomeBy (.ok true) hmoves hcheck tree.game).bind fun o => ?_
      exact .bind (.modifyGet _) fun _ => .pure o

end GameTree

/-! ## What comes after the evaluator asks it nothing -/

namespace SearchM

variable [Inhabited V]

omit [Inhabited V] in
theorem unaided_onTree {x : TreeM α} (h : Unaided x) : Unaided (onTree x : SearchM V α) :=
  fun s e he => h s.tree e he

omit [Inhabited V] in
theorem unaided_byChance (x : RandomM α) :
    Unaided (byChance (ExceptT.lift x) : SearchM V α) :=
  fun _ _ he => nomatch he

theorem unaided_stat (id : NodeId) : Unaided (stat id : SearchM V (Stat V)) :=
  (unaided_onTree (GameTree.unaided_depth id)).bind fun _ =>
    .bind (fun _ _ he => nomatch he) fun _ => .pure _

theorem unaided_changeStat (id : NodeId) (change : Stat V → Stat V) :
    Unaided (changeStat id change : SearchM V Unit) :=
  (unaided_onTree (GameTree.unaided_depth id)).bind fun _ _ _ he => nomatch he

omit [Inhabited V] in
theorem unaided_verdicts (parent : NodeId) (moves : List NodeId) :
    Unaided (verdicts parent moves : SearchM V (List Verdict)) :=
  (unaided_onTree (GameTree.unaided_position parent)).bind fun _ => .mapM (fun child =>
    (unaided_onTree (GameTree.unaided_outcome child)).bind fun _ =>
      (unaided_onTree (GameTree.unaided_position child)).bind fun _ => .pure _) moves

omit [Inhabited V] in
theorem unaided_recordSlice (root : NodeId) (moves : List NodeId) (shares : List Float) :
    Unaided (recordSlice root moves shares : SearchM V Slice) := by
  have hgame : Unaided (game : SearchM V Game) := fun _ _ he => nomatch he
  refine hgame.bind fun _ => (unaided_onTree (GameTree.unaided_position root)).bind fun _ => ?_
  exact .bind (.mapM (fun (child, _) => (unaided_onTree (GameTree.unaided_position child)).bind
    fun _ => .pure _) _) fun _ => .pure _

end SearchM

namespace MeanValue

theorem unaided_prepare (child : NodeId) (prior : Float32) : Unaided (prepare child prior) :=
  (unaided_onTree (GameTree.unaided_outcome child)).bind fun outcome =>
    (unaided_byChance (initialValue outcome)).bind fun _ => unaided_changeStat child _

theorem unaided_weighByVisits (params : SearchParams) (depth : Nat) (root : NodeId)
    (moves : List NodeId) : Unaided (weighByVisits params depth root moves) :=
  .bind (.mapM (fun child => (unaided_stat child).bind fun _ => .pure _) moves) fun _ => .pure _

end MeanValue

namespace Strategy

variable [Inhabited V] {strategy : Strategy V}

theorem unaided_backprop (strategy : Strategy V) (path : List NodeId) (leaf : NodeId) :
    Unaided (strategy.backprop path leaf) := by
  refine (unaided_stat leaf).bind fun _ =>
    (unaided_onTree (GameTree.unaided_depth leaf)).bind fun _ => .forM (fun ancestor => ?_) path
  exact (unaided_onTree (GameTree.unaided_sameMover ancestor leaf)).bind fun _ =>
    (unaided_onTree (GameTree.unaided_depth ancestor)).bind fun _ => unaided_changeStat ancestor _

omit [Inhabited V] in
theorem unaided_pickMove (hweigh : ∀ depth root moves, Unaided (strategy.weigh depth root moves))
    (root : NodeId) : Unaided (strategy.pickMove root) := by
  have hdraw (depth : Nat) (moves : List NodeId) : Unaided (strategy.drawFrom depth root moves) :=
    (hweigh depth root moves).bind fun weighed => (unaided_recordSlice root moves _).bind fun _ =>
      (unaided_verdicts root moves).bind fun verdicts =>
        (unaided_byChance (pickIndex verdicts weighed.1)).bind fun _ => .pure _
  rw [pickMove_eq]
  refine (unaided_onTree (GameTree.unaided_legalMoves root)).bind fun moves => ?_
  refine .ite (.throw fun hblame => hblame) ?_
  refine (unaided_onTree (GameTree.unaided_depth root)).bind fun depth => ?_
  refine (hdraw depth moves).bind fun drawn => ?_
  cases drawn.2 with
  | none => exact .throw fun hblame => hblame
  | some child => exact .bind (fun _ _ he => nomatch he) fun _ => .pure _

end Strategy

/-! ## What comes before the evaluator writes nothing down -/

/-- The tree tells the same and the statistics are the same. -/
def Quiet (before after : SearchState V) : Prop :=
  Repeats before.tree after.tree ∧ after.statistics = before.statistics

instance : IsPreorder (SearchState V) Quiet where
  refl s := ⟨refl_of Repeats s.tree, rfl⟩
  trans _ _ _ hab hbc := ⟨trans_of Repeats hab.1 hbc.1, hbc.2.trans hab.2⟩

theorem curious_quiet : Curious (Quiet (V := V)) where
  legalMoves id s := ⟨GameTree.repeats_legalMoves id s.tree, rfl⟩
  outcome id s := ⟨GameTree.repeats_outcome id s.tree, rfl⟩
  byChance _ s := ⟨refl_of Repeats s.tree, rfl⟩

/-- An evaluator fails before the values and the priors are written. -/
theorem MeanValue.failsWithin_appraiseBy (evaluator : Evaluator) (params : SearchParams)
    (id : NodeId) :
    FailsWithin EngineError.FromEvaluator Quiet (appraiseBy evaluator params id) := by
  refine .bind (curious_quiet.legalMoves id) fun moves => .bind keeps_game fun game => ?_
  refine .bind (.mapM (fun child => (keeps_position child).bind fun _ => .pure _) moves)
    fun indices => .bind (keeps_position id) fun pos => ?_
  refine .bind_avoids (.of_keeps (curious_quiet.byChance _)) fun answers => ?_
  exact (unaided_changeStat id _).bind fun _ => .forM (fun (child, prior) =>
    unaided_prepare child prior) _

namespace MonteCarlo

section

variable (evaluator : Evaluator) (params : SearchParams) (root : NodeId)

theorem failsWithin_iterate : FailsWithin EngineError.FromEvaluator Quiet
    (iterate (.alphaZero (some evaluator) params) root) := by
  have htame := Strategy.tame_alphaZero (some evaluator) params
  refine .bind (keeps_descend htame curious_quiet root) fun (path, leaf) => ?_
  refine .bind_avoids ?_ fun _ => Strategy.unaided_backprop _ path leaf
  refine .bind (curious_quiet.outcome leaf) fun outcome => .ite ?_ ?_
  · exact (MeanValue.failsWithin_appraiseBy evaluator params leaf).bind_avoids fun _ =>
      unaided_changeStat leaf _
  · exact .of_avoids (unaided_changeStat leaf _)

end

variable [Inhabited V] {strategy : Strategy V} {E : EngineError → Prop}
  {R : SearchState V → SearchState V → Prop} {s : SearchState V} {root : NodeId}

/-- If iterations fail, some of them have been completed, and the next one has failed. -/
theorem exists_iterateTimes_completed (h : FailsWithin E R (iterate strategy root)) {n : Nat}
    (he : value (iterateTimes strategy root n) s = .error e) (hin : E e) :
    ∃ k < n, value (iterateTimes strategy root k) s = .ok () ∧
      R (exec (iterateTimes strategy root k) s) (exec (iterateTimes strategy root n) s) := by
  induction n generalizing s with
  | zero => cases he
  | succ n ih =>
      rcases value_bind_eq_error he with ⟨hfirst, hexec⟩ | ⟨_, hfirst, hrest, hexec⟩
      · refine ⟨0, Nat.succ_pos n, rfl, ?_⟩
        have hlast : exec (iterateTimes strategy root (n + 1)) s = _ := hexec
        rw [hlast]
        exact h s e hfirst hin
      · obtain ⟨k, hk, hdone, hleft⟩ := ih hrest
        have hmore : value (iterateTimes strategy root (k + 1)) s = _ := value_bind_of_ok hfirst
        have hlater : exec (iterateTimes strategy root (k + 1)) s = _ := exec_bind_of_ok hfirst
        have hlast : exec (iterateTimes strategy root (n + 1)) s = _ := hexec
        refine ⟨k + 1, Nat.succ_lt_succ hk, hmore.trans hdone, ?_⟩
        rw [hlater, hlast]
        exact hleft

theorem exists_iterations_completed (h : FailsWithin E R (iterate strategy root))
    (hplayable : Avoids E (onTree (ensurePlayable root) : SearchM V Unit))
    (hpick : Avoids E (strategy.pickMove root))
    (he : value (search strategy root) s = .error e) (hin : E e) :
    ∃ k < max strategy.params.iterations 1, value (iterations strategy root k) s = .ok () ∧
      R (exec (iterations strategy root k) s) (exec (search strategy root) s) := by
  rcases value_bind_eq_error he with ⟨hfirst, -⟩ | ⟨_, hfirst, hrest, hexec⟩
  · exact absurd hin (hplayable s e hfirst)
  rcases value_bind_eq_error hrest with ⟨hfailed, hexec'⟩ | ⟨_, -, hlast, -⟩
  · obtain ⟨k, hk, hdone, hleft⟩ := exists_iterateTimes_completed h hfailed hin
    have hmore : value (iterations strategy root k) s = _ := value_bind_of_ok hfirst
    have hlater : exec (iterations strategy root k) s = _ := exec_bind_of_ok hfirst
    have hsearch : exec (search strategy root) s = _ := hexec.trans hexec'
    refine ⟨k, hk, hmore.trans hdone, ?_⟩
    rw [hlater, hsearch]
    exact hleft
  · exact absurd hin (hpick _ e hlast)

omit [Inhabited V] in
theorem unaided_ensurePlayable (id : NodeId) :
    Unaided (onTree (ensurePlayable id) : SearchM V Unit) := by
  refine unaided_onTree ((GameTree.unaided_outcome id).bind fun outcome => ?_)
  refine .ite (.throw fun hblame => hblame) ((GameTree.unaided_legalMoves id).bind fun moves => ?_)
  exact .ite (.throw fun hblame => hblame) (.pure _)

end MonteCarlo

/-! ## Nothing is lost -/

/-- The statistics are the same, and the tree reports of the nodes it has had what it has
reported. -/
structure Undisturbed (before after : SearchState V) : Prop where
  statistics : after.statistics = before.statistics
  reports : SameReports before.tree after.tree

theorem Quiet.undisturbed {before after : SearchState V} (h : Quiet before after)
    (hbefore : Arena before.tree) : Undisturbed before after := by
  obtain ⟨hafter, hechoes⟩ := h.1 hbefore
  exact ⟨h.2, hechoes.sameReports hbefore hafter⟩

theorem Player.next_eq_error {strategy : Strategy MeanValue} {statistics : Statistics MeanValue}
    {generator : Generator} {tree : GameTree} {root : NodeId} :
    ((byMean ⟨strategy, statistics, generator⟩).next tree root).1 = .error e ↔
      value (MonteCarlo.search strategy root) ⟨tree, statistics, generator⟩ = .error e := by
  let picked := value (MonteCarlo.search strategy root) ⟨tree, statistics, generator⟩
  change picked.map (fun pick => (pick.1, some pick.2)) = .error e ↔ picked = .error e
  cases picked <;> simp [Except.map]

/-- If the evaluator fails, the iteration that asked it leaves the statistics and the reports of
the tree as they were. A player whose search fails so is left with the statistics of the
iterations that were completed before. -/
theorem failed_evaluation_loses_nothing (game : Game) (start : Position)
    (ops : List GameTree.Op) (statistics : Statistics MeanValue) (generator : Generator)
    (evaluator : Evaluator) (params : SearchParams) (root : NodeId) (e : EngineError)
    (hblame : e.FromEvaluator) :
    let tree := (GameTree.History.run game start ops).tree
    let strategy := Strategy.alphaZero (some evaluator) params
    let s : SearchState MeanValue := ⟨tree, statistics, generator⟩
    let move := (Player.byMean ⟨strategy, statistics, generator⟩).next tree root
    (value (MonteCarlo.iterate strategy root) s = .error e →
      Undisturbed s (exec (MonteCarlo.iterate strategy root) s)) ∧
    (move.1 = .error e → SameReports tree move.2.2 ∧
      ∃ k < max params.iterations 1, ∃ completed : SearchState MeanValue,
        Runs (MonteCarlo.iterations strategy root k) s (.ok ()) completed ∧
        (∃ later, move.2.1 = .byMean ⟨strategy, completed.statistics, later⟩) ∧
        SameReports completed.tree move.2.2) := by
  intro tree strategy s move
  have harena : Arena tree := (GameTree.kept_run game start ops).arena
  have htame : strategy.Tame := Strategy.tame_alphaZero (some evaluator) params
  have hiterate := MonteCarlo.failsWithin_iterate evaluator params root
  refine ⟨fun he => (hiterate s e he hblame).undisturbed harena, fun he => ?_⟩
  have hpick : Unaided (strategy.pickMove root) :=
    Strategy.unaided_pickMove (MeanValue.unaided_weighByVisits params) root
  obtain ⟨k, hk, hdone, hquiet⟩ := MonteCarlo.exists_iterations_completed hiterate
    (MonteCarlo.unaided_ensurePlayable root) hpick (Player.next_eq_error.mp he) hblame
  have hT := GameTree.inquisitive_repeats
  obtain ⟨hlast, hechoes⟩ := MonteCarlo.keeps_search htame hT root s harena
  obtain ⟨hcompleted, -⟩ := MonteCarlo.keeps_iterations htame hT root k s harena
  obtain ⟨hstatistics, hreports⟩ := hquiet.undisturbed hcompleted
  let later := (exec (MonteCarlo.search strategy root) s).generator
  refine ⟨hechoes.sameReports harena hlast, k, hk, _, .of_value hdone, ⟨later, ?_⟩, hreports⟩
  rw [← hstatistics]
  rfl

/-! ## A failure at once -/

namespace MonteCarlo

section

variable [Inhabited V] {strategy : Strategy V} {s : SearchState V} {root : NodeId} {p : Position}
  (hp : s.tree.position? root = some p) (hfresh : s.expanded root = false)

include hp hfresh

theorem runs_descend_of_unexpanded : Runs (descend strategy root) s (.ok ([], root)) s := by
  have hexpanded : Runs (Strategy.expanded root) s (.ok (s.stat root).expanded) s :=
    Runs.bind (f := fun stat => pure (Stat.expanded stat)) (runs_stat hp) rfl
  rw [show (s.stat root).expanded = false from hfresh] at hexpanded
  have hpassable : Runs (passable root) s (.ok false) s := hexpanded.bind rfl
  have hget : Runs (getThe (SearchState V) : SearchM V _) s (.ok s) s := rfl
  exact hget.bind (hpassable.bind rfl)

theorem value_iterate_of_unexpanded (he : value (strategy.expand root) s = .error e) :
    value (iterate strategy root) s = .error e := by
  have hexpand : Runs (strategy.expand root) s (.error e) (exec (strategy.expand root) s) :=
    Prod.ext he rfl
  exact ((runs_descend_of_unexpanded hp hfresh).bind hexpand.bind_error).value_eq

theorem value_search_of_unexpanded (harena : Arena s.tree)
    (hplayable : value (onTree (ensurePlayable root)) s = .ok ())
    (he : value (strategy.expand root) (exec (onTree (ensurePlayable root)) s) = .error e) :
    value (search strategy root) s = .error e := by
  obtain ⟨hrepeats, hstatistics⟩ := keeps_ensurePlayable curious_quiet root s
  obtain ⟨-, hechoes⟩ := hrepeats harena
  have hp' := hechoes.position? root p hp
  rw [SearchState.expanded_eq hp, ← hstatistics, ← SearchState.expanded_eq hp'] at hfresh
  have hfirst := value_iterate_of_unexpanded hp' hfresh he
  obtain ⟨n, hn⟩ : ∃ n, max strategy.params.iterations 1 = n + 1 :=
    Nat.exists_eq_add_of_le' (Nat.le_max_right _ 1)
  have hsearch : value (search strategy root) s = _ := value_bind_of_ok hplayable
  rw [hsearch, hn]
  exact value_bind_of_error (value_bind_of_error hfirst)

end

end MonteCarlo

/-- An evaluator that answers nothing. -/
def Evaluator.mute : Evaluator :=
  ⟨fun _ => .ok []⟩

/-- On the empty board of tic-tac-toe the first search that a mute evaluator guides fails. What
the player knew of the root from before is still there. -/
theorem failed_evaluation_loses_nothing_mute :
    let game : Game := ⟨BuiltIn.ticTacToe, .template⟩
    let strategy := Strategy.alphaZero (some .mute) .forTesting
    let statistics : Statistics MeanValue :=
      Statistics.empty.modify 0 ⟨0⟩ fun stat => { stat with visits := 7 }
    let e : EngineError := .invariant (.answerCount 0 1)
    ∃ p, game.initial = .ok p ∧
      let tree := GameTree.ofPosition game p
      let s : SearchState MeanValue := ⟨tree, statistics, ⟨1⟩⟩
      let move := (Player.byMean ⟨strategy, statistics, ⟨1⟩⟩).next tree ⟨0⟩
      value (MonteCarlo.iterate strategy ⟨0⟩) s = .error e ∧
        Undisturbed s (exec (MonteCarlo.iterate strategy ⟨0⟩) s) ∧
        move.1 = .error e ∧ SameReports tree move.2.2 := by
  intro game strategy statistics e
  have hchecked : game.initial.toOption.any (fun p =>
      let s : SearchState MeanValue := ⟨.ofPosition game p, statistics, ⟨1⟩⟩
      let playable : SearchM MeanValue Unit := onTree (MonteCarlo.ensurePlayable ⟨0⟩)
      decide (p.depth = 0) && (value playable s matches .ok ()) &&
        (value (strategy.expand ⟨0⟩) s matches .error (.invariant (.answerCount 0 1))) &&
        value (strategy.expand ⟨0⟩) (exec playable s) matches
          .error (.invariant (.answerCount 0 1))) = true := by
    decide +kernel
  cases hinitial : game.initial with
  | error e =>
      rw [hinitial] at hchecked
      cases hchecked
  | ok p =>
      rw [hinitial, Except.toOption, Option.any_some] at hchecked
      simp only [Bool.and_eq_true, decide_eq_true_eq] at hchecked
      obtain ⟨⟨⟨hdepth, hplayable⟩, hnow⟩, hready⟩ := hchecked
      have hcounted (r : Except EngineError Unit)
          (h : (r matches .error (.invariant (.answerCount 0 1))) = true) : r = .error e := by
        split at h
        · rfl
        · cases h
      let s : SearchState MeanValue := ⟨.ofPosition game p, statistics, ⟨1⟩⟩
      have hp : s.tree.position? ⟨0⟩ = some p := GameTree.rooted_ofPosition game p
      have hfresh : s.expanded ⟨0⟩ = false := by
        rw [SearchState.expanded_eq hp, hdepth, Statistics.read_modify, if_pos ⟨rfl, rfl⟩,
          Statistics.read_empty]
        rfl
      have hplayable : value (onTree (MonteCarlo.ensurePlayable ⟨0⟩)) s = .ok () := by
        split at hplayable
        · assumption
        · cases hplayable
      have hiterate := MonteCarlo.value_iterate_of_unexpanded hp hfresh (hcounted _ hnow)
      have hmove := Player.next_eq_error.mpr (MonteCarlo.value_search_of_unexpanded hp hfresh
        (GameTree.kept_run game p []).arena hplayable (hcounted _ hready))
      obtain ⟨hiteration, hnext⟩ :=
        failed_evaluation_loses_nothing game p [] statistics ⟨1⟩ .mute .forTesting ⟨0⟩ e trivial
      exact ⟨p, rfl, hiterate, hiteration hiterate, hmove, (hnext hmove).1⟩

end BoardGame
