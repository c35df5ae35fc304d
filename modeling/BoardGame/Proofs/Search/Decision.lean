import BoardGame.Proofs.Encoding.Evaluation
import BoardGame.Proofs.Ending.Games
import BoardGame.Proofs.GameTree.History
import BoardGame.Proofs.Search.Choice
import BoardGame.Proofs.Search.Players
/-!
# The players decide

Each strategy that comes with the program does its part on the nodes of a game that ends. So
in an open position of a built-in game its players move, and take a win that is one move away.
-/

namespace BoardGame

open Stateful SearchM
open GameTree (Coherent Develops)

variable {V : Type} {game : Game} {tree : GameTree} {node parent child root : NodeId}
  {p q : Position} {next : List Position} {moves : List NodeId}

/-! ## Chance -/

theorem SearchM.succeeds_initialValue (o : Outcome) :
    SearchM.Succeeds game tree (fun _ _ => True) (liftM (initialValue o) : SearchM V Float32) :=
  succeeds_byChance fun _ => ⟨_, _, rfl, trivial⟩

theorem SearchM.succeeds_rollout (hends : game.Ends) (hp : game.Reachable p) :
    SearchM.Succeeds game tree (fun _ _ => True)
      (liftM (rollout game p) : SearchM V (Side × Outcome)) := by
  obtain ⟨n, hn, hend⟩ := hends p hp
  refine succeeds_byChance fun g => ?_
  obtain ⟨side, o, after, hruns, -⟩ := exists_rollout hend hn g
  exact ⟨_, _, hruns, trivial⟩

/-! ## Lengths -/

theorem length_normalize (weights : List Float) : (normalize weights).length = weights.length := by
  unfold normalize
  dsimp only
  split
  · exact List.length_map _
  · exact List.length_map _

theorem length_temperatureWeights (policy : List Float) (temperature : Float) :
    (temperatureWeights policy temperature).length = policy.length := by
  unfold temperatureWeights
  split
  · cases policy with
    | nil => rfl
    | cons x rest => exact (List.length_map _).trans List.length_range
  · exact List.length_map _

/-! ## Strategies by mean values -/

namespace MeanValue

theorem succeeds_prepare (hends : game.Ends) (hchild : Live game tree child) (prior : Float32) :
    SearchM.Succeeds game tree (fun _ _ => True) (prepare child prior) := by
  obtain ⟨q, hq⟩ := hchild
  obtain ⟨o, ho⟩ := hends.exists_outcome hq.reachable
  refine (succeeds_onTree (GameTree.answers_outcome hq.position ho)).bind fun _ _ h₁ _ => ?_
  refine (succeeds_initialValue _).bind fun _ _ h₂ _ => ?_
  exact succeeds_changeStat ((hq.later h₁).later h₂).position _

theorem succeeds_appraiseByRollout (hends : game.Ends) (hp : Holds game tree node p) :
    SearchM.Succeeds game tree (fun _ _ => True) (appraiseByRollout node) := by
  obtain ⟨next, hnext⟩ := hends.exists_successors hp.reachable
  refine (succeeds_onTree (GameTree.answers_legalMoves hp.position hnext)).bind
    fun moves _ h₁ ⟨hmoves, _⟩ => ?_
  have hp := hp.later h₁
  refine Succeeds.bind (.forM fun child hchild => ?_) fun _ _ h₂ _ => ?_
  · obtain ⟨q, -, hq⟩ := hp.child hnext hmoves hchild
    exact succeeds_prepare hends ⟨q, hq⟩ 1
  have hp := hp.later h₂
  refine (succeeds_onTree (GameTree.answers_position hp.position)).bind fun pos _ h₃ hpos => ?_
  subst pos
  have hp := hp.later h₃
  refine succeeds_game.bind fun g _ h₄ hg => ?_
  subst g
  refine (succeeds_rollout hends hp.reachable).bind fun _ _ h₅ _ => ?_
  exact succeeds_changeStat ((hp.later h₄).later h₅).position _

theorem succeeds_weighByVisits (params : SearchParams) (depth : Nat) (root : NodeId)
    (hmoves : ∀ child ∈ moves, Live game tree child) :
    SearchM.Succeeds game tree (fun _ weighed => weighed.2.length = moves.length)
      (weighByVisits params depth root moves) := by
  refine Succeeds.bind (.mapM (R := fun _ _ => True) fun child hchild => ?_)
    fun visits _ _ hvisits => .pure fun _ _ => ?_
  · obtain ⟨q, hq⟩ := hmoves child hchild
    exact (succeeds_stat hq.position).bind fun _ _ _ _ => .pure fun _ _ => trivial
  · exact (length_normalize visits).trans hvisits.length_eq.symm

theorem succeeds_childValue (hparent : Live game tree parent) (hchild : Live game tree child)
    (stat : Stat MeanValue) :
    SearchM.Succeeds game tree (fun _ _ => True) (childValue parent child stat) := by
  obtain ⟨p, hp⟩ := hparent
  obtain ⟨q, hq⟩ := hchild
  exact (succeeds_onTree (GameTree.answers_sameMover hp.position hq.position)).bind
    fun _ _ _ _ => .pure fun _ _ => trivial

/-- What the two priorities by mean values have in common: the statistics of both nodes, the
value of the child, the bias for the end and the exploration unless the child is the end. -/
theorem succeeds_priority (hends : game.Ends) (hparent : Live game tree parent)
    (hchild : Live game tree child)
    (combine : Stat MeanValue → Stat MeanValue → Float → Float → Outcome → Float) :
    SearchM.Succeeds game tree (fun _ _ => True) (do
      let parentStat ← SearchM.stat parent
      let stat ← SearchM.stat child
      let value ← childValue parent child stat
      let bias ← SearchM.terminalBias parent child
      return combine parentStat stat value bias (← GameTree.outcome child)) := by
  obtain ⟨p, hp⟩ := hparent
  obtain ⟨q, hq⟩ := hchild
  obtain ⟨o, ho⟩ := hends.exists_outcome hq.reachable
  refine (succeeds_stat hp.position).bind fun _ _ h₁ _ => ?_
  have hp := hp.later h₁
  have hq := hq.later h₁
  refine (succeeds_stat hq.position).bind fun stat _ h₂ _ => ?_
  have hp := hp.later h₂
  have hq := hq.later h₂
  refine (succeeds_childValue ⟨p, hp⟩ ⟨q, hq⟩ stat).bind fun _ _ h₃ _ => ?_
  have hp := hp.later h₃
  have hq := hq.later h₃
  refine (succeeds_terminalBias hp.position hq.position ho).bind fun _ _ h₄ _ => ?_
  exact (succeeds_onTree (GameTree.answers_outcome (hq.later h₄).position ho)).bind
    fun _ _ _ _ => .pure fun _ _ => trivial

/-- An evaluator answers when it is asked about a position that the game has come to. -/
def Answered (game : Game) (evaluator : Evaluator) (params : SearchParams) : Prop :=
  ∀ p next, game.Reachable p → game.successors p = .ok next →
    ∃ evaluations, answers evaluator game.rules.policySize
      ((Frame.first params.reflections).map (Observation.ofPosition game.rules p
        (next.map fun q => game.rules.moveIndex q.last))) = .ok evaluations

theorem answered_uniform (h : game.Encodable) (params : SearchParams) :
    Answered game .uniform params := by
  intro p next hp hnext
  apply Evaluator.exists_answers_uniform
  intro o ho
  obtain ⟨f, -, rfl⟩ := List.mem_map.mp ho
  exact ⟨h.sensible hp hnext f, rfl⟩

theorem succeeds_appraiseBy {evaluator : Evaluator} {params : SearchParams} (hends : game.Ends)
    (hanswered : Answered game evaluator params) (hp : Holds game tree node p) :
    SearchM.Succeeds game tree (fun _ _ => True) (appraiseBy evaluator params node) := by
  obtain ⟨next, hnext⟩ := hends.exists_successors hp.reachable
  refine (succeeds_onTree (GameTree.answers_legalMoves hp.position hnext)).bind
    fun moves _ h₁ ⟨hmoves, _⟩ => ?_
  have hp := hp.later h₁
  refine succeeds_game.bind fun g _ h₂ hg => ?_
  subst g
  have hp := hp.later h₂
  have hmoves := h₂.map_position? hmoves
  have hnodes : (moves.map id).map _ = _ := (List.map_id moves).symm ▸ hmoves
  refine (succeeds_mapM_positions id (fun q => game.rules.moveIndex q.last) hnodes
    fun child q hq => ?_).bind fun indices _ h₃ hindices => ?_
  · refine (succeeds_onTree (GameTree.answers_position hq)).bind fun _ _ _ hposition =>
      .pure fun _ _ => ?_
    rw [hposition]
    rfl
  have hp := hp.later h₃
  have hmoves := h₃.map_position? hmoves
  rw [List.map_id] at hindices
  subst indices
  refine (succeeds_onTree (GameTree.answers_position hp.position)).bind fun pos _ h₄ hpos => ?_
  subst pos
  have hp := hp.later h₄
  have hmoves := h₄.map_position? hmoves
  obtain ⟨evaluations, hevaluations⟩ := hanswered p next hp.reachable hnext
  refine Succeeds.bind (P := fun _ _ => True) (succeeds_byChance fun g => ?_) fun _ _ h₅ _ => ?_
  · exact ⟨evaluations, g, by rw [hevaluations]; rfl, trivial⟩
  have hp := hp.later h₅
  have hmoves := h₅.map_position? hmoves
  refine (succeeds_changeStat hp.position _).bind fun _ _ h₆ _ => .forM fun entry hentry => ?_
  obtain ⟨q, -, hq⟩ := (hp.later h₆).child hnext (h₆.map_position? hmoves)
    (List.of_mem_zip hentry).1
  exact succeeds_prepare hends ⟨q, hq⟩ _

end MeanValue

theorem Strategy.able_vanilla (hends : game.Ends) (params : SearchParams) :
    (vanilla params).Able game where
  priority _ _ _ hparent hchild := MeanValue.succeeds_priority hends hparent hchild _
  appraise _ _ _ hp _ := MeanValue.succeeds_appraiseByRollout hends hp
  weigh _ depth root _ _ hmoves := MeanValue.succeeds_weighByVisits params depth root hmoves

theorem Strategy.able_alphaZero {evaluator : Option Evaluator} {params : SearchParams}
    (hends : game.Ends) (hanswered : ∀ e ∈ evaluator, MeanValue.Answered game e params) :
    (alphaZero evaluator params).Able game where
  priority _ _ _ hparent hchild := MeanValue.succeeds_priority hends hparent hchild _
  appraise _ _ _ hp _ := by
    cases evaluator with
    | none => exact MeanValue.succeeds_appraiseByRollout hends hp
    | some evaluator => exact MeanValue.succeeds_appraiseBy hends (hanswered evaluator rfl) hp
  weigh _ depth root _ _ hmoves := MeanValue.succeeds_weighByVisits params depth root hmoves

/-! ## The strategy by tallies -/

namespace Tally

theorem succeeds_ofChild (hparent : Live game tree parent) (hchild : Live game tree child) :
    SearchM.Succeeds game tree (fun _ _ => True) (ofChild parent child) := by
  obtain ⟨p, hp⟩ := hparent
  obtain ⟨q, hq⟩ := hchild
  refine (succeeds_stat hq.position).bind fun _ _ h₁ _ => ?_
  exact (succeeds_onTree (GameTree.answers_sameMover (hp.later h₁).position
    (hq.later h₁).position)).bind fun _ _ _ _ => .pure fun _ _ => trivial

theorem succeeds_priority (hends : game.Ends) (hparent : Live game tree parent)
    (hchild : Live game tree child) :
    SearchM.Succeeds game tree (fun _ _ => True) (priority parent child) := by
  refine (succeeds_ofChild hparent hchild).bind fun _ _ h₁ _ => ?_
  obtain ⟨p, hp⟩ := hparent.later h₁
  obtain ⟨q, hq⟩ := hchild.later h₁
  obtain ⟨o, ho⟩ := hends.exists_outcome hq.reachable
  exact (succeeds_onTree (GameTree.answers_wins hp.position hq.position ho)).bind
    fun _ _ _ _ => .pure fun _ _ => trivial

theorem succeeds_appraise (hends : game.Ends) (hp : Holds game tree node p) :
    SearchM.Succeeds game tree (fun _ _ => True) (appraise node) := by
  obtain ⟨next, hnext⟩ := hends.exists_successors hp.reachable
  refine (succeeds_onTree (GameTree.answers_legalMoves hp.position hnext)).bind
    fun moves _ h₁ ⟨hmoves, _⟩ => ?_
  have hp := hp.later h₁
  refine Succeeds.bind (.forM fun child hchild => ?_) fun _ _ h₂ _ => ?_
  · obtain ⟨q, -, hq⟩ := hp.child hnext hmoves hchild
    obtain ⟨o, ho⟩ := hends.exists_outcome hq.reachable
    exact (succeeds_onTree (GameTree.answers_outcome hq.position ho)).bind fun _ _ h _ =>
      succeeds_changeStat (hq.later h).position _
  have hp := hp.later h₂
  refine (succeeds_onTree (GameTree.answers_position hp.position)).bind fun pos _ h₃ hpos => ?_
  subst pos
  have hp := hp.later h₃
  refine succeeds_game.bind fun g _ h₄ hg => ?_
  subst g
  refine (succeeds_rollout hends hp.reachable).bind fun _ _ h₅ _ => ?_
  exact succeeds_changeStat ((hp.later h₄).later h₅).position _

theorem succeeds_weigh (params : SearchParams) (depth : Nat) (hroot : Live game tree root)
    (hmoves : ∀ child ∈ moves, Live game tree child) :
    SearchM.Succeeds game tree (fun _ weighed => weighed.2.length = moves.length)
      (weigh params depth root moves) := by
  refine Succeeds.bind (.mapM (R := fun _ _ => True) fun child hchild => ?_)
    fun values _ _ hvalues => .pure fun _ _ => ?_
  · exact (succeeds_ofChild hroot (hmoves child hchild)).bind
      fun _ _ _ _ => .pure fun _ _ => trivial
  · exact ((length_normalize _).trans (length_temperatureWeights _ _)).trans hvalues.length_eq.symm

end Tally

theorem Strategy.able_dirichlet (hends : game.Ends) (params : SearchParams) :
    (dirichlet params).Able game where
  priority _ _ _ hparent hchild := Tally.succeeds_priority hends hparent hchild
  appraise _ _ _ hp _ := Tally.succeeds_appraise hends hp
  weigh _ depth _ _ hroot hmoves := Tally.succeeds_weigh params depth hroot hmoves

/-! ## Trees -/

namespace GameTree

/-- The trees of a game: a first position, whatever is done to its tree and wherever players
search it. -/
inductive Grown (game : Game) (start : Position) : GameTree → Prop where
  | ofPosition : Grown game start (ofPosition game start)
  | apply {tree : GameTree} {op : Op} (h : Grown game start tree) (hop : op.Counted) :
      Grown game start (op.apply tree)
  | next {tree : GameTree} {player : Player} {node : NodeId} {p : Position}
      (h : Grown game start tree) (hplayer : player.Provided)
      (hp : tree.position? node = some p) : Grown game start (player.next tree node).2.2

theorem Grown.coherent {start : Position} (hstart : start.depth < maxDepth)
    (h : Grown game start tree) : Coherent game tree ∧ tree.Rooted start := by
  induction h with
  | ofPosition =>
      exact ⟨coherent_ofPosition game (Nat.le_of_lt hstart), rooted_ofPosition game start⟩
  | apply _ hop ih =>
      obtain ⟨hcoherent, hroot, -⟩ := Op.apply_spec ih.1 ih.2 hstart hop
      exact ⟨hcoherent, hroot⟩
  | next _ hplayer hp ih =>
      have hmoves := hplayer.next ih.1 hp
      exact ⟨hmoves.coherent, hmoves.grows.rooted ih.2⟩

end GameTree

/-! ## Players -/

namespace Player

/-- The players that come with the program, in any state. If they ask an evaluator, it is the
one without knowledge. -/
inductive Standard : Player → Prop where
  | random (generator : Generator) : Standard (random generator)
  | vanilla (params : SearchParams) (statistics : Statistics MeanValue) (generator : Generator) :
      Standard (byMean ⟨.vanilla params, statistics, generator⟩)
  | alphaZero {evaluator : Option Evaluator} (h : ∀ e ∈ evaluator, e = .uniform)
      (params : SearchParams) (statistics : Statistics MeanValue) (generator : Generator) :
      Standard (byMean ⟨.alphaZero evaluator params, statistics, generator⟩)
  | dirichlet (params : SearchParams) (statistics : Statistics Tally) (generator : Generator) :
      Standard (byTally ⟨.dirichlet params, statistics, generator⟩)

/-- A move that was made from `root`, with what was recorded. -/
def Decides (game : Game) (root : NodeId) (p : Position) (next : List Position)
    (move : Except EngineError (NodeId × Option Slice) × Player × GameTree) : Prop :=
  ∃ child slice, move.1 = .ok (child, slice) ∧ Picked game root p next move.2.2 child ∧
    ∀ s ∈ slice, Records game p next s

theorem decides_random (generator : Generator) (hends : game.Ends) (htree : Coherent game tree)
    (hp : Holds game tree root p) (hopen : game.outcome p = .ok .undetermined)
    (hnext : game.successors p = .ok next) :
    Decides game root p next ((random generator).next tree root) := by
  obtain ⟨child, after, hruns, -, -, hpicked⟩ :=
    succeeds_pickByChance hends hp hopen hnext ⟨tree, .empty, generator⟩ htree (Develops.refl tree)
  have hrun : (pickByChance root).run ⟨tree, .empty, generator⟩ = (.ok child, after) := hruns
  unfold Player.next
  dsimp only
  rw [hrun]
  exact ⟨child, none, rfl, hpicked, nofun⟩

theorem decides_search [Inhabited V] {strategy : Strategy V} (h : strategy.Able game)
    (kind : TreeSearch V → Player) (statistics : Statistics V) (generator : Generator)
    (hends : game.Ends) (htree : Coherent game tree) (hp : Holds game tree root p)
    (hopen : game.outcome p = .ok .undetermined) (hnext : game.successors p = .ok next) :
    Decides game root p next
      (let (result, search, tree) :=
        TreeSearch.run ⟨strategy, statistics, generator⟩ tree (MonteCarlo.search strategy root)
      (result.map fun (child, slice) => (child, some slice), kind search, tree)) := by
  obtain ⟨⟨child, slice⟩, after, hruns, -, -, hpicked, hrecords⟩ :=
    MonteCarlo.succeeds_search h hends hp hopen hnext ⟨tree, statistics, generator⟩ htree
      (Develops.refl tree)
  have hrun : (MonteCarlo.search strategy root).run ⟨tree, statistics, generator⟩ =
      (.ok (child, slice), after) := hruns
  unfold TreeSearch.run
  dsimp only
  rw [hrun]
  refine ⟨child, some slice, rfl, hpicked, fun s hs => ?_⟩
  exact Option.some.inj hs ▸ hrecords

theorem Standard.decides {player : Player} (h : player.Standard) (hends : game.Ends)
    (hencodable : game.Encodable) (htree : Coherent game tree) (hp : Holds game tree root p)
    (hopen : game.outcome p = .ok .undetermined) (hnext : game.successors p = .ok next) :
    Decides game root p next (player.next tree root) := by
  cases h with
  | random generator => exact decides_random generator hends htree hp hopen hnext
  | vanilla params statistics generator =>
      exact decides_search (Strategy.able_vanilla hends params) byMean statistics generator
        hends htree hp hopen hnext
  | alphaZero hevaluator params statistics generator =>
      have hanswered : ∀ e ∈ _, MeanValue.Answered game e params := fun e he =>
        hevaluator e he ▸ MeanValue.answered_uniform hencodable params
      exact decides_search (Strategy.able_alphaZero hends hanswered) byMean statistics generator
        hends htree hp hopen hnext
  | dirichlet params statistics generator =>
      exact decides_search (Strategy.able_dirichlet hends params) byTally statistics generator
        hends htree hp hopen hnext

/-- In an open position that a built-in game has come to, every player makes a move. It is one
of the legal moves that the tree lists, it wins at once if one of them does, and what is
recorded has one entry for each of them. -/
theorem next_decides {id : String} (hgame : Registry.builtIn.create id = .ok game)
    {start : Position} (hstart : start.depth < maxDepth) (htree : GameTree.Grown game start tree)
    (hp : tree.position? node = some p) (hreachable : game.Reachable p)
    (hopen : game.outcome p = .ok .undetermined) {player : Player} (hplayer : player.Standard) :
    ∃ child slice next moves, (player.next tree node).1 = .ok (child, slice) ∧
      game.successors p = .ok next ∧
      let after := (player.next tree node).2.2
      GameTree.value (GameTree.legalMoves node) after = .ok moves ∧
        moves.map after.position? = next.map some ∧ child ∈ moves ∧
        ((∃ q ∈ next, game.WinsAtOnce p q) →
          ∃ q, after.position? child = some q ∧ game.WinsAtOnce p q) ∧
        ∀ s ∈ slice, s.board = p.board ∧ s.mover = p.mover ∧
          s.shares.map (·.index) = next.map fun q => game.rules.moveIndex q.last := by
  have hends : game.Ends := fun q hq =>
    ⟨540, by decide, Registry.endsWithin_of_reachable hgame hq⟩
  obtain ⟨next, hnext⟩ := hends.exists_successors hreachable
  obtain ⟨hcoherent, -⟩ := htree.coherent hstart
  obtain ⟨child, slice, hmove, ⟨⟨moves, hchildren, hmoves, hmem⟩, hwins⟩, hrecords⟩ :=
    hplayer.decides hends (Registry.encodable_of_create hgame) hcoherent ⟨hp, hreachable⟩ hopen
      hnext
  refine ⟨child, slice, next, moves, hmove, hnext, ?_⟩
  refine ⟨(GameTree.legalMoves_of_children? hchildren).1, hmoves, hmem, hwins, fun s hs => ?_⟩
  obtain ⟨hboard, hmover, hindices⟩ := hrecords s hs
  exact ⟨hboard, hmover, hindices⟩

/-- Two crosses stand on a diagonal whose last square is free. Whoever plays them takes it. -/
theorem next_decides_diagonal :
    let game : Game := ⟨BuiltIn.ticTacToe, .template⟩
    ∃ p, game.Reachable p ∧ game.outcome p = .ok .undetermined ∧
      ∀ player : Player, player.Standard → ∃ child slice q,
        let move := player.next (GameTree.ofPosition game p) ⟨0⟩
        move.1 = .ok (child, slice) ∧ move.2.2.position? child = some q ∧
          game.WinsAtOnce p q := by
  intro game
  have hgame : Registry.builtIn.create "tictactoe" = .ok game :=
    Registry.create_eq_ok.mpr List.mem_cons_self
  have hchecked : (game.after [1, 2, 0, 0]).any (fun p => decide (p.mover = .white ∧ p.depth = 4 ∧
      (game.outcome p).toOption = some .undetermined) &&
        ((game.successors p).toOption.getD []).any fun q =>
          decide (q.mover = .black ∧ (game.outcome q).toOption = some .lose)) = true := by
    decide +kernel
  cases hplayed : game.after [1, 2, 0, 0] with
  | none =>
      rw [hplayed] at hchecked
      cases hchecked
  | some p =>
      rw [hplayed] at hchecked
      simp only [Option.any_some, Bool.and_eq_true, decide_eq_true_eq, List.any_eq_true] at hchecked
      obtain ⟨⟨hmover, hdepth, hopen⟩, w, hw, hwinner, hwin⟩ := hchecked
      have hreachable := Game.reachable_of_after hplayed
      have hopen := ok_of_toOption hopen
      refine ⟨p, hreachable, hopen, fun player hplayer => ?_⟩
      obtain ⟨child, slice, next, moves, hmove, hnext, -, -, -, hwins, -⟩ :=
        next_decides hgame (hdepth ▸ by decide : p.depth < maxDepth) .ofPosition
          (GameTree.rooted_ofPosition game p) hreachable hopen hplayer
      have hatOnce : game.WinsAtOnce p w := by
        unfold Game.WinsAtOnce
        rw [hwinner, hmover]
        exact ok_of_toOption hwin
      rw [hnext] at hw
      obtain ⟨q, hq, hwin⟩ := hwins ⟨w, hw, hatOnce⟩
      exact ⟨child, slice, q, hmove, hq, hwin⟩

end Player

end BoardGame
