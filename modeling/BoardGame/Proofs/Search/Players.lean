import BoardGame.Proofs.Search.Safety
/-!
# The players

The strategies that come with the program leave the counting of visits to the search. So a
player that uses one of them, or chance, picks a successor if it picks at all, and only adds to
the tree.
-/

namespace BoardGame

open Stateful SearchM

variable {game : Game}

section

variable {R : SearchState MeanValue → SearchState MeanValue → Prop}
  [IsPreorder (SearchState MeanValue) R]

/-! ## Strategies by mean values -/

namespace MeanValue

theorem keeps_prepare (hR : Permissive R) (child : NodeId) (prior : Float32) :
    Keeps R (prepare child prior) :=
  (hR.outcome child).bind fun _ => (hR.byChance _).bind fun _ => hR.value child _

theorem appraises_byRollout (id : NodeId) : Appraises id (appraiseByRollout id) :=
  ⟨_, rfl, fun _ _ hR moves =>
    (Keeps.forM (fun child => keeps_prepare hR child 1) moves).bind fun _ =>
      (keeps_position id).bind fun _ => keeps_game.bind fun _ =>
        (hR.byChance _).bind fun _ => hR.value id _⟩

theorem keeps_weighByVisits (params : SearchParams) (depth : Nat) (root : NodeId)
    (moves : List NodeId) : Keeps R (weighByVisits params depth root moves) :=
  (Keeps.mapM (fun child => (keeps_stat child).bind fun _ => .pure _) moves).bind fun _ => .pure _

theorem keeps_childValue (parent child : NodeId) (stat : Stat MeanValue) :
    Keeps R (childValue parent child stat) :=
  (keeps_sameMover parent child).bind fun _ => .pure _

theorem keeps_fadingPriority (hR : Curious R) (params : SearchParams)
    (parent child : NodeId) : Keeps R (fadingPriority params parent child) :=
  (keeps_stat parent).bind fun _ => (keeps_stat child).bind fun _ =>
    (keeps_childValue parent child _).bind fun _ => (hR.terminalBias parent child).bind fun _ =>
      (hR.outcome child).bind fun _ => .pure _

theorem keeps_guidedPriority (hR : Curious R) (params : SearchParams)
    (parent child : NodeId) : Keeps R (guidedPriority params parent child) :=
  (keeps_stat parent).bind fun _ => (keeps_stat child).bind fun _ =>
    (keeps_childValue parent child _).bind fun _ => (hR.terminalBias parent child).bind fun _ =>
      (hR.outcome child).bind fun _ => .pure _

theorem appraises_by (evaluator : Evaluator) (params : SearchParams) (id : NodeId) :
    Appraises id (appraiseBy evaluator params id) :=
  ⟨_, rfl, fun _ _ hR moves => keeps_game.bind fun _ =>
    (Keeps.mapM (fun child => (keeps_position child).bind fun _ => .pure _) moves).bind fun _ =>
      (keeps_position id).bind fun _ => (hR.byChance _).bind fun _ =>
        (hR.value id _).bind fun _ => .forM (fun (child, prior) => keeps_prepare hR child prior) _⟩

end MeanValue

end

theorem Strategy.tame_vanilla (params : SearchParams) : (vanilla params).Tame where
  priority _ _ hR := MeanValue.keeps_fadingPriority hR params
  appraise := MeanValue.appraises_byRollout
  weigh _ _ _ := MeanValue.keeps_weighByVisits params

theorem Strategy.tame_alphaZero (evaluator : Option Evaluator) (params : SearchParams) :
    (alphaZero evaluator params).Tame where
  priority _ _ hR := MeanValue.keeps_guidedPriority hR params
  appraise := by
    cases evaluator with
    | none => exact MeanValue.appraises_byRollout
    | some evaluator => exact MeanValue.appraises_by evaluator params
  weigh _ _ _ := MeanValue.keeps_weighByVisits params

/-! ## The strategy by tallies -/

namespace Tally

variable {R : SearchState Tally → SearchState Tally → Prop} [IsPreorder (SearchState Tally) R]

theorem keeps_ofChild (parent child : NodeId) : Keeps R (ofChild parent child) :=
  (keeps_stat child).bind fun _ => (keeps_sameMover parent child).bind fun _ => .pure _

theorem keeps_priority (hR : Curious R) (parent child : NodeId) :
    Keeps R (priority parent child) :=
  (keeps_ofChild parent child).bind fun _ => (hR.wins child parent).bind fun _ => .pure _

theorem appraises (id : NodeId) : Appraises id (appraise id) :=
  ⟨_, rfl, fun _ _ hR moves =>
    (Keeps.forM (fun child => (hR.outcome child).bind fun _ => hR.value child _) moves).bind
      fun _ => (keeps_position id).bind fun _ => keeps_game.bind fun _ =>
        (hR.byChance _).bind fun _ => hR.value id _⟩

theorem keeps_weigh (params : SearchParams) (depth : Nat) (root : NodeId) (moves : List NodeId) :
    Keeps R (weigh params depth root moves) :=
  (Keeps.mapM (fun child => (keeps_ofChild root child).bind fun _ => .pure _) moves).bind
    fun _ => .pure _

end Tally

theorem Strategy.tame_dirichlet (params : SearchParams) : (dirichlet params).Tame where
  priority _ _ hR := Tally.keeps_priority hR
  appraise := Tally.appraises
  weigh _ _ _ := Tally.keeps_weigh params

/-! ## Players -/

namespace Player

/-- The players that come with the program, in any state. -/
inductive Provided : Player → Prop where
  | random (generator : Generator) : Provided (random generator)
  | vanilla (params : SearchParams) (statistics : Statistics MeanValue) (generator : Generator) :
      Provided (byMean ⟨.vanilla params, statistics, generator⟩)
  | alphaZero (evaluator : Option Evaluator) (params : SearchParams)
      (statistics : Statistics MeanValue) (generator : Generator) :
      Provided (byMean ⟨.alphaZero evaluator params, statistics, generator⟩)
  | dirichlet (params : SearchParams) (statistics : Statistics Tally) (generator : Generator) :
      Provided (byTally ⟨.dirichlet params, statistics, generator⟩)

theorem Provided.gameOver {player : Player} (h : player.Provided) : player.gameOver.Provided := by
  cases h with
  | random generator => exact .random generator
  | vanilla params _ generator => exact .vanilla params .empty generator
  | alphaZero evaluator params _ generator => exact .alphaZero evaluator params .empty generator
  | dirichlet params _ generator => exact .dirichlet params .empty generator

theorem Provided.inquires {player : Player} (h : player.Provided) {T : GameTree → GameTree → Prop}
    [IsPreorder GameTree T] (hT : GameTree.Inquisitive T) (tree : GameTree) (id : NodeId) :
    T tree (player.next tree id).2.2 := by
  cases h with
  | random generator => exact keeps_pickByChance hT id ⟨tree, .empty, generator⟩
  | vanilla params statistics generator =>
      exact MonteCarlo.keeps_search (Strategy.tame_vanilla params) hT id
        ⟨tree, statistics, generator⟩
  | alphaZero evaluator params statistics generator =>
      exact MonteCarlo.keeps_search (Strategy.tame_alphaZero evaluator params) hT id
        ⟨tree, statistics, generator⟩
  | dirichlet params statistics generator =>
      exact MonteCarlo.keeps_search (Strategy.tame_dirichlet params) hT id
        ⟨tree, statistics, generator⟩

/-- What a player does when it is asked for a move in a position of a coherent tree. -/
structure Moves (game : Game) (tree : GameTree) (p : Position)
    (move : Except EngineError (NodeId × Option Slice) × Player × GameTree) : Prop where
  provided : move.2.1.Provided
  coherent : GameTree.Coherent game move.2.2
  grows : GameTree.Grows tree move.2.2
  successor : ∀ child slice, move.1 = .ok (child, slice) →
    ∃ next, game.successors p = .ok next ∧ ∃ q ∈ next, move.2.2.position? child = some q

theorem moves_random (generator : Generator) {tree : GameTree} {id : NodeId} {p : Position}
    (htree : GameTree.Coherent game tree) (hp : tree.position? id = some p) :
    Moves game tree p ((random generator).next tree id) := by
  let s : SearchState Unit := ⟨tree, .empty, generator⟩
  obtain ⟨⟨hcoherent, hgrows⟩, hpick⟩ := finds_pickByChance id s p htree hp
  refine ⟨.random _, hcoherent, hgrows, fun child slice h => ?_⟩
  have hmap : (value (pickByChance id) s).map (fun child => (child, none)) = .ok (child, slice) := h
  cases hvalue : value (pickByChance id) s with
  | error e =>
      rw [hvalue] at hmap
      cases hmap
  | ok child' =>
      rw [hvalue] at hmap
      obtain ⟨rfl, -⟩ := Prod.mk.inj (Except.ok.inj hmap)
      exact hpick child' hvalue

theorem moves_search {V : Type} [Inhabited V] {strategy : Strategy V} (h : strategy.Tame)
    {kind : TreeSearch V → Player} (hprovided : ∀ statistics generator,
      (kind ⟨strategy, statistics, generator⟩).Provided)
    (statistics : Statistics V) (generator : Generator) {tree : GameTree} {id : NodeId}
    {p : Position} (htree : GameTree.Coherent game tree) (hp : tree.position? id = some p) :
    Moves game tree p
      (let (result, search, tree) :=
        TreeSearch.run ⟨strategy, statistics, generator⟩ tree (MonteCarlo.search strategy id)
      (result.map fun (child, slice) => (child, some slice), kind search, tree)) := by
  let s : SearchState V := ⟨tree, statistics, generator⟩
  obtain ⟨⟨hcoherent, hgrows⟩, hpick⟩ := MonteCarlo.finds_search h id s p htree hp
  refine ⟨hprovided _ _, hcoherent, hgrows, fun child slice hmove => ?_⟩
  have hmap : (value (MonteCarlo.search strategy id) s).map
      (fun (child, slice) => (child, some slice)) = .ok (child, slice) := hmove
  cases hvalue : value (MonteCarlo.search strategy id) s with
  | error e =>
      rw [hvalue] at hmap
      cases hmap
  | ok picked =>
      rw [hvalue] at hmap
      obtain ⟨rfl, -⟩ := Prod.mk.inj (Except.ok.inj hmap)
      exact hpick picked hvalue

theorem Provided.next {player : Player} (h : player.Provided) {tree : GameTree} {id : NodeId}
    {p : Position} (htree : GameTree.Coherent game tree) (hp : tree.position? id = some p) :
    Moves game tree p (player.next tree id) := by
  cases h with
  | random generator => exact moves_random generator htree hp
  | vanilla params statistics generator =>
      exact moves_search (Strategy.tame_vanilla params) (.vanilla params) statistics generator
        htree hp
  | alphaZero evaluator params statistics generator =>
      exact moves_search (Strategy.tame_alphaZero evaluator params) (.alphaZero evaluator params)
        statistics generator htree hp
  | dirichlet params statistics generator =>
      exact moves_search (Strategy.tame_dirichlet params) (.dirichlet params) statistics generator
        htree hp

end Player

end BoardGame
