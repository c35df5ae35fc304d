import BoardGame.Proofs.Search.Accounts
/-!
# The players under audit

The strategies that come with the program read the statistics of the node that they judge and of
its children, and of no other. So the moves of all players can be audited, as long as what they
remember of the plies from the current one on is covered by their ledgers.
-/

namespace BoardGame

open Stateful SearchM
open GameTree (Coherent Deep Grows)

variable {α β : Type} {game : Game} {least d : Nat} {tree after : GameTree}
  {id parent child root : NodeId} {p : Position} {moves : List NodeId} {l : Ledger}

/-! ## Chance -/

namespace ChanceM.Blameless

theorem bind {x : ChanceM α} {f : α → ChanceM β} (hx : ChanceM.Blameless x)
    (hf : ∀ a, ChanceM.Blameless (f a)) : ChanceM.Blameless (x >>= f) := by
  intro g
  have hmet := hx g
  cases hvalue : value x g with
  | ok a =>
      rw [value_bind_of_ok hvalue]
      exact hf a _
  | error e =>
      rw [value_bind_of_error hvalue]
      rwa [hvalue] at hmet

theorem lift {x : Except EngineError α} (h : Met (fun _ => True) x) :
    ChanceM.Blameless (liftM x) := by
  intro g
  cases x with
  | ok a => exact trivial
  | error e => exact h

theorem random (x : RandomM α) : ChanceM.Blameless (liftM x) :=
  fun _ => trivial

end ChanceM.Blameless

theorem Rollout.blameless_playFrom (game : Game) (fuel : Nat) (p : Position) :
    ChanceM.Blameless (playFrom game fuel p) := by
  induction fuel generalizing p with
  | zero => exact fun _ => nofun
  | succ fuel ih =>
      refine .bind (.lift (game.met_outcome p)) fun outcome => ?_
      cases outcome.isTerminal with
      | true => exact fun _ => trivial
      | false =>
          refine .bind (.lift (game.met_successors p)) fun children => ?_
          refine .bind (.lift ?_) fun verdicts => .bind (.random _) fun index => ?_
          · refine Met.mapM (fun child => ?_) children
            exact (game.met_outcome child).bind fun _ _ => trivial
          · cases index.bind (children[·]?) with
            | none => exact fun _ => nofun
            | some child => exact ih child

theorem blameless_rollout (game : Game) (p : Position) : ChanceM.Blameless (rollout game p) :=
  Rollout.blameless_playFrom game Rollout.maxPlies p

/-! ## Strategies by mean values -/

namespace MeanValue

theorem met_answers (evaluator : Evaluator) (policySize : Nat) (observations : List Observation) :
    Met (fun _ => True) (answers evaluator policySize observations) := by
  unfold answers
  refine Met.bind (P := fun _ => True) ?_ fun given _ => ?_
  · cases evaluator.evaluate observations with
    | ok given => exact trivial
    | error e => exact nofun
  · dsimp only
    split
    · exact nofun
    · split
      · exact nofun
      · exact trivial

variable {γ : Type} {S : ∀ α : Type, SearchM MeanValue α → SearchState MeanValue → γ → γ → Prop}
  {K : SearchState MeanValue → γ → Prop} (ha : Auditor game least S K)

include ha

theorem accountable_prepare (hchild : Deep least tree child) (prior : Float32) :
    SearchM.Accountable S K tree (fun _ _ => True) (prepare child prior) := by
  refine (ha.outcome hchild).bind fun outcome _ h₁ _ => ?_
  refine (ha.random (initialValue outcome)).bind fun _ _ h₂ _ => ?_
  exact ha.changeStat (hchild.later (h₁.trans h₂)) _

theorem accountable_appraiseByRollout (hid : Deep least tree id) :
    SearchM.Accountable S K tree (fun _ _ => True) (appraiseByRollout id) := by
  refine (ha.legalMoves hid).bind fun moves _ h₁ hmoves => ?_
  refine Accountable.bind (.forM fun c hc => accountable_prepare ha (hmoves c hc) 1)
    fun _ _ h₂ _ => ?_
  have hid := hid.later (h₁.trans h₂)
  have ⟨p, hp, _⟩ := hid
  refine (ha.position hp).bind fun pos _ h₃ _ => ?_
  refine ha.readGame.bind fun g _ h₄ _ => ?_
  refine (ha.byChance (blameless_rollout g pos)).bind fun _ _ h₅ _ => ?_
  exact ha.changeStat (hid.later ((h₃.trans h₄).trans h₅)) _

theorem accountable_weighByVisits (params : SearchParams) (depth : Nat) (root : NodeId)
    (hmoves : ∀ c ∈ moves, Deep least tree c) :
    SearchM.Accountable S K tree (fun _ _ => True)
      (weighByVisits params depth root moves) :=
  Accountable.bind (.mapM fun c hc => (ha.stat (hmoves c hc)).bind fun _ _ _ _ =>
    .pure fun _ _ => trivial) fun _ _ _ _ => .pure fun _ _ => trivial

theorem accountable_priority (hparent : Deep least tree parent) (hchild : Deep least tree child)
    (combine : Stat MeanValue → Stat MeanValue → Float → Float → Outcome → Float) :
    SearchM.Accountable S K tree (fun _ _ => True) (do
      let parentStat ← SearchM.stat parent
      let stat ← SearchM.stat child
      let value ← childValue parent child stat
      let bias ← SearchM.terminalBias parent child
      return combine parentStat stat value bias (← GameTree.outcome child)) := by
  refine (ha.stat hparent).bind fun _ _ h₁ _ => ?_
  refine (ha.stat (hchild.later h₁)).bind fun stat _ h₂ _ => ?_
  have h₂ := h₁.trans h₂
  have hvalue : SearchM.Accountable S K _ (fun _ _ => True)
      (childValue parent child stat) :=
    (ha.onTree (GameTree.replies_sameMover (hparent.later h₂) (hchild.later h₂))).bind
      fun _ _ _ _ => .pure fun _ _ => trivial
  refine hvalue.bind fun _ _ h₃ _ => ?_
  have h₃ := h₂.trans h₃
  refine (ha.terminalBias (hparent.later h₃) (hchild.later h₃)).bind fun _ _ h₄ _ => ?_
  exact (ha.outcome (hchild.later (h₃.trans h₄))).bind fun _ _ _ _ =>
    .pure fun _ _ => trivial

theorem accountable_appraiseBy (evaluator : Evaluator) (params : SearchParams)
    (hid : Deep least tree id) :
    SearchM.Accountable S K tree (fun _ _ => True) (appraiseBy evaluator params id) := by
  refine (ha.legalMoves hid).bind fun moves _ h₁ hmoves => ?_
  refine ha.readGame.bind fun g _ h₂ _ => ?_
  have hmoves := fun c hc => (hmoves c hc).later h₂
  have h₂ := h₁.trans h₂
  refine Accountable.bind (.mapM fun c hc => ?_) fun indices _ h₃ _ => ?_
  · obtain ⟨q, hq, -⟩ := hmoves c hc
    exact (ha.position hq).bind fun _ _ _ _ => .pure fun _ _ => trivial
  have hmoves := fun c hc => (hmoves c hc).later h₃
  have hid := hid.later (h₂.trans h₃)
  have ⟨p, hp, _⟩ := hid
  refine (ha.position hp).bind fun pos _ h₄ _ => ?_
  refine (ha.byChance (.lift (met_answers evaluator _ _))).bind fun _ _ h₅ _ => ?_
  have h₅ := h₄.trans h₅
  refine (ha.changeStat (hid.later h₅) _).bind fun _ _ h₆ _ => .forM fun entry hentry => ?_
  exact accountable_prepare ha ((hmoves entry.1 (List.of_mem_zip hentry).1).later (h₅.trans h₆)) _

end MeanValue

theorem Strategy.auditable_vanilla (game : Game) (params : SearchParams) :
    (vanilla params).Auditable game where
  priority ha hparent hchild := MeanValue.accountable_priority ha hparent hchild _
  appraise ha hid := MeanValue.accountable_appraiseByRollout ha hid
  weigh depth root ha _ hmoves := MeanValue.accountable_weighByVisits ha params depth root hmoves

theorem Strategy.auditable_alphaZero (game : Game) (evaluator : Option Evaluator)
    (params : SearchParams) : (alphaZero evaluator params).Auditable game where
  priority ha hparent hchild := MeanValue.accountable_priority ha hparent hchild _
  appraise ha hid := by
    cases evaluator with
    | none => exact MeanValue.accountable_appraiseByRollout ha hid
    | some evaluator => exact MeanValue.accountable_appraiseBy ha evaluator params hid
  weigh depth root ha _ hmoves := MeanValue.accountable_weighByVisits ha params depth root hmoves

/-! ## The strategy by tallies -/

namespace Tally

variable {γ : Type} {S : ∀ α : Type, SearchM Tally α → SearchState Tally → γ → γ → Prop}
  {K : SearchState Tally → γ → Prop} (ha : Auditor game least S K)

include ha

theorem accountable_ofChild (hparent : Deep least tree parent) (hchild : Deep least tree child) :
    SearchM.Accountable S K tree (fun _ _ => True) (ofChild parent child) := by
  refine (ha.stat hchild).bind fun _ _ h _ => ?_
  exact (ha.onTree (GameTree.replies_sameMover (hparent.later h) (hchild.later h))).bind
    fun _ _ _ _ => .pure fun _ _ => trivial

theorem accountable_priority (hparent : Deep least tree parent) (hchild : Deep least tree child) :
    SearchM.Accountable S K tree (fun _ _ => True) (priority parent child) := by
  refine (accountable_ofChild ha hparent hchild).bind fun _ _ h _ => ?_
  exact (ha.onTree (GameTree.replies_wins (hchild.later h) (hparent.later h))).bind
    fun _ _ _ _ => .pure fun _ _ => trivial

theorem accountable_appraise (hid : Deep least tree id) :
    SearchM.Accountable S K tree (fun _ _ => True) (appraise id) := by
  refine (ha.legalMoves hid).bind fun moves _ h₁ hmoves => ?_
  refine Accountable.bind (.forM fun c hc => ?_) fun _ _ h₂ _ => ?_
  · exact (ha.outcome (hmoves c hc)).bind fun _ _ h _ =>
      ha.changeStat ((hmoves c hc).later h) _
  have hid := hid.later (h₁.trans h₂)
  have ⟨p, hp, _⟩ := hid
  refine (ha.position hp).bind fun pos _ h₃ _ => ?_
  refine ha.readGame.bind fun g _ h₄ _ => ?_
  refine (ha.byChance (blameless_rollout g pos)).bind fun _ _ h₅ _ => ?_
  exact ha.changeStat (hid.later ((h₃.trans h₄).trans h₅)) _

theorem accountable_weigh (params : SearchParams) (depth : Nat) (hroot : Deep least tree root)
    (hmoves : ∀ c ∈ moves, Deep least tree c) :
    SearchM.Accountable S K tree (fun _ _ => True) (weigh params depth root moves) :=
  Accountable.bind (.mapM fun c hc => (accountable_ofChild ha hroot (hmoves c hc)).bind
    fun _ _ _ _ => .pure fun _ _ => trivial) fun _ _ _ _ => .pure fun _ _ => trivial

end Tally

theorem Strategy.auditable_dirichlet (game : Game) (params : SearchParams) :
    (dirichlet params).Auditable game where
  priority ha hparent hchild := Tally.accountable_priority ha hparent hchild
  appraise ha hid := Tally.accountable_appraise ha hid
  weigh depth _ ha hroot hmoves := Tally.accountable_weigh ha params depth hroot hmoves

/-! ## Players -/

namespace Player

/-- The move of a player from a node can be traced through the ledger of what it remembers. -/
inductive Traced : Player → GameTree → NodeId → Ledger → Ledger → Prop
  | random {generator : Generator} {tree : GameTree} {id : NodeId} {l l' : Ledger}
      (h : Stateful.Traced SearchM.Step (pickByChance id) ⟨tree, .empty, generator⟩ l l') :
      Traced (random generator) tree id l l'
  | byMean {search : TreeSearch MeanValue} {tree : GameTree} {id : NodeId} {l l' : Ledger}
      (h : Stateful.Traced SearchM.Step (MonteCarlo.search search.strategy id)
        ⟨tree, search.statistics, search.generator⟩ l l') :
      Traced (byMean search) tree id l l'
  | byTally {search : TreeSearch Tally} {tree : GameTree} {id : NodeId} {l l' : Ledger}
      (h : Stateful.Traced SearchM.Step (MonteCarlo.search search.strategy id)
        ⟨tree, search.statistics, search.generator⟩ l l') :
      Traced (byTally search) tree id l l'

/-- The ledger covers what a player remembers of the plies from a depth on. -/
def Covered (least : Nat) (tree : GameTree) (l : Ledger) : Player → Prop
  | random _ => True
  | byMean search => l.Covers least tree search.statistics
  | byTally search => l.Covers least tree search.statistics

/-- Whether a player records what it does. -/
def searches : Player → Bool
  | random _ => false
  | byMean _ | byTally _ => true

theorem Covered.carry {player : Player} (h : player.Covered least tree l) (hle : least ≤ d)
    (hkept : tree.HoldsFrom d after) : player.Covered d after (l.carry tree after) := by
  cases player with
  | random generator => exact trivial
  | byMean search => exact Ledger.Covers.carry h hle hkept
  | byTally search => exact Ledger.Covers.carry h hle hkept

theorem covered_gameOver (player : Player) (least : Nat) (tree : GameTree) (l : Ledger) :
    player.gameOver.Covered least tree l := by
  cases player with
  | random generator => exact trivial
  | byMean search => exact Ledger.Covers.empty l least tree
  | byTally search => exact Ledger.Covers.empty l least tree

theorem met_recorded {r : Except EngineError (NodeId × Slice)}
    (h : Met (fun move => move.2.Depicts p) r) :
    Met (fun move => move.2.isSome = true ∧ ∀ slice ∈ move.2, slice.Depicts p)
      (r.map fun (child, slice) => (child, some slice)) :=
  h.map fun _ hslice => ⟨rfl, fun _ hs => Option.some.inj hs ▸ hslice⟩

/-- Whatever a player remembers, it moves or fails otherwise than by eviction. If it searches,
what it records shows the position. -/
theorem Provided.meets {player : Player} (h : player.Provided) (htree : Coherent game tree)
    (hp : tree.position? id = some p) :
    Met (fun move => move.2.isSome = player.searches ∧ ∀ slice ∈ move.2, slice.Depicts p)
      (player.next tree id).1 := by
  have hgrows := Grows.refl tree
  have hle := Nat.le_refl p.depth
  cases h with
  | random generator =>
      obtain ⟨-, -, -, hmet⟩ := accountable_pickByChance (auditor_coherent game p.depth)
        ⟨p, hp, hle⟩ tree hgrows ⟨tree, .empty, generator⟩ () ⟨htree, hgrows⟩
      exact hmet.map fun _ _ => ⟨rfl, nofun⟩
  | vanilla params statistics generator =>
      obtain ⟨-, -, -, hmet⟩ := MonteCarlo.accountable_search (auditor_coherent game p.depth)
        (Strategy.auditable_vanilla game params) hp hle tree hgrows
        ⟨tree, statistics, generator⟩ () ⟨htree, hgrows⟩
      exact met_recorded hmet
  | alphaZero evaluator params statistics generator =>
      obtain ⟨-, -, -, hmet⟩ := MonteCarlo.accountable_search (auditor_coherent game p.depth)
        (Strategy.auditable_alphaZero game evaluator params) hp hle tree hgrows
        ⟨tree, statistics, generator⟩ () ⟨htree, hgrows⟩
      exact met_recorded hmet
  | dirichlet params statistics generator =>
      obtain ⟨-, -, -, hmet⟩ := MonteCarlo.accountable_search (auditor_coherent game p.depth)
        (Strategy.auditable_dirichlet game params) hp hle tree hgrows
        ⟨tree, statistics, generator⟩ () ⟨htree, hgrows⟩
      exact met_recorded hmet

theorem searches_next (player : Player) (tree : GameTree) (id : NodeId) :
    (player.next tree id).2.1.searches = player.searches := by
  cases player <;> rfl

/-- If the ledger covers what a player remembers from the depth of a node on, its move from there
can be traced, and what it remembers is covered afterwards. -/
theorem Provided.audited {player : Player} (h : player.Provided) (htree : Coherent game tree)
    (hp : tree.position? id = some p) (hle : least ≤ p.depth)
    (hcovered : player.Covered least tree l) :
    ∃ l', player.Traced tree id l l' ∧
      (player.next tree id).2.1.Covered least (player.next tree id).2.2 l' := by
  have hgrows := Grows.refl tree
  cases h with
  | random generator =>
      obtain ⟨l', htraced, -⟩ := accountable_pickByChance (auditor_kept game least)
        ⟨p, hp, hle⟩ tree hgrows ⟨tree, .empty, generator⟩ l
        ⟨⟨htree, .empty l least tree⟩, hgrows⟩
      exact ⟨l', .random htraced, trivial⟩
  | vanilla params statistics generator =>
      obtain ⟨l', htraced, ⟨⟨-, hcovers⟩, -⟩, -⟩ :=
        MonteCarlo.accountable_search (auditor_kept game least)
          (Strategy.auditable_vanilla game params) hp hle tree hgrows
          ⟨tree, statistics, generator⟩ l ⟨⟨htree, hcovered⟩, hgrows⟩
      exact ⟨l', .byMean htraced, hcovers⟩
  | alphaZero evaluator params statistics generator =>
      obtain ⟨l', htraced, ⟨⟨-, hcovers⟩, -⟩, -⟩ :=
        MonteCarlo.accountable_search (auditor_kept game least)
          (Strategy.auditable_alphaZero game evaluator params) hp hle tree hgrows
          ⟨tree, statistics, generator⟩ l ⟨⟨htree, hcovered⟩, hgrows⟩
      exact ⟨l', .byMean htraced, hcovers⟩
  | dirichlet params statistics generator =>
      obtain ⟨l', htraced, ⟨⟨-, hcovers⟩, -⟩, -⟩ :=
        MonteCarlo.accountable_search (auditor_kept game least)
          (Strategy.auditable_dirichlet game params) hp hle tree hgrows
          ⟨tree, statistics, generator⟩ l ⟨⟨htree, hcovered⟩, hgrows⟩
      exact ⟨l', .byTally htraced, hcovers⟩

end Player

end BoardGame
