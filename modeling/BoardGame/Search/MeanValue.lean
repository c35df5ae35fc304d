import BoardGame.Search.Strategy
import BoardGame.Evaluator
/-!
# Strategies by mean values

Two strategies keep the mean of the values seen below a node, and a prior.
`Strategy.vanilla` values leaves by rollouts and treats all moves alike beforehand.
`Strategy.alphaZero` asks an evaluator for both, in one or more frames, and falls back
to rollouts without one. Both play in proportion to visits.
-/

namespace BoardGame

/-- Mean value for the side to move, and prior. -/
structure MeanValue where
  mean : Float32 := 0
  prior : Float32 := 0

instance : Inhabited MeanValue := ⟨{}⟩

namespace MeanValue

/-- A number times `r`, raised to a natural power by repeated squaring. -/
def powerFrom (r a : Float) (n : Nat) : Float :=
  let r := if n % 2 = 1 then r * a else r
  if n < 2 then r else powerFrom r (a * a) (n / 2)
termination_by n
decreasing_by omega

/-- Changes the sign of a value for the other side. -/
def seenFrom (same : Bool) (value : Float32) : Float32 :=
  value * (if same then 1 else -1)

/-- The mean with one more value, discounted by the distance it comes from. -/
def absorb (discount : Option Float) (stat : Stat MeanValue) (leaf : MeanValue) (same : Bool)
    (distance : Nat) : MeanValue :=
  let value := seenFrom same leaf.mean
  let value := match discount with
    | some d => value * (powerFrom 1 d distance).toFloat32
    | none => value
  let visits := Float32.ofNat stat.visits
  { stat.value with mean := (stat.value.mean * visits + value) / Float32.ofNat (stat.visits + 1) }

/-- Gives a child its first value and a prior. -/
def prepare (child : NodeId) (prior : Float32) : SearchM MeanValue Unit := do
  let mean ← initialValue (← GameTree.outcome child)
  SearchM.changeStat child fun stat => { stat with value := { mean, prior } }

/-- Values a node by a rollout; its moves have equal priors. -/
def appraiseByRollout (id : NodeId) : SearchM MeanValue Unit := do
  let moves ← GameTree.legalMoves id
  moves.forM fun child => prepare child 1
  let pos ← GameTree.position id
  let (mover, outcome) ← rollout (← SearchM.game) pos
  let mean := seenFrom (mover == pos.mover) outcome.value
  SearchM.changeStat id fun stat => { stat with value := { stat.value with mean } }

/-- Sampling weights and shares by visit counts, sharpened by the temperature. -/
def weighByVisits (params : SearchParams) (depth : Nat) (_root : NodeId) (moves : List NodeId) :
    SearchM MeanValue (List Float × List Float) := do
  let visits ← moves.mapM fun child => return Float.ofNat (← SearchM.stat child).visits
  let shares := normalize visits
  return (temperatureWeights shares (params.temperatureAt depth), shares)

/-- Value of a child for the side to move at its parent. -/
def childValue (parent child : NodeId) (stat : Stat MeanValue) : SearchM MeanValue Float := do
  let sign : Float := if ← GameTree.sameMover parent child then 1 else -1
  return sign * stat.value.mean.toFloat

/-- Priority with a prior that is part of the value and fades with visits. -/
def fadingPriority (params : SearchParams) (parent child : NodeId) : SearchM MeanValue Float := do
  let parentStat ← SearchM.stat parent
  let stat ← SearchM.stat child
  let visits := Float.ofNat stat.visits
  let prior := stat.value.prior.toFloat * 2 / (4 + visits).sqrt
  let value ← childValue parent child stat
  let bias ← SearchM.terminalBias parent child
  let explore :=
    if (← GameTree.outcome child).isTerminal then 0
    else params.exploration * (Float.ofNat parentStat.visits).sqrt / (1 + visits)
  return prior + value + bias + explore

/-- Priority with a prior that scales the exploration. -/
def guidedPriority (params : SearchParams) (parent child : NodeId) : SearchM MeanValue Float := do
  let parentStat ← SearchM.stat parent
  let stat ← SearchM.stat child
  let value ← childValue parent child stat
  let bias ← SearchM.terminalBias parent child
  let explore :=
    if (← GameTree.outcome child).isTerminal then 0
    else params.exploration * stat.value.prior.toFloat * (Float.ofNat parentStat.visits).sqrt /
      (1 + Float.ofNat stat.visits)
  return value + bias + explore

/-- Evaluations of some observations; there is one for each, with a policy of the given
length and a finite value. -/
def answers (evaluator : Evaluator) (policySize : Nat) (observations : List Observation) :
    Except EngineError (List Evaluation) := do
  let answers ← (evaluator.evaluate observations).mapError .evaluator
  if answers.length ≠ observations.length then
    throw (.invariant (.answerCount answers.length observations.length))
  match answers.find? fun a => a.policy.size != policySize || !a.value.isFinite with
  | some a => throw (.evaluator (.unusableAnswer a.policy.size policySize a.value))
  | none => return answers

/-- Mean probability of a move over frames. -/
def priorOf (rules : RuleSet) (views : List (Frame × Evaluation)) (index : Nat) : Float32 :=
  let count := Float32.ofNat views.length
  views.foldl (fun prior view =>
    prior + view.2.policy.getD (rules.flipIndex view.1 index) 0 / count) 0

/-- Values a node and its moves by an evaluator that sees it in several frames. -/
def appraiseBy (evaluator : Evaluator) (params : SearchParams) (id : NodeId) :
    SearchM MeanValue Unit := do
  let moves ← GameTree.legalMoves id
  let rules := (← SearchM.game).rules
  let indices ← moves.mapM fun child => return rules.moveIndex (← GameTree.position child).last
  let frames := Frame.first params.reflections
  let pos ← GameTree.position id
  let observations := frames.map (Observation.ofPosition rules pos indices)
  let answers ← (answers evaluator rules.policySize observations : ChanceM _)
  let mean := answers.foldl (fun sum a => sum + a.value) 0 / Float32.ofNat answers.length
  SearchM.changeStat id fun stat => { stat with value := { stat.value with mean } }
  let priors := indices.map (priorOf rules (frames.zip answers))
  (moves.zip priors).forM fun (child, prior) => prepare child prior

end MeanValue

namespace Strategy

/-- Values by rollouts, equal priors. -/
def vanilla (params : SearchParams) : Strategy MeanValue where
  name := "vanilla"
  params := params
  priority := MeanValue.fadingPriority params
  appraise := MeanValue.appraiseByRollout
  absorb := MeanValue.absorb params.discount
  weigh := MeanValue.weighByVisits params

/-- Values and priors by an evaluator, or by rollouts without one. -/
def alphaZero (evaluator : Option Evaluator) (params : SearchParams) : Strategy MeanValue where
  name := if evaluator.isSome then "alphazero" else "alphazero-no-model"
  params := params
  priority := MeanValue.guidedPriority params
  appraise := match evaluator with
    | some evaluator => MeanValue.appraiseBy evaluator params
    | none => MeanValue.appraiseByRollout
  absorb := MeanValue.absorb params.discount
  weigh := MeanValue.weighByVisits params

end Strategy

end BoardGame
