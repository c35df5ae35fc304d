import BoardGame.Game
/-!
# Finding out an outcome

The outcome of a position is found out in the monad in which one can ask whether there are
moves. So whatever sequences of computations keep, finding out an outcome keeps, if the
question for moves does. Relations between two monads cover properties of computations in one.
-/

namespace BoardGame

/-- A relation between the computations of two monads that results and sequences keep. -/
structure Sequential {m m' : Type → Type} [Monad m] [Monad m']
    (Rel : (α : Type) → m α → m' α → Prop) : Prop where
  pure : ∀ {α : Type} (a : α), Rel α (pure a) (pure a)
  bind : ∀ {α β : Type} {x : m α} {y : m' α} {f : α → m β} {g : α → m' β},
    Rel α x y → (∀ a, Rel β (f a) (g a)) → Rel β (x >>= f) (y >>= g)

namespace Sequential

variable {m m' : Type → Type} [Monad m] [Monad m'] {Rel : (α : Type) → m α → m' α → Prop}
  {pos : Position} {noMoves : m Bool} (noMoves' : m' Bool)

theorem endOutcome (h : Sequential Rel) (hmoves : Rel Bool noMoves noMoves') (rules : RuleSet)
    (ending : EndRule) :
    Rel _ (rules.endOutcome pos noMoves ending) (rules.endOutcome pos noMoves' ending) := by
  unfold RuleSet.endOutcome
  cases ending.condition with
  | noLegalMove =>
      refine h.bind hmoves fun stuck => ?_
      cases stuck <;> exact h.pure _
  | _ => exact h.pure _

theorem firstOutcome (h : Sequential Rel) (hmoves : Rel Bool noMoves noMoves') (rules : RuleSet)
    (endings : List EndRule) :
    Rel _ (rules.firstOutcome pos noMoves endings) (rules.firstOutcome pos noMoves' endings) := by
  induction endings with
  | nil => exact h.pure _
  | cons ending rest ih =>
      unfold RuleSet.firstOutcome
      refine h.bind (h.endOutcome noMoves' hmoves rules ending) fun outcome => ?_
      cases outcome with
      | none => exact ih
      | some o => exact h.pure o

/-- Besides the question for moves, chess asks whether the board is one of chess. -/
theorem outcomeBy [MonadLiftT (Except EngineError) m] [MonadLiftT (Except EngineError) m']
    (h : Sequential Rel) (hmoves : Rel Bool noMoves noMoves')
    (hcheck : Rel Unit (liftM (Chess.checkBoard pos) : m Unit)
      (liftM (Chess.checkBoard pos) : m' Unit))
    (game : Game) : Rel Outcome (game.outcomeBy pos noMoves) (game.outcomeBy pos noMoves') := by
  unfold Game.outcomeBy
  cases game.engine with
  | template => exact h.firstOutcome noMoves' hmoves game.rules game.rules.endings
  | chess => exact h.bind hcheck fun _ => h.bind hmoves fun _ => h.pure _

end Sequential

/-! ## Failures of a game -/

/-- If there is no result, the rules are to blame. -/
def FailsByRules {α : Type} (r : Except EngineError α) : Prop :=
  ∀ e, r = .error e → ∃ cause, e = .rule cause

namespace FailsByRules

variable {α β : Type}

theorem ok (a : α) : FailsByRules (.ok a) :=
  fun _ he => nomatch he

theorem bind {r : Except EngineError α} {f : α → Except EngineError β} (h : FailsByRules r)
    (hf : ∀ a, FailsByRules (f a)) : FailsByRules (r >>= f) := by
  intro e he
  cases r with
  | error e' => exact h e (congrArg Except.error (Except.error.inj he))
  | ok a => exact hf a e he

theorem lift (r : Except RuleError α) : FailsByRules (liftM r : Except EngineError α) := by
  intro e he
  cases r with
  | error cause => exact ⟨cause, (Except.error.inj he).symm⟩
  | ok a => cases he

end FailsByRules

namespace Game

theorem checkBoard_failsByRules (p : Position) : FailsByRules (Chess.checkBoard p) := by
  unfold Chess.checkBoard
  intro e he
  split at he
  · cases he
  · exact ⟨_, (Except.error.inj he).symm⟩

theorem successors_failsByRules (game : Game) (p : Position) :
    FailsByRules (game.successors p) := by
  unfold successors
  cases game.engine with
  | template => exact .lift (game.rules.successors p)
  | chess => exact (checkBoard_failsByRules p).bind fun _ => .ok _

theorem outcome_failsByRules (game : Game) (p : Position) : FailsByRules (game.outcome p) := by
  have hmoves : FailsByRules (game.stuck p) := by
    rw [game.stuck_eq_isEmpty, ← bind_pure_comp]
    exact (game.successors_failsByRules p).bind fun _ => .ok _
  have hfails : @Sequential (Except EngineError) (Except EngineError) _ _
      fun _ r _ => FailsByRules r := ⟨FailsByRules.ok, FailsByRules.bind⟩
  exact hfails.outcomeBy (.ok true) hmoves (checkBoard_failsByRules p) game

end Game

end BoardGame
