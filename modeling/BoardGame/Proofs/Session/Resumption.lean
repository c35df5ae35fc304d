import BoardGame.Proofs.Session.Settled
/-!
# Setting up a position

The command that sets up a position plays only what is new if it can, and everything from
the base otherwise. Either way it does what playing all moves on positions does, and a
failure leaves the session at the base.
-/

namespace BoardGame.Session

open Stateful (Runs)

variable {game : Game} {s after : Session} {p base : Position} {moves args : List String}
  {α : Type}

/-! ## The base -/

theorem Settled.reset (h : Settled game s p) {game' : Game}
    (hmade : ∃ id, Registry.builtIn.create id = .ok game')
    (hstarted : ∃ start, game'.initial = .ok start) (hbase : game'.Playable base) :
    ∃ after, Runs (reset game' base) s (.ok ()) after ∧ Settled game' after base ∧
      after.base = base ∧ after.line = [] := by
  obtain ⟨name, hname⟩ := id hmade
  have hdepth := (Registry.regular_of_create hname).depth_le base hbase
  have hroot := GameTree.rooted_ofPosition game' base
  exact ⟨_, rfl, ⟨h.registry, h.player.gameOver, hmade, hstarted,
    GameTree.coherent_ofPosition game' hdepth, hroot, hbase, hroot, rfl⟩, rfl, rfl⟩

theorem Settled.resetTo (h : Settled game s p) (hbase : game.Playable base) :
    ∃ after, Runs (resetTo base) s (.ok ()) after ∧ Settled game after base ∧
      after.base = base ∧ after.line = [] := by
  obtain ⟨after, hruns, hafter⟩ := h.reset h.made h.started hbase
  have hgame : s.tree.game = game := h.coherent.game_eq
  exact ⟨after, (runs_currentGame s).bind (hgame.symm ▸ hruns), hafter⟩

theorem playable_of_readPosition (h : readPosition game args = .ok (base, moves)) :
    game.Playable base := by
  unfold readPosition at h
  split at h
  · obtain ⟨b, hread, heq⟩ := bind_eq_ok.mp h
    obtain ⟨rfl, -⟩ := Prod.mk.inj (Except.ok.inj heq)
    exact .read hread
  · obtain ⟨b, hinitial, heq⟩ := bind_eq_ok.mp h
    obtain ⟨rfl, -⟩ := Prod.mk.inj (Except.ok.inj heq)
    exact .initial hinitial
  · obtain ⟨b, hinitial, heq⟩ := bind_eq_ok.mp h
    obtain ⟨rfl, -⟩ := Prod.mk.inj (Except.ok.inj heq)
    exact .initial hinitial

/-! ## The moves -/

/-- `x` does what playing moves from `base` on positions does: with the same failure if there
is one, and the session then stays at the base. -/
def Arrives (game : Game) (s : Session) (x : SessionM Unit) (base : Position)
    (moves : List String) : Prop :=
  ∃ after, Runs x s ((game.playAll base moves).map fun _ => ()) after ∧
    Settled game after (game.arrival base moves).2 ∧ after.base = base ∧
      after.line = (game.arrival base moves).1

theorem Settled.playLine (h : Settled game s p) (hbase : game.Playable base)
    (moves : List String) : Arrives game s (playLine base moves) base moves := by
  obtain ⟨first, hreset, hfirst, hfirstBase, hfirstLine⟩ := h.resetTo hbase
  have hplays := hfirst.playAll moves
  unfold Arrives Game.arrival
  cases hmade : game.playAll base moves with
  | ok made =>
      rw [hmade] at hplays
      obtain ⟨after, hruns, hafter, hbase', hline⟩ := hplays
      refine ⟨after, hreset.bind hruns.tryCatch_ok, hafter, hbase'.trans hfirstBase, ?_⟩
      rw [hline, hfirstLine]
      rfl
  | error e =>
      rw [hmade] at hplays
      obtain ⟨middle, p', hruns, hmiddle⟩ := hplays
      obtain ⟨after, hreset', hafter⟩ := hmiddle.resetTo hbase
      exact ⟨after, hreset.bind (hruns.tryCatch_error (hreset'.bind rfl)), hafter⟩

/-- Playing the rest of a line, and all of it where the rest cannot be played. -/
theorem Settled.resume (h : Settled game s p) {rest : List String} :
    Arrives game s (tryCatch (Session.playAll rest) fun error =>
      if isRecoverable error then Session.playLine s.base (s.line ++ rest) else throw error)
      s.base (s.line ++ rest) := by
  have hplays := h.playAll rest
  have hall := Game.playAll_append_of_ok h.line rest
  cases hmade : game.playAll p rest with
  | ok made =>
      rw [hmade] at hplays hall
      unfold Arrives Game.arrival
      rw [hall]
      obtain ⟨after, hruns, hafter⟩ := hplays
      exact ⟨after, hruns.tryCatch_ok, hafter⟩
  | error e =>
      -- The first part of the line can be played again, so all of it fails as the rest does.
      rw [hmade] at hplays hall
      obtain ⟨middle, p', hruns, hmiddle⟩ := hplays
      have hrecoverable := h.regular.isRecoverable_of_playAll h.playable_position hmade
      obtain ⟨after, hagain, hafter⟩ := hmiddle.playLine h.playable (s.line ++ rest)
      refine ⟨after, ?_, hafter⟩
      rw [hall] at hagain ⊢
      apply hruns.tryCatch_error
      rw [if_pos hrecoverable]
      exact hagain

theorem runs_lift {r r' : Except EngineError α} (h : r = r') (s : Session) :
    Runs (liftM r : SessionM α) s r' s := by
  subst h
  cases r <;> rfl

theorem Arrives.of_runs {x y : SessionM Unit} (h : Arrives game s x base moves)
    (hruns : ∀ r after, Runs x s r after → Runs y s r after) : Arrives game s y base moves := by
  obtain ⟨after, hx, hafter⟩ := h
  exact ⟨after, hruns _ _ hx, hafter⟩

/-- Setting up a position does what playing all its moves on positions does. -/
theorem Settled.setPosition (h : Settled game s p)
    (hread : readPosition game args = .ok (base, moves)) :
    Arrives game s (Session.setPosition args) base moves := by
  have hgame : s.tree.game = game := h.coherent.game_eq
  have hread' : readPosition s.tree.game args = .ok (base, moves) := hgame.symm ▸ hread
  have hparsed := runs_lift hread' s
  by_cases hcontinues : base = s.base ∧ s.line.isPrefixOf moves = true
  · obtain ⟨rest, rfl⟩ := List.isPrefixOf_iff_prefix.mp hcontinues.2
    obtain rfl := hcontinues.1
    apply h.resume.of_runs
    intro r after hruns
    refine (runs_currentGame s).bind (hparsed.bind (Runs.bind rfl ?_))
    rw [if_pos hcontinues, List.drop_left]
    exact hruns
  · apply (h.playLine (playable_of_readPosition hread) moves).of_runs
    intro r after hruns
    refine (runs_currentGame s).bind (hparsed.bind (Runs.bind rfl ?_))
    rw [if_neg hcontinues]
    exact hruns

end BoardGame.Session
