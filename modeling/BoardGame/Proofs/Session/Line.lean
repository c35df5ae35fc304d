import BoardGame.Session
import BoardGame.Proofs.Games
/-!
# Lines of moves

A line is played on positions alone: without a tree, without a session and without chance.
In a regular game the names of the moves that were made play the line again, so a line can
be taken up at any place on the way.
-/

namespace BoardGame.Game

variable {game : Game} {p q : Position} {next : List Position} {move name : String}
  {moves names : List String}

/-- The end of a line: from each position on, the first successor by a move of the name
that comes next. -/
def follow (game : Game) (p : Position) : List String → Option Position
  | [] => some p
  | name :: rest =>
    match game.successors p with
    | .ok next =>
      match next.find? fun q => game.moveName q == name with
      | some q => game.follow q rest
      | none => none
    | .error _ => none

/-- The successor meant by a move: its name, its squares, or its target. -/
def meant? (game : Game) (next : List Position) (move : String) : Option Position :=
  match next.find? fun q => game.moveName q == move with
  | some q => some q
  | none =>
    match Session.squares? move with
    | some (origin, target) =>
      next.find? fun q => q.last.target == target && origin.all (· == q.last.origin)
    | none => none

/-- The position after a move. -/
def play (game : Game) (p : Position) (move : String) : Except EngineError Position := do
  if (← game.outcome p).isTerminal then throw .gameOver
  match game.meant? (← game.successors p) move with
  | some q => return q
  | none => throw (.illegalMove move)

/-- The names of some moves and the position after them. -/
def playAll (game : Game) (p : Position) :
    List String → Except EngineError (List String × Position)
  | [] => .ok ([], p)
  | move :: rest => do
    let q ← game.play p move
    let (names, r) ← game.playAll q rest
    return (game.moveName q :: names, r)

/-- The line and the position that moves lead to; a line that fails leaves the base. -/
def arrival (game : Game) (base : Position) (moves : List String) : List String × Position :=
  match game.playAll base moves with
  | .ok made => made
  | .error _ => ([], base)

/-! ## One move -/

theorem mem_of_meant? (h : game.meant? next move = some q) : q ∈ next := by
  unfold meant? at h
  cases hnamed : next.find? fun q => game.moveName q == move with
  | some q' =>
      rw [hnamed] at h
      exact Option.some.inj h ▸ List.mem_of_find?_eq_some hnamed
  | none =>
      rw [hnamed] at h
      cases hsquares : Session.squares? move with
      | none =>
          rw [hsquares] at h
          cases h
      | some squares =>
          rw [hsquares] at h
          exact List.mem_of_find?_eq_some h

theorem play_eq {outcome : Outcome} (houtcome : game.outcome p = .ok outcome)
    (hnext : game.successors p = .ok next) :
    game.play p move =
      if outcome.isTerminal then .error .gameOver
      else
        match game.meant? next move with
        | some q => .ok q
        | none => .error (.illegalMove move) := by
  unfold play
  rw [houtcome, hnext]
  cases hterminal : outcome.isTerminal <;> cases hmeant : game.meant? next move
  all_goals
    simp only [bind, Except.bind, hterminal, hmeant]
    rfl

namespace Regular

theorem of_play (h : game.Regular) (hp : game.Playable p) (hq : game.play p move = .ok q) :
    ∃ outcome next, game.outcome p = .ok outcome ∧ outcome.isTerminal = false ∧
      game.successors p = .ok next ∧ q ∈ next := by
  obtain ⟨outcome, houtcome⟩ := h.outcome p hp
  obtain ⟨next, hnext⟩ := h.successors p hp
  rw [play_eq houtcome hnext] at hq
  refine ⟨outcome, next, houtcome, ?_⟩
  cases hterminal : outcome.isTerminal with
  | true =>
      rw [hterminal] at hq
      cases hq
  | false =>
      rw [hterminal] at hq
      refine ⟨rfl, hnext, ?_⟩
      cases hmeant : game.meant? next move with
      | none =>
          rw [hmeant] at hq
          cases hq
      | some r =>
          rw [hmeant] at hq
          exact Except.ok.inj hq ▸ mem_of_meant? hmeant

theorem find?_moveName (h : game.Regular) (hp : game.Playable p)
    (hnext : game.successors p = .ok next) (hq : q ∈ next) :
    next.find? (fun r => game.moveName r == game.moveName q) = some q := by
  cases hfind : next.find? fun r => game.moveName r == game.moveName q with
  | none =>
      have hne := List.find?_eq_none.mp hfind q hq
      exact absurd (beq_self_eq_true _) hne
  | some r =>
      have hname := List.find?_some hfind
      rw [h.moveName p next hp hnext r (List.mem_of_find?_eq_some hfind) q hq (beq_iff_eq.mp hname)]

theorem play_moveName (h : game.Regular) (hp : game.Playable p) {outcome : Outcome}
    (houtcome : game.outcome p = .ok outcome) (hopen : outcome.isTerminal = false)
    (hnext : game.successors p = .ok next) (hq : q ∈ next) :
    game.play p (game.moveName q) = .ok q := by
  rw [play_eq houtcome hnext, hopen, meant?, h.find?_moveName hp hnext hq]
  rfl

theorem playable_of_play (h : game.Regular) (hp : game.Playable p)
    (hq : game.play p move = .ok q) : game.Playable q := by
  obtain ⟨-, next, -, -, hnext, hmem⟩ := h.of_play hp hq
  exact hp.step hnext hmem

/-- A move is refused only because it is no move or because the game is over. -/
theorem isRecoverable_of_play (h : game.Regular) (hp : game.Playable p) {e : EngineError}
    (he : game.play p move = .error e) : Session.isRecoverable e = true := by
  obtain ⟨outcome, houtcome⟩ := h.outcome p hp
  obtain ⟨next, hnext⟩ := h.successors p hp
  rw [play_eq houtcome hnext] at he
  split at he
  · exact Except.error.inj he ▸ rfl
  · split at he
    · cases he
    · exact Except.error.inj he ▸ rfl

end Regular

/-! ## Many moves -/

theorem playAll_cons (p : Position) (move : String) (rest : List String) :
    game.playAll p (move :: rest) = game.play p move >>= fun q =>
      game.playAll q rest >>= fun (names, r) => .ok (game.moveName q :: names, r) := rfl

theorem playAll_cons_of_ok (h : game.play p move = .ok q) (rest : List String) :
    game.playAll p (move :: rest) =
      game.playAll q rest >>= fun (names, r) => .ok (game.moveName q :: names, r) := by
  rw [playAll_cons, h]
  rfl

theorem playAll_append (p : Position) (moves more : List String) :
    game.playAll p (moves ++ more) = game.playAll p moves >>= fun (names, q) =>
      game.playAll q more >>= fun (names', r) => .ok (names ++ names', r) := by
  induction moves generalizing p with
  | nil =>
      show game.playAll p more = game.playAll p more >>= fun (names', r) => .ok (names', r)
      cases game.playAll p more <;> rfl
  | cons move rest ih =>
      rw [List.cons_append, playAll_cons, playAll_cons]
      cases game.play p move with
      | error e => rfl
      | ok q =>
          show game.playAll q (rest ++ more) >>= _ = _
          rw [ih]
          show _ = (game.playAll q rest >>= _) >>= _
          cases game.playAll q rest with
          | error e => rfl
          | ok made =>
              show (game.playAll made.2 more >>= _) >>= _ = game.playAll made.2 more >>= _
              cases game.playAll made.2 more <;> rfl

theorem playAll_append_of_ok (h : game.playAll p moves = .ok (names, q)) (more : List String) :
    game.playAll p (moves ++ more) =
      game.playAll q more >>= fun (names', r) => .ok (names ++ names', r) := by
  rw [playAll_append, h]
  rfl

namespace Regular

theorem playable_of_playAll (h : game.Regular) (hp : game.Playable p)
    (hq : game.playAll p moves = .ok (names, q)) : game.Playable q := by
  induction moves generalizing p names with
  | nil => exact (Prod.mk.inj (Except.ok.inj hq)).2 ▸ hp
  | cons move rest ih =>
      obtain ⟨r, hr, hrest⟩ := bind_eq_ok.mp hq
      obtain ⟨⟨names', q'⟩, hplayed, heq⟩ := bind_eq_ok.mp hrest
      obtain ⟨-, rfl⟩ := Prod.mk.inj (Except.ok.inj heq)
      exact ih (h.playable_of_play hp hr) hplayed

theorem isRecoverable_of_playAll (h : game.Regular) (hp : game.Playable p) {e : EngineError}
    (he : game.playAll p moves = .error e) : Session.isRecoverable e = true := by
  induction moves generalizing p with
  | nil => cases he
  | cons move rest ih =>
      rcases bind_eq_error.mp he with hplay | ⟨q, hplay, hrest⟩
      · exact h.isRecoverable_of_play hp hplay
      · rcases bind_eq_error.mp hrest with hrest | ⟨made, -, hmade⟩
        · exact ih (h.playable_of_play hp hplay) hrest
        · cases hmade

/-- The names of the moves that were made lead along the same positions. -/
theorem follow_of_playAll (h : game.Regular) (hp : game.Playable p)
    (hq : game.playAll p moves = .ok (names, q)) : game.follow p names = some q := by
  induction moves generalizing p names with
  | nil =>
      obtain ⟨rfl, rfl⟩ := Prod.mk.inj (Except.ok.inj hq)
      rfl
  | cons move rest ih =>
      obtain ⟨r, hr, hrest⟩ := bind_eq_ok.mp hq
      obtain ⟨⟨names', q'⟩, hplayed, heq⟩ := bind_eq_ok.mp hrest
      obtain ⟨rfl, rfl⟩ := Prod.mk.inj (Except.ok.inj heq)
      obtain ⟨-, next, -, -, hnext, hmem⟩ := h.of_play hp hr
      rw [follow, hnext]
      dsimp only
      rw [h.find?_moveName hp hnext hmem]
      exact ih (h.playable_of_play hp hr) hplayed

end Regular

end BoardGame.Game
