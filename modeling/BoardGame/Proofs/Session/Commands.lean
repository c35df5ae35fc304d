import BoardGame.Proofs.Session.Resumption
/-!
# Sessions under any commands

Whatever a session is told, and whether it succeeds or not, its line leads from its base to
its current position. So how a session has come there does not matter to what setting up a
position does: a fresh session does the same.
-/

namespace BoardGame.Session

open Stateful (Runs Keeps)

variable {game : Game} {s after : Session} {p q : Position} {α : Type}

/-! ## Moves of the player -/

/-- The player's choice of a move. -/
def nextMove (id : NodeId) : SessionM (NodeId × Option Slice) :=
  ExceptT.mk fun ⟨registry, player, tree, base, line, current⟩ =>
    let (result, player, tree) := player.next tree id
    (result, ⟨registry, player, tree, base, line, current⟩)

theorem Settled.nextMove (h : Settled game s p) :
    ∃ r after, Runs (nextMove s.current) s r after ∧ Settled game after p ∧
      after.base = s.base ∧ after.line = s.line ∧ after.current = s.current ∧
      ∀ child slice, r = .ok (child, slice) → ∃ next, game.successors p = .ok next ∧
        ∃ q ∈ next, after.tree.position? child = some q := by
  have hmoves := h.player.next h.coherent h.current
  exact ⟨_, _, rfl, ⟨h.registry, hmoves.provided, h.made, h.started, hmoves.coherent,
    hmoves.grows.rooted h.rooted, h.playable, hmoves.grows.position? _ _ h.current, h.line⟩,
    rfl, rfl, rfl, hmoves.successor⟩

/-- Without a move the session stays where it is. -/
theorem Settled.generateMove (h : Settled game s p) :
    ∃ r after q, Runs generateMove s r after ∧ Settled game after q ∧
      ∀ e, r = .error e → q = p ∧ after.base = s.base ∧ after.line = s.line := by
  have hp := h.playable_position
  obtain ⟨o, first, ho, houtcome, hgrown⟩ := h.outcome
  obtain ⟨hfirst, hbase, hline⟩ := h.grown hgrown
  cases hterminal : o.isTerminal with
  | true =>
      refine ⟨.error .gameOver, first, p, ?_, hfirst, fun _ _ => ⟨rfl, hbase, hline⟩⟩
      refine (runs_currentNode s).bind (houtcome.bind ?_)
      rw [hterminal]
      rfl
  | false =>
      obtain ⟨r, second, hnext, hsecond, hbase', hline', hcurrent, hpicked⟩ := hfirst.nextMove
      rw [hgrown.current_eq] at hnext
      cases r with
      | error e =>
          refine ⟨.error e, second, p, ?_, hsecond,
            fun _ _ => ⟨rfl, hbase'.trans hbase, hline'.trans hline⟩⟩
          refine (runs_currentNode s).bind (houtcome.bind ?_)
          rw [hterminal]
          exact hnext.bind_error
      | ok picked =>
          obtain ⟨child, slice⟩ := picked
          obtain ⟨next, hsuccessors, q, hq, hchild⟩ := hpicked child slice rfl
          obtain ⟨third, hname, hgrown', hchild'⟩ := hsecond.moveName hchild
          rw [hcurrent, hgrown.current_eq] at hname
          have hnamed := h.regular.play_moveName hp ho hterminal hsuccessors hq
          obtain ⟨after, hadvance, hafter, -⟩ := (hsecond.grown hgrown').1.advance hchild' hnamed
          refine ⟨.ok (game.moveName q), after, q, ?_, hafter, nofun⟩
          refine (runs_currentNode s).bind (houtcome.bind ?_)
          rw [hterminal]
          exact hnext.bind (hname.bind (hadvance.bind rfl))

/-! ## Commands -/

/-- A session that is settled stays so, in the same game or another. -/
def StaysSettled (s after : Session) : Prop :=
  (∃ game p, Settled game s p) → ∃ game p, Settled game after p

instance : IsPreorder Session StaysSettled where
  refl _ := id
  trans _ _ _ hab hbc := hbc ∘ hab

theorem keeps_of_settled {x : SessionM α} (h : ∀ game s p, Settled game s p →
    ∃ r after game' q, Runs x s r after ∧ Settled game' after q) : Keeps StaysSettled x := by
  rintro s ⟨game, p, hs⟩
  obtain ⟨r, after, game', q, hruns, hafter⟩ := h game s p hs
  rw [hruns.exec_eq]
  exact ⟨game', q, hafter⟩

theorem keeps_onTree {x : TreeM α} (h : ∀ game, Keeps (GameTree.Extends game) x) :
    Keeps StaysSettled (onTree x) := by
  rintro s ⟨game, p, hs⟩
  obtain ⟨after, hruns, hgrown, -⟩ := runs_query (h game) rfl
  rw [hruns.exec_eq]
  exact ⟨game, p, (hs.grown hgrown).1⟩

theorem keeps_currentNode : Keeps StaysSettled currentNode :=
  .of_exec_eq fun _ => rfl

theorem keeps_currentGame : Keeps StaysSettled currentGame :=
  .of_exec_eq fun _ => rfl

theorem keeps_position (id : NodeId) : Keeps StaysSettled (onTree (GameTree.position id)) :=
  keeps_onTree fun _ => GameTree.keeps_position id

theorem keeps_required (what : String) (args : List String) :
    Keeps StaysSettled (required what args) := by
  cases args with
  | nil => exact .throw _
  | cons arg rest => exact .pure arg

theorem keeps_play (move : String) : Keeps StaysSettled (play move) := by
  apply keeps_of_settled
  intro game s p hs
  have hplays := hs.play move
  cases hplay : game.play p move with
  | ok q =>
      rw [hplay] at hplays
      obtain ⟨after, hruns, hafter, -⟩ := hplays
      exact ⟨_, after, game, q, hruns, hafter⟩
  | error e =>
      rw [hplay] at hplays
      obtain ⟨after, hruns, hafter, -⟩ := hplays
      exact ⟨_, after, game, p, hruns, hafter⟩

theorem runs_setPosition_of_error {args : List String} {e : EngineError}
    (h : readPosition s.tree.game args = .error e) : Runs (setPosition args) s (.error e) s :=
  (runs_currentGame s).bind (runs_lift h s).bind_error

theorem keeps_setPosition (args : List String) : Keeps StaysSettled (setPosition args) := by
  apply keeps_of_settled
  intro game s p hs
  cases hread : readPosition s.tree.game args with
  | error e => exact ⟨_, s, game, p, runs_setPosition_of_error hread, hs⟩
  | ok parsed =>
      obtain ⟨base, moves⟩ := parsed
      rw [hs.coherent.game_eq] at hread
      obtain ⟨after, hruns, hafter, -⟩ := hs.setPosition hread
      exact ⟨_, after, game, _, hruns, hafter⟩

theorem keeps_generateMove : Keeps StaysSettled generateMove := by
  apply keeps_of_settled
  intro game s p hs
  obtain ⟨r, after, q, hruns, hafter, -⟩ := hs.generateMove
  exact ⟨r, after, game, q, hruns, hafter⟩

theorem keeps_newGame : Keeps StaysSettled (perform .newGame []) := by
  apply keeps_of_settled
  intro game s p hs
  obtain ⟨start, hstart⟩ := hs.started
  obtain ⟨after, hruns, hafter, -⟩ := hs.resetTo (.initial hstart)
  have hinitial : s.tree.game.initial = .ok start := hs.coherent.game_eq.symm ▸ hstart
  exact ⟨.ok "", after, game, start, (runs_currentGame s).bind
    ((runs_lift hinitial s).bind (hruns.bind rfl)), hafter⟩

theorem keeps_switchGame (id : String) : Keeps StaysSettled (switchGame id) := by
  apply keeps_of_settled
  intro game s p hs
  cases hcreate : s.registry.create id with
  | error e =>
      exact ⟨.error e, s, game, p, Runs.bind rfl (runs_lift hcreate s).bind_error, hs⟩
  | ok game' =>
      cases hinitial : game'.initial with
      | error e =>
          exact ⟨.error e, s, game, p, Runs.bind rfl ((runs_lift hcreate s).bind
            (runs_lift hinitial s).bind_error), hs⟩
      | ok start =>
          rw [hs.registry] at hcreate
          obtain ⟨after, hruns, hafter, -⟩ :=
            hs.reset ⟨id, hcreate⟩ ⟨start, hinitial⟩ (.initial hinitial)
          rw [← hs.registry] at hcreate
          exact ⟨.ok (), after, game', start, Runs.bind rfl ((runs_lift hcreate s).bind
            ((runs_lift hinitial s).bind hruns)), hafter⟩

theorem keeps_perform (command : Command) (args : List String) :
    Keeps StaysSettled (perform command args) := by
  cases command with
  | name | version | listCommands | quit => exact .pure _
  | knownCommand => exact (keeps_required _ args).bind fun _ => .pure _
  | game =>
      cases args with
      | nil => exact keeps_currentGame.bind fun _ => .pure _
      | cons id rest => exact (keeps_switchGame id).bind fun _ => .pure _
  | newGame => exact keeps_newGame
  | moves =>
      have hmoves : Keeps StaysSettled legalMoves :=
        keeps_currentNode.bind fun id => (keeps_onTree fun _ => GameTree.safe_legalMoves id).bind
          (.mapM fun child => keeps_onTree fun _ => GameTree.keeps_moveNameFrom id child)
      exact hmoves.bind fun _ => .pure _
  | play => exact (keeps_required _ args).bind fun move => (keeps_play move).bind fun _ => .pure _
  | position => exact (keeps_setPosition args).bind fun _ => .pure _
  | genmove => exact keeps_generateMove
  | outcome =>
      exact keeps_currentNode.bind fun id => (keeps_onTree fun _ => GameTree.safe_outcome id).bind
        fun _ => (keeps_position id).bind fun _ => .pure _
  | board =>
      exact keeps_currentNode.bind fun id => (keeps_position id).bind fun _ =>
        keeps_currentGame.bind fun _ => .pure _
  | fen =>
      refine keeps_currentGame.bind fun game => keeps_currentNode.bind fun id => ?_
      refine (keeps_position id).bind fun pos => ?_
      cases game.positionText pos with
      | some text => exact .pure text
      | none => exact .throw _

theorem keeps_dispatch (command : String) (args : List String) :
    Keeps StaysSettled (dispatch command args) := by
  unfold dispatch
  cases Command.ofText? command with
  | some command => exact keeps_perform command args
  | none => exact .throw _

/-- The reply to a command that came to `r`. -/
def replyOf : Except EngineError String → Bool × String
  | .ok message => (true, message)
  | .error error => (false, error.message)

theorem execute_eq {command : String} {args : List String} {r : Except EngineError String}
    (h : Runs (dispatch command args) s r after) :
    s.execute command args = (replyOf r, after) := by
  have hrun : (dispatch command args).run s = (r, after) := h
  unfold execute
  rw [hrun]
  cases r <;> rfl

/-! ## Sessions as they come about -/

/-- The sessions of the built-in games and players, after any commands. -/
inductive Reachable : Session → Prop where
  | start {id : String} {player : Player} {s : Session} (hplayer : player.Provided)
      (h : Session.start .builtIn id player = .ok s) : Reachable s
  | execute {s : Session} (h : Reachable s) (command : String) (args : List String) :
      Reachable (s.execute command args).2

theorem settled_of_start {id : String} {player : Player} (hplayer : player.Provided)
    (h : Session.start .builtIn id player = .ok s) :
    ∃ game base, Registry.builtIn.create id = .ok game ∧ Settled game s base := by
  obtain ⟨game, hcreate, h⟩ := bind_eq_ok.mp h
  obtain ⟨base, hinitial, h⟩ := bind_eq_ok.mp h
  rw [← Except.ok.inj h]
  have hbase : game.Playable base := .initial hinitial
  have hdepth := (Registry.regular_of_create hcreate).depth_le base hbase
  have hroot := GameTree.rooted_ofPosition game base
  exact ⟨game, base, hcreate, rfl, hplayer, ⟨id, hcreate⟩, ⟨base, hinitial⟩,
    GameTree.coherent_ofPosition game hdepth, hroot, hbase, hroot, rfl⟩

theorem Reachable.settled (h : Reachable s) : ∃ game p, Settled game s p := by
  induction h with
  | start hplayer h =>
      obtain ⟨game, base, -, hsettled⟩ := settled_of_start hplayer h
      exact ⟨game, base, hsettled⟩
  | execute _ command args ih =>
      rw [execute_eq (Runs.self _ _)]
      exact keeps_dispatch command args _ ih

theorem Reachable.replyTo (h : Reachable s) (line : List Char) :
    Reachable (s.replyTo line).2.2 := by
  unfold Session.replyTo
  dsimp only
  split
  · exact h
  · split
    · exact h
    · exact h.execute _ _

/-- After any commands, successful or not, the tree starts at the base, the current node is
live, and from the base on the names of the line lead to its position. -/
theorem line_leads_to_current (h : Reachable s) :
    ∃ p, s.position? = some p ∧ s.tree.position? s.tree.start = some s.base ∧
      s.tree.game.follow s.base s.line = some p := by
  obtain ⟨game, p, hs⟩ := h.settled
  refine ⟨p, hs.current, hs.rooted, ?_⟩
  rw [hs.coherent.game_eq]
  exact hs.regular.follow_of_playAll hs.playable hs.line

/-- A session at the start of tic-tac-toe. -/
def opened : Session :=
  let start := Position.ofBoard 3 (Board.clear 3) .white .absent 0
  ⟨.builtIn, .random ⟨0⟩, .ofPosition ⟨BuiltIn.ticTacToe, .template⟩ start, start, [], ⟨0⟩⟩

/-- After a move, the same move again, which is refused, and a line that goes on from it. -/
def followed : Session :=
  (((opened.execute "play" ["b2"]).2.execute "play" ["b2"]).2.execute "position"
    ["startpos", "moves", "b2", "a1"]).2

theorem create_ticTacToe :
    Registry.builtIn.create "tictactoe" = .ok ⟨BuiltIn.ticTacToe, .template⟩ := by
  have hvalid : Game.ofRules BuiltIn.ticTacToe .template = .ok ⟨BuiltIn.ticTacToe, .template⟩ := rfl
  unfold Registry.builtIn
  simp only [Registry.create_register, hvalid]
  rfl

theorem reachable_followed : Reachable followed := by
  have hopened : Session.start .builtIn "tictactoe" (.random ⟨0⟩) = .ok opened := by
    unfold Session.start
    rw [create_ticTacToe]
    rfl
  exact (((Reachable.start (.random _) hopened).execute _ _).execute _ _).execute _ _

theorem line_leads_to_current_followed :
    Reachable followed ∧ followed.line = ["b2", "a1"] ∧
      ∃ p, followed.position? = some p ∧
        followed.tree.position? followed.tree.start = some followed.base ∧
        followed.tree.game.follow followed.base followed.line = some p :=
  ⟨reachable_followed, by decide +kernel, line_leads_to_current reachable_followed⟩

/-! ## Setting up a position -/

theorem execute_position {args : List String} {r : Except EngineError Unit}
    (h : Runs (setPosition args) s r after) :
    s.execute "position" args = (replyOf (r.map fun _ => ""), after) := by
  apply execute_eq
  show Runs (setPosition args >>= fun _ => pure "") s _ after
  cases r with
  | ok u => exact h.bind rfl
  | error e => exact h.bind_error

theorem exists_start {id : String} (player : Player) (hid : Registry.builtIn.create id = .ok game)
    (hstarted : ∃ start, game.initial = .ok start) :
    ∃ fresh, Session.start .builtIn id player = .ok fresh := by
  obtain ⟨start, hstart⟩ := hstarted
  unfold Session.start
  rw [hid]
  show ∃ fresh, (game.initial >>= fun _ => _) = _
  rw [hstart]
  exact ⟨_, rfl⟩

/-- Playing only what is new agrees with playing everything in a fresh session of the same
game, in the reply and in the base, the line and the position afterwards. -/
theorem position_agrees_with_fresh (h : Reachable s) :
    (∃ id, Registry.builtIn.create id = .ok s.tree.game) ∧
      ∀ id player, Registry.builtIn.create id = .ok s.tree.game → player.Provided →
        ∃ fresh, Session.start .builtIn id player = .ok fresh ∧ ∀ args,
          (s.execute "position" args).1 = (fresh.execute "position" args).1 ∧
            ∀ base moves, readPosition s.tree.game args = .ok (base, moves) →
              let after := (s.execute "position" args).2
              let freshAfter := (fresh.execute "position" args).2
              after.base = freshAfter.base ∧ after.line = freshAfter.line ∧
                ∃ q, after.position? = some q ∧ freshAfter.position? = some q := by
  obtain ⟨game, p, hs⟩ := h.settled
  rw [hs.coherent.game_eq]
  refine ⟨hs.made, fun id player hid hplayer => ?_⟩
  obtain ⟨fresh, hstart⟩ := exists_start player hid hs.started
  obtain ⟨game', base₀, hid', hfresh⟩ := settled_of_start hplayer hstart
  obtain rfl : game = game' := Except.ok.inj (hid.symm.trans hid')
  refine ⟨fresh, hstart, fun args => ?_⟩
  cases hread : readPosition game args with
  | error e =>
      have hsame := execute_position (runs_setPosition_of_error (hs.coherent.game_eq.symm ▸ hread))
      have hfresh' :=
        execute_position (runs_setPosition_of_error (hfresh.coherent.game_eq.symm ▸ hread))
      rw [hsame, hfresh']
      exact ⟨rfl, nofun⟩
  | ok parsed =>
      obtain ⟨base, moves⟩ := parsed
      obtain ⟨after, hruns, hafter, hbase, hline⟩ := hs.setPosition hread
      obtain ⟨after', hruns', hafter', hbase', hline'⟩ := hfresh.setPosition hread
      rw [execute_position hruns, execute_position hruns']
      refine ⟨rfl, fun _ _ _ => ⟨hbase.trans hbase'.symm, hline.trans hline'.symm, ?_⟩⟩
      exact ⟨_, hafter.current, hafter'.current⟩

/-- Going on where the line has come to, and starting anew. -/
theorem position_agrees_with_fresh_followed :
    let args := ["startpos", "moves", "b2", "a1", "c3"]
    Reachable followed ∧ Registry.builtIn.create "tictactoe" = .ok followed.tree.game ∧
      ∃ fresh, Session.start .builtIn "tictactoe" (.random ⟨1⟩) = .ok fresh ∧
        (followed.execute "position" args).1 = (fresh.execute "position" args).1 ∧
        (followed.execute "position" args).2.line = (fresh.execute "position" args).2.line ∧
        ∃ q, (followed.execute "position" args).2.position? = some q ∧
          (fresh.execute "position" args).2.position? = some q := by
  intro args
  have hgame : followed.tree.game = ⟨BuiltIn.ticTacToe, .template⟩ := by decide +kernel
  have hid : Registry.builtIn.create "tictactoe" = .ok followed.tree.game :=
    hgame ▸ create_ticTacToe
  obtain ⟨fresh, hstart, hagree⟩ :=
    (position_agrees_with_fresh reachable_followed).2 "tictactoe" _ hid (.random ⟨1⟩)
  obtain ⟨hreply, hrest⟩ := hagree args
  have hread : readPosition followed.tree.game args =
      .ok (followed.base, ["b2", "a1", "c3"]) := by
    have hbase : followed.base = opened.base := by decide +kernel
    rw [hgame, hbase]
    rfl
  obtain ⟨-, hline, hposition⟩ := hrest _ _ hread
  exact ⟨reachable_followed, hid, fresh, hstart, hreply, hline, hposition⟩

end BoardGame.Session
