import BoardGame.Proofs.Session.Commands
/-!
# Commands that fail

A command can fail after a part of its work: a search has grown the tree, a line has been
played half-way. It has then changed nothing that a session shows, unless it was to set up
a position that it could read; the session is then at the base of that position.
-/

namespace BoardGame.Session

open Stateful (Runs Keeps Avoids FailsWithin)

variable {game : Game} {s after : Session} {p q : Position} {α β : Type}

/-! ## What the session has come to stays -/

/-- A session that has come to a position is still there, on the same line. -/
def Undisturbed (s after : Session) : Prop :=
  ∀ game p, Settled game s p → Settled game after p ∧ after.base = s.base ∧ after.line = s.line

instance : IsPreorder Session Undisturbed where
  refl _ _ _ hs := ⟨hs, rfl, rfl⟩
  trans a b c hab hbc game p hs := by
    obtain ⟨hb, hbase, hline⟩ := hab game p hs
    obtain ⟨hc, hbase', hline'⟩ := hbc game p hb
    exact ⟨hc, hbase'.trans hbase, hline'.trans hline⟩

/-- Every failure of `x` leaves the session undisturbed. -/
def FailsSafely (x : SessionM α) : Prop :=
  FailsWithin (fun _ => True) Undisturbed x

theorem undisturbed_onTree {x : TreeM α} (h : ∀ game, Keeps (GameTree.Extends game) x) :
    Keeps Undisturbed (onTree x) := by
  intro s game p hs
  obtain ⟨after, hruns, hgrown, -⟩ := runs_query (h game) rfl
  rw [hruns.exec_eq]
  exact hs.grown hgrown

theorem undisturbed_currentNode : Keeps Undisturbed currentNode :=
  .of_exec_eq fun _ => rfl

theorem undisturbed_currentGame : Keeps Undisturbed currentGame :=
  .of_exec_eq fun _ => rfl

theorem undisturbed_position (id : NodeId) : Keeps Undisturbed (onTree (GameTree.position id)) :=
  undisturbed_onTree fun _ => GameTree.keeps_position id

theorem undisturbed_required (what : String) (args : List String) :
    Keeps Undisturbed (required what args) := by
  cases args with
  | nil => exact .throw _
  | cons arg rest => exact .pure arg

theorem FailsSafely.bind_pure {x : SessionM α} (h : FailsSafely x) (f : α → β) :
    FailsSafely (x >>= fun a => pure (f a)) :=
  h.bind_avoids fun _ _ _ he => nomatch he

/-! ## Commands -/

theorem failsSafely_play (move : String) : FailsSafely (play move) := by
  intro s e he _ game p hs
  have hsteps := hs.play move
  cases hplay : game.play p move with
  | ok q =>
      rw [hplay] at hsteps
      obtain ⟨after, hruns, -⟩ := hsteps
      rw [hruns.value_eq] at he
      cases he
  | error e' =>
      rw [hplay] at hsteps
      obtain ⟨after, hruns, hafter⟩ := hsteps
      rw [hruns.exec_eq]
      exact hafter

theorem failsSafely_generateMove : FailsSafely generateMove := by
  intro s e he _ game p hs
  obtain ⟨r, after, q, hruns, hafter, hfailed⟩ := hs.generateMove
  rw [hruns.value_eq] at he
  obtain ⟨rfl, hbase, hline⟩ := hfailed e he
  rw [hruns.exec_eq]
  exact ⟨hafter, hbase, hline⟩

theorem failsSafely_switchGame (id : String) : FailsSafely (switchGame id) := by
  have hlift {γ : Type} (r : Except EngineError γ) :
      Keeps Undisturbed (liftM r : SessionM γ) :=
    .of_exec_eq fun s => (runs_lift rfl s).exec_eq
  refine .bind (.of_exec_eq fun _ => rfl) fun s => ?_
  refine .bind (hlift (s.registry.create id)) fun game => ?_
  exact .bind (hlift game.initial) fun _ => .of_avoids fun _ _ he => nomatch he

theorem failsSafely_newGame : FailsSafely (perform .newGame []) := by
  have hinitial (game : Game) : Keeps Undisturbed (liftM game.initial : SessionM Position) :=
    .of_exec_eq fun s => (runs_lift rfl s).exec_eq
  refine .bind undisturbed_currentGame fun game => .bind (hinitial game) fun base => ?_
  exact .of_avoids fun _ _ he => nomatch he

/-- Other commands than the one that sets up a position. -/
theorem failsSafely_perform {command : Command} (hcommand : command ≠ .position)
    (args : List String) : FailsSafely (perform command args) := by
  cases command with
  | position => exact absurd rfl hcommand
  | name | version | listCommands | quit => exact .of_keeps (.pure _)
  | knownCommand => exact .of_keeps ((undisturbed_required _ args).bind fun _ => .pure _)
  | game =>
      cases args with
      | nil => exact .of_keeps (undisturbed_currentGame.bind fun _ => .pure _)
      | cons id rest => exact (failsSafely_switchGame id).bind_pure _
  | newGame => exact failsSafely_newGame
  | moves =>
      have hmoves : Keeps Undisturbed legalMoves :=
        undisturbed_currentNode.bind fun id =>
          (undisturbed_onTree fun _ => GameTree.safe_legalMoves id).bind
            (.mapM fun child => undisturbed_onTree fun _ => GameTree.keeps_moveNameFrom id child)
      exact .of_keeps (hmoves.bind fun _ => .pure _)
  | play =>
      exact .bind (undisturbed_required _ args) fun move => (failsSafely_play move).bind_pure _
  | genmove => exact failsSafely_generateMove
  | outcome =>
      exact .of_keeps (undisturbed_currentNode.bind fun id =>
        (undisturbed_onTree fun _ => GameTree.safe_outcome id).bind
          fun _ => (undisturbed_position id).bind fun _ => .pure _)
  | board =>
      exact .of_keeps (undisturbed_currentNode.bind fun id => (undisturbed_position id).bind
        fun _ => undisturbed_currentGame.bind fun _ => .pure _)
  | fen =>
      refine .of_keeps (undisturbed_currentGame.bind fun game => undisturbed_currentNode.bind
        fun id => (undisturbed_position id).bind fun pos => ?_)
      cases game.positionText pos with
      | some text => exact .pure text
      | none => exact .throw _

/-! ## What is reported -/

/-- A session tells the moves, the outcome and the text of the position it has come to. -/
structure Reports (s : Session) (p : Position) : Prop where
  current : s.position? = some p
  moves : ∃ next, s.tree.game.successors p = .ok next ∧ ∀ args,
    (s.execute "moves" args).1 = (true, " ".intercalate (next.map s.tree.game.moveName))
  outcome : ∃ o, s.tree.game.outcome p = .ok o ∧ ∀ args,
    (s.execute "outcome" args).1 = (true, outcomeText o p.mover)
  fen : ∀ args, (s.execute "fen" args).1 =
    match s.tree.game.positionText p with
    | some text => (true, text)
    | none => (false, (EngineError.parse (.noFormat s.tree.game.name)).message)

theorem runs_position {id : NodeId} (hp : s.tree.position? id = some p) :
    Runs (onTree (GameTree.position id)) s (.ok p) s := by
  have hruns := runs_onTree (GameTree.position id) s
  rw [GameTree.value_position hp, GameTree.exec_position] at hruns
  exact hruns

theorem runs_names (hgame : s.tree.game = game) {parent : NodeId}
    (hp : s.tree.position? parent = some p) {ids : List NodeId} {next : List Position}
    (hids : ids.map s.tree.position? = next.map some) :
    Runs (ids.mapM fun child => onTree (GameTree.moveNameFrom parent child)) s
      (.ok (next.map game.moveName)) s := by
  induction ids generalizing next with
  | nil =>
      obtain rfl := List.map_eq_nil_iff.mp hids.symm
      rfl
  | cons child rest ih =>
      cases next with
      | nil => cases hids
      | cons q next =>
          obtain ⟨hchild, hrest⟩ := List.cons.inj hids
          have hname := runs_onTree (GameTree.moveNameFrom parent child) s
          obtain ⟨hvalue, hexec⟩ := GameTree.value_moveNameFrom hgame hp hchild
          rw [hvalue, hexec] at hname
          rw [List.mapM_cons]
          exact hname.bind ((ih hrest).bind rfl)

theorem Settled.legalMoves (h : Settled game s p) {next : List Position}
    (hnext : game.successors p = .ok next) :
    ∃ after, Runs legalMoves s (.ok (next.map game.moveName)) after := by
  obtain ⟨hcoherent, hgrows, hspec⟩ := GameTree.legalMoves_spec h.coherent h.current
  rw [hnext] at hspec
  obtain ⟨ids, hvalue, hids⟩ := hspec
  let after := { s with tree := GameTree.exec (GameTree.legalMoves s.current) s.tree }
  have hlisted := runs_onTree (GameTree.legalMoves s.current) s
  rw [hvalue] at hlisted
  have hparent : after.tree.position? s.current = some p := hgrows.position? s.current p h.current
  have hnames : Runs (ids.mapM fun c => onTree (GameTree.moveNameFrom s.current c)) after
      (.ok (next.map game.moveName)) after := runs_names hcoherent.game_eq hparent hids
  exact ⟨after, (runs_currentNode s).bind (hlisted.bind hnames)⟩

theorem Settled.reports (h : Settled game s p) : Reports s p := by
  have hgame : s.tree.game = game := h.coherent.game_eq
  obtain ⟨next, hnext⟩ := h.regular.successors p h.playable_position
  obtain ⟨o, middle, ho, houtcome, hgrown⟩ := h.outcome
  refine ⟨h.current, ⟨next, hgame.symm ▸ hnext, fun args => ?_⟩,
    ⟨o, hgame.symm ▸ ho, fun args => ?_⟩, fun args => ?_⟩
  · obtain ⟨after, hmoves⟩ := h.legalMoves hnext
    have hruns : Runs (dispatch "moves" args) s _ after := hmoves.bind rfl
    rw [execute_eq hruns, hgame]
    rfl
  · have hmiddle := (h.grown hgrown).1.current
    rw [hgrown.current_eq] at hmiddle
    have hruns : Runs (dispatch "outcome" args) s (.ok (outcomeText o p.mover)) middle :=
      (runs_currentNode s).bind (houtcome.bind ((runs_position hmiddle).bind rfl))
    rw [execute_eq hruns]
    rfl
  · cases htext : s.tree.game.positionText p with
    | some text =>
        have hruns : Runs (dispatch "fen" args) s (.ok text) s := by
          refine (runs_currentGame s).bind ((runs_currentNode s).bind
            ((runs_position h.current).bind ?_))
          rw [htext]
          rfl
        rw [execute_eq hruns]
        rfl
    | none =>
        have hruns : Runs (dispatch "fen" args) s
            (.error (.parse (.noFormat s.tree.game.name))) s := by
          refine (runs_currentGame s).bind ((runs_currentNode s).bind
            ((runs_position h.current).bind ?_))
          rw [htext]
          rfl
        rw [execute_eq hruns]
        rfl

/-! ## The session after a failure -/

theorem failsSafely_dispatch {command : String} (hcommand : command ≠ "position")
    (args : List String) : FailsSafely (dispatch command args) := by
  unfold dispatch
  cases hknown : Command.ofText? command with
  | none => exact .of_keeps (.throw _)
  | some known =>
      have hfound := List.find?_some hknown
      have htext : known.text = command := beq_iff_eq.mp hfound
      exact failsSafely_perform (fun heq => hcommand (heq ▸ htext).symm) args

theorem undisturbed_of_failed (hs : Settled game s p) {command : String} {args : List String}
    (hfailed : (s.execute command args).1.1 = false)
    (hleft : command ≠ "position" ∨ ∃ e, readPosition game args = .error e) :
    Undisturbed s (s.execute command args).2 := by
  by_cases hcommand : command = "position"
  · subst hcommand
    obtain hne | ⟨e, hread⟩ := hleft
    · exact absurd rfl hne
    · rw [execute_position (runs_setPosition_of_error (hs.coherent.game_eq.symm ▸ hread))]
      exact refl_of Undisturbed s
  · rw [execute_eq (Runs.self _ _)] at hfailed ⊢
    cases hvalue : Stateful.value (dispatch command args) s with
    | ok message =>
        rw [hvalue] at hfailed
        cases hfailed
    | error e => exact failsSafely_dispatch hcommand args s e hvalue trivial

/-- A position that could be read but not be played on from: the session is at its base. -/
theorem settled_of_position_failed (hs : Settled game s p) {args moves : List String}
    {base : Position} (hfailed : (s.execute "position" args).1.1 = false)
    (hread : readPosition game args = .ok (base, moves)) :
    let after := (s.execute "position" args).2
    Settled game after base ∧ after.base = base ∧ after.line = [] := by
  obtain ⟨after, hruns, hafter, hbase, hline⟩ := hs.setPosition hread
  rw [execute_position hruns] at hfailed ⊢
  unfold Game.arrival at hafter hline
  cases hplayed : game.playAll base moves with
  | ok made =>
      rw [hplayed] at hfailed
      cases hfailed
  | error e =>
      rw [hplayed] at hafter hline
      exact ⟨hafter, hbase, hline⟩

/-- A command that fails leaves the session alone, or at the base of a position that it was
told to set up. Either way what the session tells afterwards is right. -/
theorem failed_command_leaves_session (h : Reachable s) {command : String} {args : List String}
    (hfailed : (s.execute command args).1.1 = false) :
    let after := (s.execute command args).2
    after.tree.game = s.tree.game ∧ (∃ p, Reports after p) ∧
      (command ≠ "position" ∨ (∃ e, readPosition s.tree.game args = .error e) →
        after.base = s.base ∧ after.line = s.line ∧ after.position? = s.position?) ∧
      ∀ base moves, command = "position" → readPosition s.tree.game args = .ok (base, moves) →
        after.base = base ∧ after.line = [] ∧ after.position? = some base := by
  obtain ⟨game, p, hs⟩ := h.settled
  have hgame : s.tree.game = game := hs.coherent.game_eq
  rw [hgame]
  by_cases hgiven : command = "position" ∧ ∃ base moves,
      readPosition game args = .ok (base, moves)
  · obtain ⟨rfl, base, moves, hread⟩ := hgiven
    obtain ⟨hafter, hbase, hline⟩ := settled_of_position_failed hs hfailed hread
    refine ⟨hafter.coherent.game_eq, ⟨base, hafter.reports⟩, ?_, ?_⟩
    · rintro (hne | ⟨e, he⟩)
      · exact absurd rfl hne
      · cases hread.symm.trans he
    · intro base' moves' _ hread'
      obtain ⟨rfl, -⟩ := Prod.mk.inj (Except.ok.inj (hread.symm.trans hread'))
      exact ⟨hbase, hline, hafter.current⟩
  · have hleft : command ≠ "position" ∨ ∃ e, readPosition game args = .error e := by
      refine or_iff_not_imp_left.mpr fun hcommand => ?_
      cases hread : readPosition game args with
      | error e => exact ⟨e, rfl⟩
      | ok given => exact absurd ⟨not_not.mp hcommand, given.1, given.2, hread⟩ hgiven
    obtain ⟨hafter, hbase, hline⟩ := undisturbed_of_failed hs hfailed hleft game p hs
    refine ⟨hafter.coherent.game_eq, ⟨p, hafter.reports⟩, fun _ => ?_, ?_⟩
    · exact ⟨hbase, hline, hafter.current.trans hs.current.symm⟩
    · exact fun base moves hcommand hread => absurd ⟨hcommand, base, moves, hread⟩ hgiven

/-- A move that is taken refused, and a line refused in its second move. -/
theorem failed_command_leaves_session_followed :
    Reachable followed ∧
      (followed.execute "play" ["b2"]).1.1 = false ∧
      (followed.execute "play" ["b2"]).2.base = followed.base ∧
      (followed.execute "play" ["b2"]).2.line = followed.line ∧
      (followed.execute "play" ["b2"]).2.position? = followed.position? ∧
      (followed.execute "position" ["moves", "a1", "a1"]).1.1 = false ∧
      (followed.execute "position" ["moves", "a1", "a1"]).2.base = followed.base ∧
      (followed.execute "position" ["moves", "a1", "a1"]).2.line = [] := by
  have hplay : (followed.execute "play" ["b2"]).1.1 = false := by decide +kernel
  have hposition : (followed.execute "position" ["moves", "a1", "a1"]).1.1 = false := by
    decide +kernel
  obtain ⟨-, -, hleft, -⟩ := failed_command_leaves_session reachable_followed hplay
  obtain ⟨hbase, hline, hcurrent⟩ := hleft (.inl (by decide))
  obtain ⟨-, -, -, hset⟩ := failed_command_leaves_session reachable_followed hposition
  have hread : readPosition followed.tree.game ["moves", "a1", "a1"] =
      .ok (followed.base, ["a1", "a1"]) := by
    have hgame : followed.tree.game = ⟨BuiltIn.ticTacToe, .template⟩ := by decide +kernel
    have hbase : followed.base = opened.base := by decide +kernel
    rw [hgame, hbase]
    rfl
  obtain ⟨hbase', hline', -⟩ := hset _ _ rfl hread
  exact ⟨reachable_followed, hplay, hbase, hline, hcurrent, hposition, hbase', hline'⟩

end BoardGame.Session
