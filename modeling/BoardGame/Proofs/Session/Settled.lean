import BoardGame.Proofs.Search.Players
import BoardGame.Proofs.Session.Line
/-!
# Sessions that have come to a position

A session is settled in a position if its tree is coherent, its line leads from its base to
that position, and the current node holds it. Playing on from there does what playing on
positions alone does, with the same failures.
-/

namespace BoardGame.Session

open Stateful (Keeps Runs)

variable {game : Game} {s after : Session} {p q : Position} {α : Type}

/-- The session plays `game` and its line has led to `p`. -/
structure Settled (game : Game) (s : Session) (p : Position) : Prop where
  registry : s.registry = .builtIn
  player : s.player.Provided
  made : ∃ id, Registry.builtIn.create id = .ok game
  started : ∃ start, game.initial = .ok start
  coherent : GameTree.Coherent game s.tree
  rooted : s.tree.Rooted s.base
  playable : game.Playable s.base
  current : s.tree.position? s.current = some p
  /-- The names of the line play the line. -/
  line : game.playAll s.base s.line = .ok (s.line, p)

theorem Settled.regular (h : Settled game s p) : game.Regular := by
  obtain ⟨id, hid⟩ := h.made
  exact Registry.regular_of_create hid

theorem Settled.playable_position (h : Settled game s p) : game.Playable p :=
  h.regular.playable_of_playAll h.playable h.line

/-! ## Looking at the tree -/

/-- Only the tree has changed, and it has grown. -/
def Grown (game : Game) (s after : Session) : Prop :=
  ∃ tree, after = { s with tree } ∧ GameTree.Extends game s.tree tree

instance : IsPreorder Session (Grown game) where
  refl s := ⟨s.tree, rfl, refl_of (GameTree.Extends game) s.tree⟩
  trans a b c := by
    rintro ⟨tree, rfl, h⟩ ⟨tree', rfl, h'⟩
    exact ⟨tree', rfl, trans_of (GameTree.Extends game) h h'⟩

theorem Grown.current_eq (h : Grown game s after) : after.current = s.current := by
  obtain ⟨tree, rfl, -⟩ := h
  rfl

theorem Settled.grown (h : Settled game s p) (hgrown : Grown game s after) :
    Settled game after p ∧ after.base = s.base ∧ after.line = s.line := by
  obtain ⟨tree, rfl, hextends⟩ := hgrown
  obtain ⟨hcoherent, hgrows⟩ := hextends h.coherent
  exact ⟨⟨h.registry, h.player, h.made, h.started, hcoherent, hgrows.rooted h.rooted,
    h.playable, hgrows.position? _ _ h.current, h.line⟩, rfl, rfl⟩

theorem runs_onTree (x : TreeM α) (s : Session) :
    Runs (onTree x) s (GameTree.value x s.tree) { s with tree := GameTree.exec x s.tree } := rfl

theorem runs_query {x : TreeM α} (hsafe : Keeps (GameTree.Extends game) x)
    {r : Except EngineError α} (hvalue : GameTree.value x s.tree = r) :
    ∃ after, Runs (onTree x) s r after ∧ Grown game s after ∧
      after.tree = GameTree.exec x s.tree ∧ after.current = s.current :=
  ⟨_, hvalue ▸ runs_onTree x s, ⟨_, rfl, hsafe s.tree⟩, rfl, rfl⟩

theorem runs_currentNode (s : Session) : Runs currentNode s (.ok s.current) s := rfl

theorem runs_currentGame (s : Session) : Runs currentGame s (.ok s.tree.game) s := rfl

theorem Settled.outcome (h : Settled game s p) : ∃ o after, game.outcome p = .ok o ∧
    Runs (onTree (GameTree.outcome s.current)) s (.ok o) after ∧ Grown game s after := by
  obtain ⟨o, ho⟩ := h.regular.outcome p h.playable_position
  have hvalue := (GameTree.yields_outcome s.tree h.coherent h.current).1
  rw [ho] at hvalue
  obtain ⟨after, hruns, hgrown, -⟩ := runs_query (GameTree.safe_outcome s.current) hvalue
  exact ⟨o, after, ho, hruns, hgrown⟩

theorem Settled.findMove (h : Settled game s p) {next : List Position}
    (hnext : game.successors p = .ok next) (move : String) :
    ∃ r after, Runs (findMove move) s (.ok r) after ∧ Grown game s after ∧
      after.tree.Shows r (game.meant? next move) := by
  obtain ⟨r, hvalue, hshows⟩ := GameTree.findNamed_spec h.coherent h.current hnext move
  obtain ⟨middle, hnamed, hgrown, htree, hcurrent⟩ :=
    runs_query ((GameTree.inquisitive_extends _).findNamed s.current move) hvalue
  rw [← htree] at hshows
  unfold Game.meant?
  cases hfound : next.find? fun q => game.moveName q == move with
  | some q =>
      rw [hfound] at hshows
      obtain ⟨c, rfl, hc⟩ := hshows.exists_slot
      exact ⟨some c, middle, (runs_currentNode s).bind (hnamed.bind rfl), hgrown,
        GameTree.shows_some hc⟩
  | none =>
      rw [hfound] at hshows
      obtain rfl := hshows.eq_none
      cases hsquares : squares? move with
      | none =>
          refine ⟨none, middle, (runs_currentNode s).bind (hnamed.bind ?_), hgrown, rfl⟩
          rw [hsquares]
          rfl
      | some squares =>
          obtain ⟨origin, target⟩ := squares
          have h' := (h.grown hgrown).1
          obtain ⟨r, hvalue, hshows⟩ := GameTree.findMove_spec h'.coherent
            (hcurrent ▸ h'.current) hnext origin target
          obtain ⟨after, hmoved, hgrown', htree', -⟩ :=
            runs_query ((GameTree.inquisitive_extends _).findMove s.current origin target) hvalue
          rw [← htree'] at hshows
          refine ⟨r, after, (runs_currentNode s).bind (hnamed.bind ?_), ?_, hshows⟩
          · rw [hsquares]
            exact hmoved
          · exact trans_of (Grown game) hgrown hgrown'

/-! ## Going on -/

theorem runs_advance {tree : GameTree} {child : NodeId} (hq : tree.position? child = some q) :
    GameTree.value (Match.advance child) tree = .ok () ∧
      GameTree.exec (Match.advance child) tree = tree.retainFrom q.depth := by
  have hposition := GameTree.value_position hq
  have hdepth : GameTree.value (GameTree.depth child) tree = .ok q.depth := by
    unfold GameTree.depth
    rw [GameTree.value_bind_of_ok hposition]
    rfl
  have hexec : GameTree.exec (GameTree.depth child) tree = tree := by
    unfold GameTree.depth
    rw [GameTree.exec_bind_of_ok hposition, GameTree.exec_position]
    rfl
  unfold Match.advance
  rw [GameTree.value_bind_of_ok hdepth, GameTree.exec_bind_of_ok hdepth, hexec]
  exact ⟨rfl, rfl⟩

theorem Settled.advance (h : Settled game s p) {child : NodeId}
    (hchild : s.tree.position? child = some q)
    (hplay : game.play p (game.moveName q) = .ok q) :
    ∃ after, Runs (advance child (game.moveName q)) s (.ok ()) after ∧ Settled game after q ∧
      after.base = s.base ∧ after.line = s.line ++ [game.moveName q] := by
  have hq := h.regular.playable_of_play h.playable_position hplay
  have hdepth := h.regular.depth_le q hq
  obtain ⟨hvalue, hexec⟩ := runs_advance hchild
  obtain ⟨hcoherent, hrooted, -, hkept⟩ :=
    h.coherent.retainFrom h.rooted (Or.inr hdepth)
  have hline : game.playAll s.base (s.line ++ [game.moveName q]) =
      .ok (s.line ++ [game.moveName q], q) := by
    rw [Game.playAll_append_of_ok h.line, Game.playAll_cons_of_ok hplay]
    rfl
  refine ⟨{ s with
    line := s.line ++ [game.moveName q], current := child, tree := s.tree.retainFrom q.depth },
    ?_, ?_, rfl, rfl⟩
  · have hmoved := runs_onTree (Match.advance child)
      { s with line := s.line ++ [game.moveName q], current := child }
    rw [hvalue, hexec] at hmoved
    exact Runs.bind rfl hmoved
  · exact ⟨h.registry, h.player, h.made, h.started, hcoherent, hrooted, h.playable,
      hkept child q hchild (Nat.le_refl _), hline⟩

/-- What comes of `x` when it plays on from where a session is settled: the line grows by
the names that are made, or a failure leaves the session settled somewhere. -/
def Plays (game : Game) (s : Session) (x : SessionM Unit) :
    Except EngineError (List String × Position) → Prop
  | .ok (names, q) => ∃ after, Runs x s (.ok ()) after ∧ Settled game after q ∧
      after.base = s.base ∧ after.line = s.line ++ names
  | .error e => ∃ after p, Runs x s (.error e) after ∧ Settled game after p

/-- What comes of `x` when it makes a move from where a session is settled: the session is
settled one position further on, or a failure has changed neither the base nor the line nor
the position. -/
def Steps (game : Game) (s : Session) (p : Position) (x : SessionM Unit) :
    Except EngineError Position → Prop
  | .ok q => ∃ after, Runs x s (.ok ()) after ∧ Settled game after q ∧
      after.base = s.base ∧ after.line = s.line ++ [game.moveName q]
  | .error e => ∃ after, Runs x s (.error e) after ∧ Settled game after p ∧
      after.base = s.base ∧ after.line = s.line

theorem Settled.moveName (h : Settled game s p) {child : NodeId}
    (hchild : s.tree.position? child = some q) :
    ∃ after, Runs (onTree (GameTree.moveNameFrom s.current child)) s (.ok (game.moveName q))
        after ∧ Grown game s after ∧ after.tree.position? child = some q := by
  obtain ⟨hvalue, hexec⟩ := GameTree.value_moveNameFrom h.coherent.game_eq h.current hchild
  obtain ⟨after, hruns, hgrown, htree, -⟩ :=
    runs_query (GameTree.keeps_moveNameFrom s.current child) hvalue
  refine ⟨after, hruns, hgrown, ?_⟩
  rw [htree, hexec]
  exact hchild

/-- A move of a session is a move on positions. -/
theorem Settled.play (h : Settled game s p) (move : String) :
    Steps game s p (play move) (game.play p move) := by
  have hp := h.playable_position
  obtain ⟨next, hnext⟩ := h.regular.successors p hp
  obtain ⟨o, first, ho, houtcome, hgrown⟩ := h.outcome
  obtain ⟨hfirst, hbase, hline⟩ := h.grown hgrown
  have hplay : game.play p move = _ := Game.play_eq ho hnext
  cases hterminal : o.isTerminal with
  | true =>
      rw [hplay, hterminal]
      refine ⟨first, (runs_currentNode s).bind (houtcome.bind ?_), hfirst, hbase, hline⟩
      rw [hterminal]
      rfl
  | false =>
      rw [hterminal] at hplay
      obtain ⟨r, second, hfind, hgrown', hshows⟩ := hfirst.findMove hnext move
      obtain ⟨hsecond, hbase', hline'⟩ := hfirst.grown hgrown'
      cases hmeant : game.meant? next move with
      | none =>
          rw [hmeant] at hshows hplay
          obtain rfl := hshows.eq_none
          rw [hplay]
          refine ⟨second, (runs_currentNode s).bind (houtcome.bind ?_), hsecond,
            hbase'.trans hbase, hline'.trans hline⟩
          rw [hterminal]
          exact hfind.bind rfl
      | some q =>
          rw [hmeant] at hshows hplay
          obtain ⟨child, rfl, hchild⟩ := hshows.exists_slot
          obtain ⟨third, hname, hgrown'', hchild'⟩ := hsecond.moveName hchild
          rw [hgrown'.current_eq, hgrown.current_eq] at hname
          obtain ⟨hthird, hbase'', hline''⟩ := hsecond.grown hgrown''
          have hnamed := h.regular.play_moveName hp ho hterminal hnext (Game.mem_of_meant? hmeant)
          obtain ⟨after, hadvance, hafter, hbase₃, hline₃⟩ := hthird.advance hchild' hnamed
          rw [hplay]
          refine ⟨after, (runs_currentNode s).bind (houtcome.bind ?_), hafter, ?_, ?_⟩
          · rw [hterminal]
            exact hfind.bind (hname.bind hadvance)
          · rw [hbase₃, hbase'', hbase', hbase]
          · rw [hline₃, hline'', hline', hline]

theorem Settled.playAll (h : Settled game s p) (moves : List String) :
    Plays game s (playAll moves) (game.playAll p moves) := by
  induction moves generalizing s p with
  | nil => exact ⟨s, rfl, h, rfl, (List.append_nil _).symm⟩
  | cons move rest ih =>
      have hfirst := h.play move
      cases hplay : game.play p move with
      | error e =>
          rw [hplay] at hfirst
          rw [Game.playAll_cons, hplay]
          obtain ⟨after, hruns, hafter, -⟩ := hfirst
          exact ⟨after, p, hruns.bind_error, hafter⟩
      | ok q =>
          rw [hplay] at hfirst
          obtain ⟨middle, hruns, hmiddle, hbase, hline⟩ := hfirst
          have hrest := ih hmiddle
          rw [Game.playAll_cons_of_ok hplay]
          cases hplayed : game.playAll q rest with
          | error e =>
              rw [hplayed] at hrest
              obtain ⟨after, p', hruns', hafter⟩ := hrest
              exact ⟨after, p', hruns.bind hruns', hafter⟩
          | ok made =>
              rw [hplayed] at hrest
              obtain ⟨after, hruns', hafter, hbase', hline'⟩ := hrest
              refine ⟨after, hruns.bind hruns', hafter, hbase'.trans hbase, ?_⟩
              rw [hline', hline, List.append_assoc]
              rfl

end BoardGame.Session
