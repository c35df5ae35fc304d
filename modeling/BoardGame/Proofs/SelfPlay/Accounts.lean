import BoardGame.Proofs.Search.Audits
import BoardGame.Proofs.Session.Settled
/-!
# Self-play kept to account

Both players of a match search the same tree, which drops the plies that the match has left
behind without telling them. From the current ply on the ledgers cover what they remember, and
that is all they ask for, to the end of the game.
-/

namespace BoardGame

open Stateful
open GameTree (Coherent Deep Grows HoldsFrom Replies)

variable {α γ : Type} {game : Game} {least d : Nat} {tree : GameTree} {id : NodeId}
  {p q : Position}

/-- The player remembers nothing of a game. -/
def Player.AtRest (player : Player) : Prop :=
  player.gameOver = player

theorem Player.AtRest.covered {player : Player} (h : player.AtRest) (least : Nat)
    (tree : GameTree) (l : Ledger) : player.Covered least tree l := by
  rw [← h]
  exact player.covered_gameOver least tree l

theorem Player.atRest_gameOver (player : Player) : player.gameOver.AtRest := by
  cases player <;> rfl

namespace Match

/-- The player of a side. -/
def player (m : Match) : Side → Player
  | .white => m.white
  | .black => m.black

/-- The match after a move of a side. -/
def after (m : Match) (side : Side) (player : Player) (tree : GameTree) : Match :=
  match side with
  | .white => ⟨tree, player, m.black⟩
  | .black => ⟨tree, m.white, player⟩

theorem tree_after (m : Match) (side : Side) (player : Player) (tree : GameTree) :
    (m.after side player tree).tree = tree := by
  cases side <;> rfl

theorem player_after (m : Match) (side : Side) (player : Player) (tree : GameTree) :
    (m.after side player tree).player = Function.update m.player side player := by
  funext other
  cases side <;> cases other <;> rfl

theorem runs_onTree {m : Match} {x : TreeM α} {r : Except EngineError α}
    (h : Runs x m.tree r tree) : Runs (onTree x) m r { m with tree } :=
  Prod.ext h.value_eq (congrArg (fun tree => { m with tree }) h.exec_eq)

theorem runs_next (m : Match) (side : Side) (id : NodeId) :
    let move := (m.player side).next m.tree id
    Runs (next side id) m move.1 (m.after side move.2.1 move.2.2) := by
  cases side <;> rfl

/-- Both players forget the game. -/
def gameOver : MatchM PUnit :=
  modifyThe Match fun ⟨tree, white, black⟩ => ⟨tree, white.gameOver, black.gameOver⟩

/-! ## Players in their seats -/

/-- The tree is coherent and the players are such as come with the program. `searching` says
which of them search. -/
structure Seated (game : Game) (searching : Side → Bool) (m : Match) : Prop where
  coherent : Coherent game m.tree
  provided : ∀ side, (m.player side).Provided
  searches : ∀ side, (m.player side).searches = searching side

variable {searching : Side → Bool} {m : Match}

theorem seated_of_provided {white black : Player} (htree : Coherent game tree)
    (hwhite : white.Provided) (hblack : black.Provided) :
    Seated game (fun side => (player ⟨tree, white, black⟩ side).searches) ⟨tree, white, black⟩ where
  coherent := htree
  provided side := by
    cases side with
    | white => exact hwhite
    | black => exact hblack
  searches _ := rfl

theorem Seated.next (h : Seated game searching m) (side : Side)
    (hp : m.tree.position? id = some p) : Seated game searching (exec (next side id) m) := by
  rw [(runs_next m side id).exec_eq]
  have hmoves := (h.provided side).next h.coherent hp
  refine ⟨?_, ?_, ?_⟩
  · rw [tree_after]
    exact hmoves.coherent
  · rw [player_after]
    exact (Function.forall_update_iff m.player fun _ player => player.Provided).mpr
      ⟨hmoves.provided, fun other _ => h.provided other⟩
  · rw [player_after]
    exact (Function.forall_update_iff m.player fun side player =>
      player.searches = searching side).mpr
        ⟨(Player.searches_next _ m.tree id).trans (h.searches side),
          fun other _ => h.searches other⟩

/-- The steps of a match can be accounted for by `S` and keep `K` of a depth that the match has
reached. -/
structure Auditor (game : Game) (searching : Side → Bool)
    (S : ∀ α : Type, MatchM α → Match → γ → γ → Prop) (K : Nat → Match → γ → Prop) : Prop where
  seated : ∀ {least : Nat} {m : Match} {g : γ}, K least m g → Seated game searching m
  onTree : ∀ {α : Type} (x : TreeM α) (m : Match) (g : γ), ∃ g', S α (onTree x) m g g' ∧
    ∀ {least d : Nat}, K least m g → least ≤ d → Coherent game (GameTree.exec x m.tree) →
      m.tree.HoldsFrom d (GameTree.exec x m.tree) →
        K d { m with tree := GameTree.exec x m.tree } g'
  next : ∀ {least : Nat} {m : Match} {g : γ} (side : Side) {id : NodeId} {p : Position},
    K least m g → m.tree.position? id = some p → least ≤ p.depth →
      ∃ g', S (NodeId × Option Slice) (next side id) m g g' ∧ K least (exec (next side id) m) g'
  gameOver : ∀ (m : Match) (g : γ), ∃ g', S PUnit gameOver m g g'

theorem auditor_seated (game : Game) (searching : Side → Bool) :
    Auditor game searching (fun _ _ _ (_ _ : Unit) => True)
      (fun _ m _ => Seated game searching m) where
  seated h := h
  onTree _ _ _ := ⟨(), trivial, fun h _ hcoherent _ => ⟨hcoherent, h.provided, h.searches⟩⟩
  next side _ _ h hp _ := ⟨(), trivial, h.next side hp⟩
  gameOver _ _ := ⟨(), trivial⟩

/-! ## Ledgers of both sides -/

/-- The steps of a match, and what they make of the ledgers of the sides. A move has to be traced
through the ledger of the side that makes it. -/
inductive Step : ∀ α : Type, MatchM α → Match → (Side → Ledger) → (Side → Ledger) → Prop
  | onTree {α : Type} (x : TreeM α) (m : Match) (l : Side → Ledger) :
      Step α (onTree x) m l fun side => (l side).carry m.tree (GameTree.exec x m.tree)
  | next {side : Side} {id : NodeId} {m : Match} {l : Side → Ledger} {l' : Ledger}
      (h : (m.player side).Traced m.tree id (l side) l') :
      Step (NodeId × Option Slice) (next side id) m l
        (Function.update (fun other => (l other).carry m.tree (exec (next side id) m).tree) side l')
  | gameOver (m : Match) (l : Side → Ledger) : Step PUnit gameOver m l fun _ => .blank

/-- The ledgers cover what the players remember from a depth on. -/
structure Covered (game : Game) (searching : Side → Bool) (least : Nat) (m : Match)
    (l : Side → Ledger) : Prop extends Seated game searching m where
  covered : ∀ side, (m.player side).Covered least m.tree (l side)

/-- The side that moves looks after its own ledger, and the other one has its ledger carried
along. -/
theorem Covered.next {l : Side → Ledger} (h : Covered game searching least m l) (side : Side)
    (hp : m.tree.position? id = some p) (hle : least ≤ p.depth) :
    ∃ l', Step (NodeId × Option Slice) (next side id) m l l' ∧
      Covered game searching least (exec (next side id) m) l' := by
  obtain ⟨l', htraced, hcovered⟩ := (h.provided side).audited h.coherent hp hle (h.covered side)
  refine ⟨_, .next htraced, h.toSeated.next side hp, fun other => ?_⟩
  have hgrows := ((h.provided side).next h.coherent hp).grows
  rw [(runs_next m side id).exec_eq, tree_after, player_after]
  by_cases hside : other = side
  · subst other
    rw [Function.update_self, Function.update_self]
    exact hcovered
  · rw [Function.update_of_ne hside, Function.update_of_ne hside]
    exact (h.covered other).carry (Nat.le_refl least) (hgrows.holdsFrom least)

/-- What is written down from a position to the end of a game: the names of the moves, and what
the players that search have recorded. -/
inductive Logged (game : Game) (searching : Side → Bool) :
    Position → List String → List Slice → Position → Prop where
  | ended {p : Position} {o : Outcome} (ho : game.outcome p = .ok o) (hover : o.isTerminal = true) :
      Logged game searching p [] [] p
  | ply {p q final : Position} {o : Outcome} {next : List Position} {names : List String}
      {slice : Option Slice} {slices : List Slice} (ho : game.outcome p = .ok o)
      (hopen : o.isTerminal = false) (hnext : game.successors p = .ok next) (hq : q ∈ next)
      (hslice : slice.isSome = searching p.mover ∧ ∀ s ∈ slice, s.Depicts p)
      (h : Logged game searching q names slices final) :
      Logged game searching p (game.moveName q :: names) (slice.toList ++ slices) final

/-- The match keeps `K` at the depth that it has reached, and if the game has come to its end it
is logged. -/
def Concludes (game : Game) (searching : Side → Bool) (K : Nat → Match → γ → Prop) (p : Position)
    (r : Except EngineError (List String × List Slice × NodeId)) (m : Match) (g : γ) : Prop :=
  (∃ least, K least m g) ∧ Met (fun rest => ∃ final, m.tree.position? rest.2.2 = some final ∧
    Logged game searching p rest.1 rest.2.1 final) r

/-- What a record of a game is made from. -/
structure Recorded (game : Game) (searching : Side → Bool) (start : Position) (r : GameRecord) :
    Prop where
  logged : ∃ slices, Logged game searching start r.moves slices r.final ∧
    TrainingInstance.ofGame r.final r.outcome slices = .ok r.instances
  outcome : game.outcome r.final = .ok r.outcome

/-- The game is over for both players. -/
structure Done (game : Game) (m : Match) : Prop where
  coherent : Coherent game m.tree
  atRest : ∀ side, (m.player side).AtRest

/-- Makes the record of a game that has been played. -/
def certify (rest : List String × List Slice × NodeId) : MatchM GameRecord := do
  let outcome ← GameTree.outcome rest.2.2
  let final ← GameTree.position rest.2.2
  match TrainingInstance.ofGame final outcome rest.2.1 with
  | .ok instances => return { final, outcome, moves := rest.1, instances }
  | .error error => throw error

theorem play_eq :
    play = onTree (do return (← get).start) >>= fun id => playFrom maxPlies id >>= fun rest =>
      gameOver >>= fun _ => certify rest := rfl

theorem met_ofGame (final : Position) (o : Outcome) (slices : List Slice) :
    Met (fun _ => True) (TrainingInstance.ofGame final o slices) := by
  unfold TrainingInstance.ofGame
  split
  · exact trivial
  · exact nofun

namespace Auditor

variable {S : ∀ α : Type, MatchM α → Match → γ → γ → Prop} {K : Nat → Match → γ → Prop}
  (ha : Auditor game searching S K)

include ha

theorem asks {P : GameTree → α → Prop} {x : TreeM α} (h : Replies game tree P x) :
    Accountable S Match.tree (K least) tree P (Match.onTree x) := by
  rintro later hlater m g ⟨hK, hgrows⟩
  obtain ⟨hcoherent, hgrows', hmet⟩ := h m.tree (ha.seated hK).coherent (hlater.trans hgrows)
  obtain ⟨g', hstep, hafter⟩ := ha.onTree x m g
  exact ⟨g', .step hstep, ⟨hafter hK (Nat.le_refl least) hcoherent (hgrows'.holdsFrom least),
    hgrows.trans hgrows'⟩, hmet⟩

theorem moves (side : Side) (hp : tree.position? id = some p) (hle : least ≤ p.depth) :
    Accountable S Match.tree (K least) tree
      (fun later move => (move.2.isSome = searching side ∧ ∀ slice ∈ move.2, slice.Depicts p) ∧
        ∃ next, game.successors p = .ok next ∧ ∃ q ∈ next, later.position? move.1 = some q)
      (Match.next side id) := by
  rintro later hlater m g ⟨hK, hgrows⟩
  have hseated := ha.seated hK
  have hp := (hlater.trans hgrows).position? id p hp
  have hmoves := (hseated.provided side).next hseated.coherent hp
  have hmet := (hseated.provided side).meets hseated.coherent hp
  obtain ⟨g', hstep, hafter⟩ := ha.next side hK hp hle
  have hruns := runs_next m side id
  refine ⟨g', .step hstep, ⟨hafter, ?_⟩, ?_⟩
  · rw [hruns.exec_eq, tree_after]
    exact hgrows.trans hmoves.grows
  · rw [hruns.value_eq, hruns.exec_eq, tree_after]
    cases hmove : ((m.player side).next m.tree id).1 with
    | error e =>
        rw [hmove] at hmet
        exact hmet
    | ok move =>
        rw [hmove, hseated.searches side] at hmet
        exact ⟨hmet, hmoves.successor move.1 move.2 hmove⟩

theorem advance (hq : tree.position? id = some q) (hle : least ≤ q.depth) :
    Audited S (fun m g => K least m g ∧ Grows tree m.tree) (Match.onTree (Match.advance id))
      fun r m g => r = .ok () ∧ K q.depth m g ∧ m.tree.position? id = some q := by
  rintro m g ⟨hK, hgrows⟩
  have hq := hgrows.position? id q hq
  have hcoherent := (ha.seated hK).coherent
  obtain ⟨start, hroot⟩ := hcoherent.arena.exists_rooted
  obtain ⟨hcoherent', -, -, hkept⟩ :=
    hcoherent.retainFrom hroot (Or.inr (hcoherent.depth_le id q hq))
  obtain ⟨g', hstep, hafter⟩ := ha.onTree (Match.advance id) m g
  obtain ⟨hvalue, hexec⟩ := Session.runs_advance hq
  have hruns : Runs (Match.onTree (Match.advance id)) m (.ok ())
      { m with tree := m.tree.retainFrom q.depth } := runs_onTree (Prod.ext hvalue hexec)
  rw [hruns.value_eq, hruns.exec_eq]
  rw [hexec] at hafter
  exact ⟨g', .step hstep, rfl, hafter hK hle hcoherent' hkept, hkept id q hq (Nat.le_refl _)⟩

/-- The match goes on to the end of the game, and the moves are logged. -/
theorem playFrom (fuel : Nat) (hp : tree.position? id = some p) (hcounted : p.depth ≤ maxDepth) :
    Audited S (fun m g => K p.depth m g ∧ Grows tree m.tree) (Match.playFrom fuel id)
      (Concludes game searching K p) := by
  induction fuel generalizing tree id p with
  | zero => exact .throw fun m g hs => ⟨⟨p.depth, hs.1⟩, nofun⟩
  | succ fuel ih =>
      refine (ha.asks (GameTree.replies_outcome hp)).audited_bind
        (fun o t₁ h₁ ho => ?_) fun _ _ _ hK _ he => ⟨⟨p.depth, hK⟩, he⟩
      cases hover : o.isTerminal with
      | true =>
          exact .pure fun m g ⟨hK, hgrows⟩ => ⟨⟨p.depth, hK⟩, p,
            (h₁.trans hgrows).position? id p hp, .ended ho hover⟩
      | false =>
          have hp := h₁.position? id p hp
          refine (ha.asks (GameTree.replies_position hp)).audited_bind
            (fun pos t₂ h₂ hpos => ?_) fun _ _ _ hK _ he => ⟨⟨p.depth, hK⟩, he⟩
          subst pos
          refine (ha.moves p.mover (h₂.position? id p hp) (Nat.le_refl _)).audited_bind
            (fun move t₃ h₃ hmove => ?_) fun _ _ _ hK _ he => ⟨⟨p.depth, hK⟩, he⟩
          obtain ⟨hslice, next, hnext, q, hq, hchild⟩ := hmove
          have hfollows := Game.follows_of_mem_successors hnext hq
          have hparent := (h₂.trans h₃).position? id p hp
          refine (ha.asks (GameTree.replies_moveNameFrom hparent hchild)).audited_bind
            (fun name t₄ h₄ hname => ?_) fun _ _ _ hK _ he => ⟨⟨p.depth, hK⟩, he⟩
          subst name
          refine Audited.bind
            (ha.advance (h₄.position? _ q hchild) (hfollows.le_depth hcounted))
            (fun _ => ?_) fun e m g herror => nomatch herror.1
          -- the plies above the child are gone, and the game goes on from its tree
          intro m g ⟨_, hK, hchild⟩
          refine Audited.bind (ih hchild hfollows.depth_le) (fun rest => .pure ?_) ?_ m g
            ⟨hK, .refl _⟩
          · rintro m g ⟨hK, final, hfinal, hlogged⟩
            exact ⟨hK, final, hfinal, .ply ho hover hnext hq hslice hlogged⟩
          · exact fun _ _ _ hfailed => hfailed

theorem forgets :
    Audited S (fun m g => K least m g ∧ Grows tree m.tree) Match.gameOver
      fun r m _ => r = .ok () ∧ Done game m ∧ Grows tree m.tree := by
  rintro m g ⟨hK, hgrows⟩
  obtain ⟨g', hstep⟩ := ha.gameOver m g
  refine ⟨g', .step hstep, rfl, ⟨(ha.seated hK).coherent, fun side => ?_⟩, hgrows⟩
  cases side with
  | white => exact m.white.atRest_gameOver
  | black => exact m.black.atRest_gameOver

theorem asksDone {P : GameTree → α → Prop} {x : TreeM α} (h : Replies game tree P x) :
    Accountable S Match.tree (fun m _ => Done game m) tree P (Match.onTree x) := by
  rintro later hlater m g ⟨hdone, hgrows⟩
  obtain ⟨hcoherent, hgrows', hmet⟩ := h m.tree hdone.coherent (hlater.trans hgrows)
  obtain ⟨g', hstep, -⟩ := ha.onTree x m g
  exact ⟨g', .step hstep, ⟨⟨hcoherent, hdone.atRest⟩, hgrows.trans hgrows'⟩, hmet⟩

theorem certify {start final : Position} {rest : List String × List Slice × NodeId}
    (hfinal : tree.position? rest.2.2 = some final)
    (hlogged : Logged game searching start rest.1 rest.2.1 final) :
    Audited S (fun m _ => Done game m ∧ Grows tree m.tree) (Match.certify rest)
      fun r m _ => Met (fun record => Recorded game searching start record ∧
        ∀ side, (m.player side).AtRest) r := by
  unfold Match.certify
  refine (ha.asksDone (GameTree.replies_outcome hfinal)).audited_bind
    (fun o t₁ h₁ ho => ?_) fun _ _ _ _ _ he => he
  refine (ha.asksDone (GameTree.replies_position (h₁.position? _ _ hfinal))).audited_bind
    (fun p t₂ h₂ hp => ?_) fun _ _ _ _ _ he => he
  subst p
  have hmet := met_ofGame final o rest.2.1
  cases hinstances : TrainingInstance.ofGame final o rest.2.1 with
  | ok instances =>
      exact .pure fun m g ⟨hdone, _⟩ => ⟨⟨⟨rest.2.1, hlogged, hinstances⟩, ho⟩, hdone.atRest⟩
  | error e =>
      rw [hinstances] at hmet
      exact .throw fun _ _ _ => hmet

/-- A match can be audited to its end. If there is a record, the players are at rest again. -/
theorem play {start : Position} (hroot : tree.Rooted start) (hcounted : start.depth ≤ maxDepth) :
    Audited S (fun m g => K start.depth m g ∧ Grows tree m.tree) Match.play
      fun r m _ => Met (fun record => Recorded game searching start record ∧
        ∀ side, (m.player side).AtRest) r := by
  have hstart : Replies game tree (fun later id => later.position? id = some start)
      (do return (← get).start) :=
    fun later hlater hgrows => ⟨hlater, Grows.refl later, hgrows.rooted hroot⟩
  rw [play_eq]
  refine (ha.asks hstart).audited_bind (fun id t₁ _ hid => ?_) fun _ _ _ _ _ he => he
  refine Audited.bind (ha.playFrom maxPlies hid hcounted) (fun rest => ?_)
    fun _ _ _ hfailed => hfailed.2
  rintro m g ⟨⟨least, hK⟩, final, hfinal, hlogged⟩
  have hend : Audited S (fun after g => K least after g ∧ Grows m.tree after.tree)
      (Match.gameOver >>= fun _ => Match.certify rest) fun r m _ =>
        Met (fun record => Recorded game searching start record ∧
          ∀ side, (m.player side).AtRest) r := by
    refine Audited.bind ha.forgets (fun _ => ?_) fun _ _ _ herror => nomatch herror.1
    exact (ha.certify hfinal hlogged).imp (fun _ _ hdone => hdone.2) fun _ _ _ hmet => hmet
  exact hend m g ⟨hK, Grows.refl m.tree⟩

end Auditor

end Match

end BoardGame
