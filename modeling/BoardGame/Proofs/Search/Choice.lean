import BoardGame.Proofs.Search.Success
/-!
# A search picks a move

In a game that ends no question of a search stays without an answer. So whatever its
statistics are and however its priorities compare, a search comes to a legal move, and to one
that wins at once if there is one. A strategy has to see to its own parts only.
-/

namespace BoardGame

open Stateful SearchM
open GameTree (Coherent Develops)

variable {V : Type} {game : Game} {tree : GameTree} {id parent root : NodeId}
  {p q : Position} {next : List Position} {moves : List NodeId}

/-- The move from `p` to `q` wins the game for the side that makes it. -/
def Game.WinsAtOnce (game : Game) (p q : Position) : Prop :=
  game.outcome q = .ok (if q.mover = p.mover then .win else .lose)

/-- A node holds a position that the game has come to. -/
structure Holds (game : Game) (tree : GameTree) (id : NodeId) (p : Position) : Prop where
  position : tree.position? id = some p
  reachable : game.Reachable p

/-- A node holds a position that the game has come to, whichever it is. -/
def Live (game : Game) (tree : GameTree) (id : NodeId) : Prop :=
  ∃ p, Holds game tree id p

theorem Holds.later {after : GameTree} (h : Holds game tree id p) (hlater : Develops tree after) :
    Holds game after id p :=
  ⟨hlater.position? id p h.position, h.reachable⟩

theorem Live.later {after : GameTree} (h : Live game tree id) (hlater : Develops tree after) :
    Live game after id :=
  let ⟨p, hp⟩ := h
  ⟨p, hp.later hlater⟩

theorem Holds.child (h : Holds game tree id p) (hnext : game.successors p = .ok next)
    (hmoves : moves.map tree.position? = next.map some) {child : NodeId} (hchild : child ∈ moves) :
    ∃ q ∈ next, Holds game tree child q :=
  let ⟨q, hq, hposition⟩ := GameTree.exists_position_of_mem hmoves hchild
  ⟨q, hq, hposition, h.reachable.step hnext hq⟩

namespace Game.Ends

theorem exists_successors (h : game.Ends) (hp : game.Reachable p) :
    ∃ next, game.successors p = .ok next :=
  let ⟨_, _, hends⟩ := h p hp
  let ⟨next, _, hnext, _⟩ := hends.exists_next
  ⟨next, hnext⟩

theorem exists_outcome (h : game.Ends) (hp : game.Reachable p) : ∃ o, game.outcome p = .ok o :=
  let ⟨_, _, hends⟩ := h p hp
  let ⟨_, o, _, ho, _⟩ := hends.exists_next
  ⟨o, ho⟩

theorem ne_nil (h : game.Ends) (hp : game.Reachable p) (hnext : game.successors p = .ok next)
    (hopen : game.outcome p = .ok .undetermined) : next ≠ [] := by
  obtain ⟨_, _, hends⟩ := h p hp
  obtain ⟨next', o, hnext', ho, hmoves⟩ := hends.exists_next
  rw [hnext] at hnext'
  rw [hopen] at ho
  exact Except.ok.inj hnext' ▸ hmoves (Except.ok.inj ho).symm

end Game.Ends

/-- The parts of a strategy succeed on nodes that the game has come to. -/
structure Strategy.Able (game : Game) (strategy : Strategy V) : Prop where
  priority : ∀ tree parent child, Live game tree parent → Live game tree child →
    SearchM.Succeeds game tree (fun _ _ => True) (strategy.priority parent child)
  appraise : ∀ tree id p, Holds game tree id p → game.outcome p = .ok .undetermined →
    SearchM.Succeeds game tree (fun _ _ => True) (strategy.appraise id)
  weigh : ∀ tree depth root moves, Live game tree root → (∀ child ∈ moves, Live game tree child) →
    SearchM.Succeeds game tree (fun _ weighed => weighed.2.length = moves.length)
      (strategy.weigh depth root moves)

/-! ## Verdicts and draws -/

theorem Verdict.ofOutcome_eq_win {o : Outcome} {child parent : Side} :
    Verdict.ofOutcome o child parent = .win ↔ o = if child = parent then .win else .lose := by
  unfold Verdict.ofOutcome
  by_cases h : child = parent
  · rw [if_pos h, decide_eq_true h]
    cases o <;> simp
  · rw [if_neg h, decide_eq_false h]
    cases o <;> simp

namespace SearchM

/-- What a verdict says of a child. -/
def Judged (game : Game) (tree : GameTree) (p : Position) (child : NodeId) (v : Verdict) : Prop :=
  ∃ q o, tree.position? child = some q ∧ game.outcome q = .ok o ∧
    v = Verdict.ofOutcome o q.mover p.mover

theorem Judged.win_iff {v : Verdict} (h : Judged game tree p child v) :
    v = .win ↔ ∃ q, tree.position? child = some q ∧ game.WinsAtOnce p q := by
  obtain ⟨q, o, hq, ho, rfl⟩ := h
  rw [Verdict.ofOutcome_eq_win]
  constructor
  · rintro rfl
    exact ⟨q, hq, ho⟩
  · rintro ⟨q', hq', hwin⟩
    rw [hq] at hq'
    obtain rfl := Option.some.inj hq'
    unfold Game.WinsAtOnce at hwin
    rw [ho] at hwin
    exact Except.ok.inj hwin

theorem succeeds_verdicts (hends : game.Ends) (hp : Holds game tree root p)
    (hmoves : ∀ child ∈ moves, Live game tree child) :
    Succeeds game tree (fun _ verdicts => List.Forall₂ (Judged game tree p) moves verdicts)
      (verdicts root moves : SearchM V (List Verdict)) := by
  refine (succeeds_onTree (GameTree.answers_position hp.position)).bind fun _ later hlater hq => ?_
  subst hq
  refine .later (.mapM fun child hchild => ?_) hlater
  obtain ⟨q, hq⟩ := hmoves child hchild
  obtain ⟨o, ho⟩ := hends.exists_outcome hq.reachable
  refine (succeeds_onTree (GameTree.answers_outcome hq.position ho)).bind
    fun _ later hlater houtcome => ?_
  refine (succeeds_onTree (GameTree.answers_position (hq.later hlater).position)).bind
    fun _ _ _ hposition => .pure fun _ _ => ⟨q, o, hq.position, ho, ?_⟩
  rw [houtcome, hposition]

theorem succeeds_pickIndex {verdicts : List Verdict} (hne : verdicts ≠ []) (weights : List Float) :
    Succeeds game tree (fun _ pick => ∃ i, pick = some i ∧ i < verdicts.length ∧
        (Verdict.win ∈ verdicts → verdicts[i]? = some .win))
      (liftM (pickIndex verdicts weights) : SearchM V (Option Nat)) := by
  refine succeeds_byChance fun g => ?_
  obtain ⟨i, hi, hspec⟩ := pickIndex_spec hne weights g
  exact ⟨_, _, rfl, i, hi, hspec⟩

/-- `child` is one of the moves that the tree lists at `root`, and it wins at once if one of
them does. -/
structure Picked (game : Game) (root : NodeId) (p : Position) (next : List Position)
    (tree : GameTree) (child : NodeId) : Prop where
  listed : ∃ moves, tree.children? root = some moves ∧
    moves.map tree.position? = next.map some ∧ child ∈ moves
  wins : (∃ q ∈ next, game.WinsAtOnce p q) →
    ∃ q, tree.position? child = some q ∧ game.WinsAtOnce p q

theorem Picked.later {after : GameTree} {child : NodeId} (h : Picked game root p next tree child)
    (hlater : Develops tree after) : Picked game root p next after child := by
  obtain ⟨⟨moves, hchildren, hmoves, hmem⟩, hwins⟩ := h
  refine ⟨⟨moves, hlater.kept root moves hchildren, hlater.map_position? hmoves, hmem⟩,
    fun hwin => ?_⟩
  obtain ⟨q, hq, hwin⟩ := hwins hwin
  exact ⟨q, hlater.position? child q hq, hwin⟩

theorem exists_picked (hchildren : tree.children? root = some moves)
    (hmoves : moves.map tree.position? = next.map some) {verdicts : List Verdict}
    (hverdicts : List.Forall₂ (Judged game tree p) moves verdicts) {pick : Option Nat}
    (hpick : ∃ i, pick = some i ∧ i < verdicts.length ∧
      (Verdict.win ∈ verdicts → verdicts[i]? = some .win)) :
    ∃ child, pick.bind (moves[·]?) = some child ∧ Picked game root p next tree child := by
  obtain ⟨i, rfl, hi, hwin⟩ := hpick
  have hlt : i < moves.length := hverdicts.length_eq ▸ hi
  have hjudged : Judged game tree p moves[i] verdicts[i] := List.Forall₂.get hverdicts hlt hi
  refine ⟨moves[i], List.getElem?_eq_getElem hlt,
    ⟨moves, hchildren, hmoves, List.getElem_mem hlt⟩, ?_⟩
  rintro ⟨q, hq, hwins⟩
  have hmem : some q ∈ moves.map tree.position? := hmoves ▸ List.mem_map_of_mem hq
  obtain ⟨c, hc, hposition⟩ := List.mem_map.mp hmem
  obtain ⟨j, hj, rfl⟩ := List.mem_iff_getElem.mp hc
  have hj' : j < verdicts.length := hverdicts.length_eq ▸ hj
  have hother : Judged game tree p moves[j] verdicts[j] := List.Forall₂.get hverdicts hj hj'
  have hmem : Verdict.win ∈ verdicts :=
    hother.win_iff.mpr ⟨q, hposition, hwins⟩ ▸ List.getElem_mem hj'
  rw [List.getElem?_eq_getElem hi] at hwin
  exact hjudged.win_iff.mp (Option.some.inj (hwin hmem))

/-- What is recorded about a node. -/
structure Records (game : Game) (p : Position) (next : List Position) (slice : Slice) : Prop where
  board : slice.board = p.board
  mover : slice.mover = p.mover
  indices : slice.shares.map (·.index) = next.map fun q => game.rules.moveIndex q.last

theorem succeeds_mapM_positions {α β γ : Type} {entries : List α} {node : α → NodeId}
    {g : α → SearchM V β} (view : β → γ) (key : Position → γ)
    (hnodes : (entries.map node).map tree.position? = next.map some)
    (h : ∀ a q, tree.position? (node a) = some q →
      Succeeds game tree (fun _ b => view b = key q) (g a)) :
    Succeeds game tree (fun _ bs => bs.map view = next.map key) (entries.mapM g) := by
  refine Succeeds.imp (.mapM (R := fun a b => (tree.position? (node a)).map key = some (view b))
    fun a ha => ?_) fun _ bs _ hbs => ?_
  · obtain ⟨q, -, hq⟩ := GameTree.exists_position_of_mem hnodes (List.mem_map_of_mem ha)
    refine (h a q hq).imp fun _ b _ hb => ?_
    rw [hq, hb]
    rfl
  · have hmap : entries.map (fun a => (tree.position? (node a)).map key) =
        bs.map fun b => some (view b) := by
      rwa [← List.forall₂_eq_eq_eq, List.forall₂_map_left_iff, List.forall₂_map_right_iff]
    apply List.map_injective_iff.mpr (Option.some_injective _)
    calc (bs.map view).map some
        = entries.map (fun a => (tree.position? (node a)).map key) := by
          rw [List.map_map]
          exact hmap.symm
      _ = ((entries.map node).map tree.position?).map (Option.map key) := by
          rw [List.map_map, List.map_map]
          rfl
      _ = (next.map key).map some := by
          rw [hnodes, List.map_map, List.map_map]
          rfl

theorem succeeds_recordSlice (hp : Holds game tree root p)
    (hmoves : moves.map tree.position? = next.map some) {shares : List Float}
    (hshares : shares.length = moves.length) :
    Succeeds game tree (fun _ slice => Records game p next slice)
      (recordSlice root moves shares : SearchM V Slice) := by
  refine succeeds_game.bind fun g later hlater hgame => ?_
  subst g
  refine (succeeds_onTree (GameTree.answers_position (hp.later hlater).position)).bind
    fun pos later' hlater' hposition => ?_
  subst pos
  have hnodes : ((moves.zip shares).map (·.1)).map later'.position? = next.map some := by
    rw [List.map_fst_zip hshares.ge]
    exact (hlater.trans hlater').map_position? hmoves
  refine (succeeds_mapM_positions MoveShare.index (fun q => game.rules.moveIndex q.last) hnodes
    fun entry q hq => ?_).bind
    fun entries _ _ hentries => .pure fun _ _ => ⟨rfl, rfl, hentries⟩
  refine (succeeds_onTree (GameTree.answers_position hq)).bind fun _ _ _ hposition =>
    .pure fun _ _ => ?_
  rw [hposition]

end SearchM

/-! ## Descending to a leaf -/

open SearchM

variable {strategy : Strategy V}

namespace MonteCarlo

theorem succeeds_bestFrom (h : strategy.Able game) {best : Option (NodeId × Float)}
    {rest : List NodeId} (hparent : Live game tree parent)
    (hbest : ∀ b ∈ best, Live game tree b.1) (hrest : ∀ child ∈ rest, Live game tree child)
    (hne : best ≠ none ∨ rest ≠ []) :
    SearchM.Succeeds game tree
      (fun later best => ∃ child, best = some child ∧ Live game later child)
      (bestFrom strategy parent best rest) := by
  induction rest generalizing best tree with
  | nil =>
      refine .pure fun later hlater => ?_
      cases best with
      | none => exact absurd rfl (hne.resolve_right (absurd rfl))
      | some b => exact ⟨b.1, rfl, (hbest b rfl).later hlater⟩
  | cons child rest ih =>
      obtain ⟨hchild, hrest⟩ := List.forall_mem_cons.mp hrest
      obtain ⟨better, hbetter, heq⟩ := exists_bestFrom_cons strategy parent child best rest
      rw [heq]
      refine (h.priority tree parent child hparent hchild).bind fun value later hlater _ => ?_
      refine ih (hparent.later hlater) (fun b hb => ?_) (fun c hc => (hrest c hc).later hlater)
        (.inl (Option.some_ne_none _))
      obtain rfl := Option.some.inj hb
      rcases hbetter value with hfirst | hkept
      · rw [hfirst]
        exact hchild.later hlater
      · exact (hbest _ hkept).later hlater

theorem succeeds_bestChild (h : strategy.Able game) (hends : game.Ends)
    (hp : Holds game tree parent p) (hopen : game.outcome p = .ok .undetermined) :
    SearchM.Succeeds game tree (fun later child => Live game later child)
      (bestChild strategy parent) := by
  obtain ⟨next, hnext⟩ := hends.exists_successors hp.reachable
  have hne := hends.ne_nil hp.reachable hnext hopen
  refine (succeeds_onTree (GameTree.answers_legalMoves hp.position hnext)).bind
    fun moves later hlater ⟨hmoves, _⟩ => ?_
  have hlive : ∀ child ∈ moves, Live game later child := fun child hchild =>
    let ⟨q, _, hq⟩ := (hp.later hlater).child hnext hmoves hchild
    ⟨q, hq⟩
  refine (succeeds_bestFrom h ⟨p, hp.later hlater⟩
    (fun b hb => absurd hb (Option.not_mem_none b)) hlive (.inr ?_)).bind
    fun best _ _ ⟨child, hbest, hchild⟩ => ?_
  · rintro rfl
    exact hne (List.map_eq_nil_iff.mp hmoves.symm)
  · rw [hbest]
    exact .pure fun _ hlater => hchild.later hlater

variable [Inhabited V]

theorem succeeds_passable (hends : game.Ends) (hp : Holds game tree id p) :
    SearchM.Succeeds game tree (fun _ passes => passes = true → game.outcome p = .ok .undetermined)
      (passable id : SearchM V Bool) := by
  obtain ⟨o, ho⟩ := hends.exists_outcome hp.reachable
  have hexpanded : SearchM.Succeeds game tree (fun _ _ => True)
      (Strategy.expanded id : SearchM V Bool) :=
    (succeeds_stat hp.position).bind fun _ _ _ _ => .pure fun _ _ => trivial
  refine hexpanded.bind fun expanded later hlater _ => ?_
  cases expanded with
  | false => exact .pure fun _ _ => nofun
  | true =>
      refine (succeeds_onTree (GameTree.answers_outcome (hp.later hlater).position ho)).bind
        fun outcome _ _ houtcome => .pure fun _ _ hpasses => ?_
      rw [ho, ← houtcome]
      cases outcome with
      | undetermined => rfl
      | _ => cases hpasses

theorem succeeds_descendFrom (h : strategy.Able game) (hends : game.Ends) (fuel : Nat)
    {node : NodeId} (hnode : Live game tree node) :
    SearchM.Succeeds game tree
      (fun later way => (∀ a ∈ way.1, Live game later a) ∧ Live game later way.2)
      (descendFrom strategy fuel node) := by
  induction fuel generalizing tree node with
  | zero => exact .pure fun _ hlater => ⟨nofun, hnode.later hlater⟩
  | succ fuel ih =>
      obtain ⟨p, hp⟩ := hnode
      refine (succeeds_passable hends hp).bind fun passes later hlater hopen => ?_
      have hp := hp.later hlater
      cases passes with
      | false => exact .pure fun _ hlater => ⟨nofun, p, hp.later hlater⟩
      | true =>
          refine (succeeds_bestChild h hends hp (hopen rfl)).bind
            fun child later' hlater' hchild => ?_
          refine (ih hchild).bind
            fun ⟨path, leaf⟩ _ hlater'' ⟨hpath, hleaf⟩ => .pure fun _ hlater => ?_
          refine ⟨List.forall_mem_cons.mpr ⟨⟨p, ?_⟩, fun a ha => (hpath a ha).later hlater⟩,
            hleaf.later hlater⟩
          exact ((hp.later hlater').later hlater'').later hlater

end MonteCarlo

/-! ## Iterations -/

section

variable [Inhabited V]

namespace Strategy.Able

theorem expand (h : strategy.Able game) (hends : game.Ends) (hid : Live game tree id) :
    SearchM.Succeeds game tree (fun _ _ => True) (strategy.expand id) := by
  obtain ⟨p, hp⟩ := hid
  obtain ⟨o, ho⟩ := hends.exists_outcome hp.reachable
  refine (succeeds_onTree (GameTree.answers_outcome hp.position ho)).bind
    fun outcome later hlater houtcome => ?_
  have hp := hp.later hlater
  cases outcome with
  | undetermined =>
      refine (h.appraise later id p hp (ho.trans (houtcome ▸ rfl))).bind fun _ _ hlater _ => ?_
      exact succeeds_changeStat (hp.later hlater).position _
  | _ => exact succeeds_changeStat hp.position _

end Strategy.Able

theorem Strategy.succeeds_backprop (strategy : Strategy V) {path : List NodeId} {leaf : NodeId}
    (hpath : ∀ a ∈ path, Live game tree a) (hleaf : Live game tree leaf) :
    SearchM.Succeeds game tree (fun _ _ => True) (strategy.backprop path leaf) := by
  obtain ⟨q, hq⟩ := hleaf
  refine (succeeds_stat hq.position).bind fun _ later hlater _ => ?_
  have hq := hq.later hlater
  refine (succeeds_onTree (GameTree.answers_depth hq.position)).bind fun _ later' hlater' _ => ?_
  refine .forM fun ancestor hancestor => ?_
  obtain ⟨p, hp⟩ := hpath ancestor hancestor
  have hp := (hp.later hlater).later hlater'
  refine (succeeds_onTree (GameTree.answers_sameMover hp.position (hq.later hlater').position)).bind
    fun _ _ hlater _ => ?_
  refine (succeeds_onTree (GameTree.answers_depth (hp.later hlater).position)).bind
    fun _ _ hlater' _ => ?_
  exact succeeds_changeStat ((hp.later hlater).later hlater').position _

namespace MonteCarlo

theorem succeeds_iterate (h : strategy.Able game) (hends : game.Ends)
    (hroot : Live game tree root) :
    SearchM.Succeeds game tree (fun _ _ => True) (iterate strategy root) := by
  have hdescend : SearchM.Succeeds game tree
      (fun later way => (∀ a ∈ way.1, Live game later a) ∧ Live game later way.2)
      (descend strategy root) := by
    have hget : SearchM.Succeeds game tree (fun _ _ => True)
        (getThe (SearchState V) : SearchM V _) :=
      succeeds_of_tree_eq fun s _ _ => ⟨s, s, rfl, rfl, trivial⟩
    exact hget.bind fun _ _ hlater _ => succeeds_descendFrom h hends _ (hroot.later hlater)
  refine hdescend.bind fun ⟨path, leaf⟩ _ _ ⟨hpath, hleaf⟩ => ?_
  refine (h.expand hends hleaf).bind fun _ _ hlater _ => ?_
  exact strategy.succeeds_backprop (fun a ha => (hpath a ha).later hlater) (hleaf.later hlater)

theorem succeeds_iterateTimes (h : strategy.Able game) (hends : game.Ends)
    (hroot : Live game tree root) (n : Nat) :
    SearchM.Succeeds game tree (fun _ _ => True) (iterateTimes strategy root n) := by
  induction n generalizing tree with
  | zero => exact .pure fun _ _ => trivial
  | succ n ih =>
      exact (succeeds_iterate h hends hroot).bind fun _ _ hlater _ => ih (hroot.later hlater)

theorem answers_ensurePlayable (hends : game.Ends) (hp : Holds game tree root p)
    (hopen : game.outcome p = .ok .undetermined) :
    GameTree.Answers game tree (fun _ _ => True) (ensurePlayable root) := by
  obtain ⟨next, hnext⟩ := hends.exists_successors hp.reachable
  have hne := hends.ne_nil hp.reachable hnext hopen
  refine (GameTree.answers_outcome hp.position hopen).bind fun outcome later hlater houtcome => ?_
  subst outcome
  refine (GameTree.answers_legalMoves (hp.later hlater).position hnext).bind
    fun moves _ _ ⟨hmoves, _⟩ => ?_
  cases moves with
  | nil => exact absurd (List.map_eq_nil_iff.mp hmoves.symm) hne
  | cons child rest => exact .pure fun _ _ => trivial

end MonteCarlo

end

/-! ## Picking -/

theorem Strategy.Able.pickMove (h : strategy.Able game) (hends : game.Ends)
    (hp : Holds game tree root p) (hopen : game.outcome p = .ok .undetermined)
    (hnext : game.successors p = .ok next) :
    SearchM.Succeeds game tree
      (fun later move => Picked game root p next later move.1 ∧ Records game p next move.2)
      (strategy.pickMove root) := by
  have hne := hends.ne_nil hp.reachable hnext hopen
  refine (succeeds_onTree (GameTree.answers_legalMoves hp.position hnext)).bind
    fun moves t₁ h₁ ⟨hmoves, hchildren⟩ => ?_
  have hp := hp.later h₁
  have hmoves_ne : moves ≠ [] := by
    rintro rfl
    exact hne (List.map_eq_nil_iff.mp hmoves.symm)
  have hlive : ∀ child ∈ moves, Live game t₁ child := fun child hchild =>
    let ⟨q, _, hq⟩ := hp.child hnext hmoves hchild
    ⟨q, hq⟩
  have hempty : ¬moves.isEmpty := by simpa using hmoves_ne
  rw [if_neg hempty]
  refine (succeeds_onTree (GameTree.answers_depth hp.position)).bind fun depth t₂ h₂ _ => ?_
  refine (h.weigh t₂ depth root moves ⟨p, hp.later h₂⟩
    fun child hchild => (hlive child hchild).later h₂).bind
      fun ⟨weights, shares⟩ t₃ h₃ hshares => ?_
  have h₁₃ := h₂.trans h₃
  refine (succeeds_recordSlice (hp.later h₁₃) (h₁₃.map_position? hmoves) hshares).bind
    fun slice t₄ h₄ hslice => ?_
  have h₁₄ := h₁₃.trans h₄
  refine (succeeds_verdicts hends (hp.later h₁₄)
    fun child hchild => (hlive child hchild).later h₁₄).bind fun verdicts t₅ h₅ hverdicts => ?_
  have hverdicts_ne : verdicts ≠ [] := by
    rintro rfl
    exact hmoves_ne (List.forall₂_nil_right_iff.mp hverdicts)
  refine (succeeds_pickIndex hverdicts_ne weights).bind fun pick t₆ h₆ hpick => ?_
  obtain ⟨child, hchild, hpicked⟩ := exists_picked (h₁₄.kept root moves hchildren)
    (h₁₄.map_position? hmoves) hverdicts hpick
  rw [hchild]
  refine (succeeds_evictAround depth).bind fun _ t₇ h₇ _ => .pure fun later h₈ => ⟨?_, hslice⟩
  exact hpicked.later (((h₅.trans h₆).trans h₇).trans h₈)

theorem MonteCarlo.succeeds_search [Inhabited V] (h : strategy.Able game) (hends : game.Ends)
    (hp : Holds game tree root p) (hopen : game.outcome p = .ok .undetermined)
    (hnext : game.successors p = .ok next) :
    SearchM.Succeeds game tree
      (fun later move => Picked game root p next later move.1 ∧ Records game p next move.2)
      (search strategy root) := by
  refine (succeeds_onTree (answers_ensurePlayable hends hp hopen)).bind fun _ _ hlater _ => ?_
  have hp := hp.later hlater
  refine (succeeds_iterateTimes h hends ⟨p, hp⟩ _).bind fun _ _ hlater _ => ?_
  exact h.pickMove hends (hp.later hlater) hopen hnext

theorem Player.succeeds_pickByChance (hends : game.Ends) (hp : Holds game tree root p)
    (hopen : game.outcome p = .ok .undetermined) (hnext : game.successors p = .ok next) :
    SearchM.Succeeds game tree (Picked game root p next) (pickByChance root) := by
  have hne := hends.ne_nil hp.reachable hnext hopen
  refine (succeeds_onTree (MonteCarlo.answers_ensurePlayable hends hp hopen)).bind
    fun _ t₁ h₁ _ => ?_
  have hp := hp.later h₁
  refine (succeeds_onTree (GameTree.answers_legalMoves hp.position hnext)).bind
    fun moves t₂ h₂ ⟨hmoves, hchildren⟩ => ?_
  have hp := hp.later h₂
  refine (succeeds_verdicts hends hp fun child hchild => ?_).bind fun verdicts t₃ h₃ hverdicts => ?_
  · obtain ⟨q, -, hq⟩ := hp.child hnext hmoves hchild
    exact ⟨q, hq⟩
  have hverdicts_ne : verdicts ≠ [] := by
    rintro rfl
    rw [List.forall₂_nil_right_iff.mp hverdicts] at hmoves
    exact hne (List.map_eq_nil_iff.mp hmoves.symm)
  refine (succeeds_pickIndex hverdicts_ne _).bind fun pick t₄ h₄ hpick => ?_
  obtain ⟨child, hchild, hpicked⟩ := exists_picked hchildren hmoves hverdicts hpick
  rw [hchild]
  exact .pure fun later h₅ => hpicked.later ((h₃.trans h₄).trans h₅)

end BoardGame
