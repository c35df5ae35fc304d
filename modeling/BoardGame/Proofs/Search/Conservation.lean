import BoardGame.Proofs.Search.Decision
import BoardGame.Proofs.Search.Searches
/-!
# Visits are conserved

Whatever the priorities, the visits of a node that a search goes past are its own first one and
those of its children. This holds after each iteration, and it survives the eviction between the
searches of a player in the course of a game.
-/

namespace BoardGame

open Stateful SearchM
open GameTree (Orderly Spares)

variable {V : Type} [Inhabited V] {game : Game} {strategy : Strategy V} {least k : Nat}
  {s : SearchState V} {root : NodeId} {p : Position}

/-! ## In play -/

/-- The states that a player which searches comes to in play: with a new tree, after a game that
is over or a search that is given up, after changes of the tree that spare the nodes from the
depth `least` on, after moves of other players, and after its own searches from roots that are
as deep at least. -/
inductive InPlay (game : Game) (strategy : Strategy V) : Nat → SearchState V → Prop where
  | opened {p : Position} (hp : p.depth ≤ maxDepth) (generator : Generator) :
      InPlay game strategy 0 ⟨.ofPosition game p, .empty, generator⟩
  | gameOver {least : Nat} {s : SearchState V} (h : InPlay game strategy least s) :
      InPlay game strategy 0 ⟨s.tree, .empty, s.generator⟩
  | abandoned {least : Nat} {s : SearchState V} (h : InPlay game strategy least s) (root : NodeId) :
      InPlay game strategy 0 ⟨(exec (MonteCarlo.search strategy root) s).tree, .empty,
        (exec (MonteCarlo.search strategy root) s).generator⟩
  | advanced {least least' : Nat} {s : SearchState V} (h : InPlay game strategy least s)
      (hle : least ≤ least') (hlast : least' ≤ maxDepth) : InPlay game strategy least' s
  | changed {least : Nat} {s : SearchState V} {op : GameTree.Op}
      (h : InPlay game strategy least s) (hop : op.DropsBefore least) :
      InPlay game strategy least ⟨op.apply s.tree, s.statistics, s.generator⟩
  | answered {least : Nat} {s : SearchState V} {player : Player} (h : InPlay game strategy least s)
      (hplayer : player.Provided) (id : NodeId) :
      InPlay game strategy least ⟨(player.next s.tree id).2.2, s.statistics, s.generator⟩
  | searched {least : Nat} {s : SearchState V} {root child : NodeId} {slice : Slice}
      {p q : Position} (h : InPlay game strategy least s)
      (hp : s.tree.position? root = some p) (hdeep : least ≤ p.depth)
      (hsearch : value (MonteCarlo.search strategy root) s = .ok (child, slice))
      (hq : (exec (MonteCarlo.search strategy root) s).tree.position? child = some q) :
      InPlay game strategy q.depth (exec (MonteCarlo.search strategy root) s)

theorem Counted.of_spares {tree : GameTree} (h : Counted game least root s)
    (hspares : Spares game least s.tree tree) :
    Counted game least root ⟨tree, s.statistics, s.generator⟩ := by
  obtain ⟨hs, hidles⟩ :=
    Idle.of_spares hspares s.statistics s.generator s.generator h.orderly
  exact h.idles hs hidles

theorem MonteCarlo.counted_search {child : NodeId} {slice : Slice} {q : Position}
    (h : strategy.Tame) (hcounted : ∀ root, Counted game least root s)
    (hp : s.tree.position? root = some p) (hdeep : least ≤ p.depth)
    (hsearch : value (search strategy root) s = .ok (child, slice))
    (hq : (exec (search strategy root) s).tree.position? child = some q) :
    q.depth ≤ maxDepth ∧ ∀ root', Counted game q.depth root' (exec (search strategy root) s) := by
  rw [search_eq] at hsearch hq ⊢
  obtain ⟨_, hiterations, hpick⟩ := value_bind_eq_ok hsearch
  rw [exec_bind_of_ok hiterations] at hq ⊢
  obtain ⟨p', hlast, hs', hp', -, hsame, -⟩ := iterations_spec h (lasting_counted game least root)
    (hcounted root) (hcounted root).orderly hiterations
  rw [hp] at hsame
  obtain rfl := Option.some.inj hsame
  obtain ⟨ready, ids, hready, hidles, hids, hmem, hexec⟩ := Strategy.pickMove_spec h hs' hp' hpick
  rw [hexec] at hq ⊢
  have hp'' := hidles.position? root p hp' (Nat.zero_le _)
  obtain ⟨q', hq', hdepth⟩ := hready.child hp'' hids hmem
  obtain rfl : q' = q := Option.some.inj (hq'.symm.trans hq)
  have hkept := hlast.idles hready (hidles.mono (Nat.zero_le least))
  have hclears := clears_evictAround ready ready.generator (hready.depth_le root p hp'') hdepth
  exact ⟨hready.depth_le child q' hq', hkept.clears hp'' hdeep hdepth hclears⟩

theorem InPlay.counted (hplay : InPlay game strategy least s) (h : strategy.Tame) :
    least ≤ maxDepth ∧ ∀ root, Counted game least root s := by
  induction hplay with
  | opened hp generator =>
      exact ⟨Nat.zero_le _, .of_empty (GameTree.orderly_ofPosition game hp) rfl 0⟩
  | @gameOver _ s _ ih =>
      exact ⟨Nat.zero_le _, .of_empty (s := ⟨s.tree, .empty, s.generator⟩) (ih.2 ⟨0⟩).orderly rfl 0⟩
  | @abandoned _ s _ root ih =>
      obtain ⟨hs, -⟩ := MonteCarlo.keeps_search h (GameTree.inquisitive_spares game 0) root s
        (ih.2 root).orderly
      exact ⟨Nat.zero_le _, .of_empty (s := ⟨_, .empty, _⟩) hs rfl 0⟩
  | advanced _ hle hlast ih => exact ⟨hlast, fun root => (ih.2 root).mono hle⟩
  | changed _ hop ih =>
      exact ⟨ih.1, fun root => (ih.2 root).of_spares (GameTree.Op.spares hop ih.1 _)⟩
  | answered _ hplayer id ih =>
      exact ⟨ih.1, fun root =>
        (ih.2 root).of_spares (hplayer.inquires (GameTree.inquisitive_spares game _) _ id)⟩
  | searched _ hp hdeep hsearch hq ih =>
      exact MonteCarlo.counted_search h ih.2 hp hdeep hsearch hq

/-! ## Conservation -/

/-- How the visits stand after `k` iterations of a search that began without statistics. -/
structure FirstVisits (game : Game) (root : NodeId) (k : Nat) (s : SearchState V) : Prop where
  total : s.visits root = k
  /-- The visits of an expanded node at which the game goes on. -/
  balance : ∀ id, s.Inner game id →
    ∃ ids, s.tree.children? id = some ids ∧ s.visits id = 1 + (ids.map s.visits).sum
  parent : ∀ id, 0 < s.visits id → id ≠ root → ∃ a ids, s.tree.children? a = some ids ∧ id ∈ ids ∧
    s.expanded a = true ∧ 0 < s.visits a
  /-- Where the game has ended no visits are passed on. -/
  terminal : ∀ id p o ids, s.tree.position? id = some p → game.outcome p = .ok o →
    o ≠ .undetermined → s.tree.children? id = some ids → ∀ c ∈ ids, c ≠ root → s.visits c = 0
  /-- The visits among which a move is picked. -/
  children : 0 < k → ∃ ids, value (onTree (GameTree.legalMoves root)) s = .ok ids ∧
    (ids.map s.visits).sum = k - 1

/-- `id` is no shallower than `root`. Depths are counted up to `maxDepth` only: there a node may
be as deep by the count as its child and is still shallower. -/
def GameTree.NoShallower (tree : GameTree) (root id : NodeId) : Prop :=
  ∃ p q, tree.position? root = some p ∧ tree.position? id = some q ∧ p.depth ≤ q.depth ∧
    ∀ ids, tree.children? id = some ids → root ∉ ids

/-- How the visits stand after some iterations of any search in play. -/
structure LaterVisits (game : Game) (root : NodeId) (n : Nat) (s : SearchState V) : Prop where
  total : s.visits root = n
  balance : ∀ id, s.Inner game id → s.tree.NoShallower root id →
    ∃ ids, s.tree.children? id = some ids ∧ s.visits id = 1 + (ids.map s.visits).sum

/-- The visits are conserved, after each number `k` of iterations that a search has come to. -/
structure Strategy.Conserves (game : Game) (strategy : Strategy V) : Prop where
  first : ∀ least s root k, InPlay game strategy least s → s.statistics = .empty →
    value (MonteCarlo.iterations strategy root k) s = .ok () →
    FirstVisits game root k (exec (MonteCarlo.iterations strategy root k) s)
  later : ∀ least s root p k, InPlay game strategy least s → s.tree.position? root = some p →
    least ≤ p.depth → value (MonteCarlo.iterations strategy root k) s = .ok () →
    LaterVisits game root (s.visits root + k) (exec (MonteCarlo.iterations strategy root k) s)

/-- Where depths are still counted, they alone say which nodes are no shallower. -/
theorem GameTree.Orderly.noShallower_iff {tree : GameTree} {id : NodeId}
    (h : Orderly game tree) (hp : tree.position? root = some p) (hlast : p.depth < maxDepth) :
    tree.NoShallower root id ↔ ∃ q, tree.position? id = some q ∧ p.depth ≤ q.depth := by
  constructor
  · rintro ⟨p', q, hp', hq, hle, -⟩
    rw [hp] at hp'
    exact ⟨q, hq, Option.some.inj hp' ▸ hle⟩
  · rintro ⟨q, hq, hle⟩
    refine ⟨p, q, hp, hq, hle, fun ids hids hmem => ?_⟩
    obtain ⟨p', hp', hdepth⟩ := h.child hq hids hmem
    rw [hp] at hp'
    obtain rfl := Option.some.inj hp'
    omega

theorem Sprung.firstVisits (h : Sprung game root s) (hp : s.tree.position? root = some p)
    (hopen : game.outcome p = .ok .undetermined) (hroot : s.visits root = k) :
    FirstVisits game root k s := by
  refine ⟨hroot, fun id hinner => h.balance hinner, fun id hvisited hne => ?_,
    fun id q o ids hq ho hterminal hids => ?_, fun hk => ?_⟩
  · obtain ⟨a, ids, hinner, hids, hmem⟩ := h.parent id hvisited hne
    obtain ⟨r, hr⟩ := SearchState.position?_of_expanded hinner.expanded
    exact ⟨a, ids, hids, hmem, hinner.expanded,
      (h.expanded_iff hr (Nat.zero_le _)).mp hinner.expanded⟩
  · refine h.quiet id q ids hq (Nat.zero_le _) hids fun hinner => hterminal ?_
    exact Except.ok.inj (ho.symm.trans ((SearchState.inner_iff hq).mp hinner).2)
  · have hexpanded := (h.expanded_iff hp (Nat.zero_le _)).mpr (hroot ▸ hk)
    obtain ⟨ids, hids, hbalance⟩ := h.balance ((SearchState.inner_iff hp).mpr ⟨hexpanded, hopen⟩)
    refine ⟨ids, (GameTree.legalMoves_of_children? hids).1, ?_⟩
    omega

theorem Strategy.Tame.conserves (h : strategy.Tame) (game : Game) : strategy.Conserves game where
  first least s root k hplay hempty hvalue := by
    have hs := ((hplay.counted h).2 root).orderly
    obtain ⟨p, hsprung, -, hp, hvisits, -, hopen⟩ := MonteCarlo.iterations_spec h
      (MonteCarlo.lasting_sprung game root) (.of_empty hs hempty root) hs hvalue
    rw [SearchState.visits_of_empty hempty, Nat.zero_add] at hvisits
    exact hsprung.firstVisits hp hopen hvisits
  later least s root p k hplay hp hdeep hvalue := by
    have hcounted := (hplay.counted h).2 root
    obtain ⟨p', hlast, -, hp', hvisits, hsame, -⟩ := MonteCarlo.iterations_spec h
      (MonteCarlo.lasting_counted game least root) hcounted hcounted.orderly hvalue
    refine ⟨hvisits, fun id hinner => ?_⟩
    rintro ⟨p'', q, hp'', hq, hle, hparent⟩
    have hroot : p'' = p := by
      rw [hp'] at hp''
      rw [hp] at hsame
      rw [← Option.some.inj hp'', ← Option.some.inj hsame]
    obtain ⟨ids, hids, hbalance⟩ :=
      hlast.balanced id q hq (Nat.le_trans hdeep (hroot ▸ hle)) hinner
    exact ⟨ids, hids, hbalance (hparent ids hids)⟩

theorem MonteCarlo.succeeds_iterations (h : strategy.Able game) (hends : game.Ends)
    {tree : GameTree} (hp : Holds game tree root p) (hopen : game.outcome p = .ok .undetermined)
    (k : Nat) : SearchM.Succeeds game tree (fun _ _ => True) (iterations strategy root k) :=
  (succeeds_onTree (answers_ensurePlayable hends hp hopen)).bind fun _ _ hlater _ =>
    succeeds_iterateTimes h hends ⟨p, hp.later hlater⟩ k

/-- Visits are conserved in every game and by every strategy that comes with the program. -/
theorem Strategy.visits_conserved (game : Game) (params : SearchParams)
    (evaluator : Option Evaluator) :
    (vanilla params).Conserves game ∧ (alphaZero evaluator params).Conserves game ∧
      (dirichlet params).Conserves game :=
  ⟨(tame_vanilla params).conserves game, (tame_alphaZero evaluator params).conserves game,
    (tame_dirichlet params).conserves game⟩

/-- A vanilla search of the empty board of tic-tac-toe comes to any number of iterations. All of
them but the first go past the root to one of its children. -/
theorem Strategy.visits_conserved_ticTacToe :
    let game : Game := ⟨BuiltIn.ticTacToe, .template⟩
    ∃ p, game.initial = .ok p ∧ ∀ (params : SearchParams) (generator : Generator) (k : Nat),
      let s : SearchState MeanValue := ⟨.ofPosition game p, .empty, generator⟩
      let search := MonteCarlo.iterations (vanilla params) ⟨0⟩ (k + 1)
      value search s = .ok () ∧ (exec search s).visits ⟨0⟩ = k + 1 ∧
        ∃ ids, value (onTree (GameTree.legalMoves ⟨0⟩)) (exec search s) = .ok ids ∧
          (ids.map (exec search s).visits).sum = k := by
  intro game
  have hgame : Registry.builtIn.create "tictactoe" = .ok game :=
    Registry.create_eq_ok.mpr List.mem_cons_self
  have hends : game.Ends := fun q hq =>
    ⟨540, by decide, Registry.endsWithin_of_reachable hgame hq⟩
  have hchecked : game.initial.toOption.any (fun p => decide (p.depth = 0 ∧
      (game.outcome p).toOption = some .undetermined)) = true := by
    decide +kernel
  cases hinitial : game.initial with
  | error e =>
      rw [hinitial] at hchecked
      cases hchecked
  | ok p =>
      rw [hinitial] at hchecked
      obtain ⟨hdepth, hopen⟩ := of_decide_eq_true hchecked
      have hopen := ok_of_toOption hopen
      have hp : p.depth ≤ maxDepth := hdepth ▸ Nat.zero_le _
      refine ⟨p, rfl, fun params generator k => ?_⟩
      intro s search
      obtain ⟨⟨⟩, after, hruns, -⟩ := MonteCarlo.succeeds_iterations (able_vanilla hends params)
        hends ⟨GameTree.rooted_ofPosition game p, .initial hinitial⟩ hopen (k + 1) s
        (GameTree.coherent_ofPosition game hp) (GameTree.Develops.refl _)
      have hvalue : value search s = .ok () := hruns.value_eq
      have hvisits := (visits_conserved game params none).1.first 0 s ⟨0⟩ (k + 1)
        (.opened hp generator) rfl hvalue
      obtain ⟨ids, hids, hsum⟩ := hvisits.children (Nat.succ_pos k)
      exact ⟨hvalue, hvisits.total, ids, hids, hsum⟩

end BoardGame
