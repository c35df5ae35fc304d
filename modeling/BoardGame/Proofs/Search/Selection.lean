import BoardGame.Proofs.Search.Decision
import BoardGame.Proofs.Search.Descent
/-!
# Selection reaches a leaf

The loop that selects a leaf has no counter. It ends because the nodes that it passes are
different and expanded, and a tree of a game has moves wherever the game goes on: so neither
the order in which priorities are compared nor their values can keep a search from a leaf.
Only a priority that fails can.
-/

namespace BoardGame

open Stateful SearchM
open GameTree (Coherent Grown Orderly)

variable {V : Type} {game : Game} {strategy : Strategy V} {start p : Position}
  {node root leaf c : NodeId} {path ids moves : List NodeId} {e : EngineError}

/-! ## Trees of a game -/

namespace GameTree

theorem Grown.orderly {tree : GameTree} (hstart : start.depth < maxDepth)
    (h : Grown game start tree) : Orderly game tree ∧ tree.Rooted start := by
  induction h with
  | ofPosition =>
      exact ⟨orderly_ofPosition game (Nat.le_of_lt hstart), rooted_ofPosition game start⟩
  | apply _ hop ih =>
      obtain ⟨-, hroot, -⟩ := Op.apply_spec ih.1.toCoherent ih.2 hstart hop
      exact ⟨Op.orderly ih.1 ih.2 hstart hop, hroot⟩
  | @next tree player node p _ hplayer hp ih =>
      have hspares := hplayer.inquires (inquisitive_spares game 0) tree node
      exact ⟨(hspares ih.1).1, (hplayer.next ih.1.toCoherent hp).grows.rooted ih.2⟩

/-- Trees of the game become trees of the game. -/
def StaysGrown (game : Game) (start : Position) (before after : GameTree) : Prop :=
  Grown game start before → Grown game start after

instance : IsPreorder GameTree (StaysGrown game start) where
  refl _ h := h
  trans _ _ _ hab hbc h := hbc (hab h)

theorem inquisitive_staysGrown (game : Game) (start : Position) :
    Inquisitive (StaysGrown game start) where
  legalMoves id _ h := h.apply (show Op.Counted (.legalMoves id) from trivial)
  outcome id _ h := h.apply (show Op.Counted (.outcome id) from trivial)

end GameTree

/-! ## Live nodes -/

theorem Live.child {tree : GameTree} (h : Live game tree node) (htree : Coherent game tree)
    (hids : tree.children? node = some ids) (hc : c ∈ ids) : Live game tree c := by
  obtain ⟨p, hp⟩ := h
  obtain ⟨held, hnode, hsuccessors⟩ := GameTree.children?_eq_some.mp hids
  obtain ⟨next, hnext, hmap⟩ := htree.successors node held ids hnode hsuccessors
  rw [GameTree.position_eq_of_node? hnode hp.position] at hnext
  obtain ⟨q, -, hq⟩ := hp.child hnext hmap hc
  exact ⟨q, hq⟩

variable [Inhabited V] {s before after : SearchState V}

theorem Live.idles (h : Live game before.tree node) (hidles : Idles 0 before after) :
    Live game after.tree node :=
  let ⟨p, hp⟩ := h
  ⟨p, hidles.position? node p hp.position (Nat.zero_le _), hp.reachable⟩

theorem Descends.live (h : Descends game s root path leaf) (hs : Coherent game s.tree)
    (hroot : Live game s.tree root) : Live game s.tree leaf := by
  induction h with
  | here leaf => exact hroot
  | step _ children mem _ ih => exact ih (hroot.child hs children mem)

theorem Descends.isChain (h : Descends game s root path leaf) :
    (path ++ [leaf]).IsChain fun a b => ∃ ids, s.tree.children? a = some ids ∧ b ∈ ids := by
  induction h with
  | here leaf => exact List.IsChain.singleton leaf
  | @step node child leaf path ids _ children mem rest ih =>
      cases rest with
      | here => exact List.isChain_cons_cons.mpr ⟨⟨ids, children, mem⟩, ih⟩
      | step => exact List.isChain_cons_cons.mpr ⟨⟨ids, children, mem⟩, ih⟩

theorem Descends.head? (h : Descends game s root path leaf) :
    (path ++ [leaf]).head? = some root := by
  cases h with
  | here => rfl
  | step => rfl

/-! ## Failures -/

/-- The strategy fails to say the priority of a child, at nodes that the game has come to. -/
def Strategy.Raises (game : Game) (strategy : Strategy V) (e : EngineError) : Prop :=
  ∃ (s : SearchState V) (parent child : NodeId), Coherent game s.tree ∧
    Live game s.tree parent ∧ Live game s.tree child ∧
      value (strategy.priority parent child) s = .error e

namespace MonteCarlo

theorem raises_of_bestFrom (h : strategy.Tame) (hs : Orderly game s.tree)
    (hnode : Live game s.tree node) (hmoves : ∀ child ∈ moves, Live game s.tree child)
    {best : Option (NodeId × Float)}
    (he : value (bestFrom strategy node best moves) s = .error e) : strategy.Raises game e := by
  induction moves generalizing best s with
  | nil => cases he
  | cons child rest ih =>
      obtain ⟨hchild, hrest⟩ := List.forall_mem_cons.mp hmoves
      rcases value_bind_eq_error he with ⟨hfirst, -⟩ | ⟨priority, -, hlast, -⟩
      · exact ⟨s, node, child, hs.toCoherent, hnode, hchild, hfirst⟩
      · obtain ⟨hs', hidles⟩ :=
          h.priority (Idle game 0) (permissive_idle game 0).toCurious node child s hs
        exact ih hs' (hnode.idles hidles) (fun c hc => (hrest c hc).idles hidles) hlast

theorem raises_of_bestChild (h : strategy.Tame) (hends : game.Ends) (hs : Orderly game s.tree)
    (hp : Holds game s.tree node p) (hopen : game.outcome p = .ok .undetermined)
    (he : value (bestChild strategy node) s = .error e) : strategy.Raises game e := by
  obtain ⟨next, hnext⟩ := hends.exists_successors hp.reachable
  obtain ⟨moves, after, hruns, -, -, hmoves, hchildren⟩ :=
    succeeds_onTree (GameTree.answers_legalMoves hp.position hnext) s hs.toCoherent (.refl _)
  obtain ⟨hs', hidles⟩ := (permissive_idle game 0).legalMoves node s hs
  rw [hruns.exec_eq] at hs' hidles
  have hnode : Live game after.tree node := Live.idles ⟨p, hp⟩ hidles
  have hne : moves ≠ [] := by
    rintro rfl
    exact hends.ne_nil hp.reachable hnext hopen (List.map_eq_nil_iff.mp hmoves.symm)
  have hrest := (value_bind_of_ok hruns.value_eq).symm.trans he
  rw [hruns.exec_eq] at hrest
  rcases value_bind_eq_error hrest with ⟨hbest, -⟩ | ⟨found, hfound, hlast, -⟩
  · exact raises_of_bestFrom h hs' hnode (fun c hc => hnode.child hs'.toCoherent hchildren hc) hbest
  · cases found with
    | none => exact absurd rfl (returns_bestFrom_ne_none strategy node (.inr hne) _ _ hfound)
    | some child => cases hlast

theorem raises_of_descendFrom (h : strategy.Tame) (hends : game.Ends) (hs : Orderly game s.tree)
    (hnode : Live game s.tree node) {fuel : Nat}
    (he : value (descendFrom strategy fuel node) s = .error e) : strategy.Raises game e := by
  induction fuel generalizing node s with
  | zero => cases he
  | succ fuel ih =>
      obtain ⟨p, hp⟩ := hnode
      obtain ⟨passes, after, hruns, -, -, hopen⟩ :=
        succeeds_passable hends hp s hs.toCoherent (.refl _)
      obtain ⟨hs', hidles⟩ := keeps_passable (permissive_idle game 0).toCurious node s hs
      rw [hruns.exec_eq] at hs' hidles
      have hp' := hidles.position? node p hp.position (Nat.zero_le _)
      rw [descendFrom_succ_eq, value_bind_of_ok hruns.value_eq, hruns.exec_eq] at he
      cases passes with
      | false => cases he
      | true =>
          rw [if_pos rfl] at he
          rcases value_bind_eq_error he with ⟨hbest, -⟩ | ⟨child, hchild, hrest, -⟩
          · exact raises_of_bestChild h hends hs' ⟨hp', hp.reachable⟩ (hopen rfl) hbest
          · obtain ⟨ids, hids, hmem⟩ := bestChild_spec h hs' hp' hchild
            obtain ⟨hs'', hidles'⟩ :=
              keeps_bestChild h (permissive_idle game 0).toCurious node after hs'
            have hnode : Live game after.tree node := ⟨p, hp', hp.reachable⟩
            have hlive := (hnode.idles hidles').child hs''.toCoherent hids hmem
            rcases value_bind_eq_error hrest with ⟨hway, -⟩ | ⟨way, -, hpair, -⟩
            · exact ih hs'' hlive hway
            · cases hpair

/-! ## Selection -/

/-- A descent makes no more steps than there are entries for expanded nodes, whatever its
fuel. -/
theorem length_le_of_descendFrom (h : strategy.Tame) (hs : Orderly game s.tree)
    (hp : s.tree.position? node = some p) {fuel : Nat}
    (hvalue : value (descendFrom strategy fuel node) s = .ok (path, leaf)) :
    path.length ≤ s.statistics.expandedCount := by
  obtain ⟨hs', hidles⟩ := keeps_descendFrom h (permissive_idle game 0).toCurious fuel node s hs
  exact (descendFrom_spec h hs hp hvalue).1.length_le hs' hidles.expanded

theorem runs_descendFrom (h : strategy.Tame) (hs : Orderly game s.tree)
    (hp : s.tree.position? root = some p) {fuel : Nat}
    (hfuel : s.statistics.expandedCount < fuel) :
    Runs (descendFrom strategy fuel root) s (value (descend strategy root) s)
      (exec (descend strategy root) s) := by
  have hshort : ∀ path leaf,
      value (descendFrom strategy (s.statistics.expandedCount + 1) root) s = .ok (path, leaf) →
        path.length < s.statistics.expandedCount + 1 := fun path leaf hvalue =>
    Nat.lt_succ_of_le (length_le_of_descendFrom h hs hp hvalue)
  calc (descendFrom strategy fuel root).run.run s
      = (descendFrom strategy (s.statistics.expandedCount + 1) root).run.run s :=
        run_descendFrom_of_le hshort hfuel
    _ = (descendFrom strategy (s.statistics.size + 1) root).run.run s :=
        (run_descendFrom_of_le hshort
          (Nat.succ_le_succ s.statistics.expandedCount_le_size)).symm
    _ = (value (descend strategy root) s, exec (descend strategy root) s) := rfl

/-- Where a descent from `root` has come to: the nodes that it passed, and the leaf. -/
structure Arrives (game : Game) (before after : SearchState V) (root : NodeId)
    (path : List NodeId) (leaf : NodeId) : Prop where
  length_le : path.length ≤ before.statistics.expandedCount
  nodup : (path ++ [leaf]).Nodup
  head : (path ++ [leaf]).head? = some root
  successor : (path ++ [leaf]).IsChain fun a b => ∃ ids, after.tree.children? a = some ids ∧ b ∈ ids
  passed : ∀ a ∈ path, after.Inner game a
  leaf : ∃ q, after.tree.position? leaf = some q ∧ (after.expanded leaf = false ∨
    ∃ o, game.outcome q = .ok o ∧ o.isTerminal = true)

theorem arrives_of_descend (h : strategy.Tame) (hends : game.Ends) (hs : Orderly game s.tree)
    (hp : Holds game s.tree root p)
    (hvalue : value (descend strategy root) s = .ok (path, leaf)) :
    Arrives game s (exec (descend strategy root) s) root path leaf := by
  obtain ⟨hway, hclosed⟩ := descend_spec h hs hp.position hvalue
  obtain ⟨hs', hidles⟩ := keeps_descend h (permissive_idle game 0).toCurious root s hs
  obtain ⟨q, hq⟩ := hway.live hs'.toCoherent (Live.idles ⟨p, hp⟩ hidles)
  obtain ⟨o, ho⟩ := hends.exists_outcome hq.reachable
  refine ⟨hway.length_le hs' hidles.expanded, hway.nodup hs', hway.head?, hway.isChain,
    hway.inner, q, hq.position, ?_⟩
  cases hexpanded : (exec (descend strategy root) s).expanded leaf with
  | false => exact .inl rfl
  | true =>
      refine .inr ⟨o, ho, ?_⟩
      cases o with
      | undetermined =>
          exact absurd ((SearchState.inner_iff hq.position).mpr ⟨hexpanded, ho⟩) hclosed
      | _ => rfl

/-- The selection of a leaf below `root`: its loop does not need to be stopped, it comes to a
leaf, and if not, then by the failure of a priority. -/
structure Selects (game : Game) (strategy : Strategy V) (root : NodeId) (s : SearchState V) :
    Prop where
  unlimited : ∀ fuel, s.statistics.expandedCount < fuel →
    Runs (descendFrom strategy fuel root) s (value (descend strategy root) s)
      (exec (descend strategy root) s)
  arrives : ∀ path leaf, value (descend strategy root) s = .ok (path, leaf) →
    Arrives game s (exec (descend strategy root) s) root path leaf
  fails : ∀ e, value (descend strategy root) s = .error e → strategy.Raises game e

theorem selects_of_orderly (h : strategy.Tame) (hends : game.Ends) (hs : Orderly game s.tree)
    (hp : Holds game s.tree root p) : Selects game strategy root s where
  unlimited _ hfuel := runs_descendFrom h hs hp.position hfuel
  arrives _ _ hvalue := arrives_of_descend h hends hs hp hvalue
  fails _ he := raises_of_descendFrom h hends hs ⟨p, hp⟩ he

end MonteCarlo

/-! ## The strategies of the program -/

namespace Strategy

/-- The strategies that come with the program, with any evaluator. -/
inductive Provided : {V : Type} → Strategy V → Prop where
  | vanilla (params : SearchParams) : Provided (vanilla params)
  | alphaZero (evaluator : Option Evaluator) (params : SearchParams) :
      Provided (alphaZero evaluator params)
  | dirichlet (params : SearchParams) : Provided (dirichlet params)

omit [Inhabited V] in
theorem Provided.not_raises (h : strategy.Provided) (hends : game.Ends) (e : EngineError) :
    ¬ strategy.Raises game e := by
  rintro ⟨s, parent, child, hs, hparent, hchild, he⟩
  have hsucceeds : SearchM.Succeeds game s.tree (fun _ _ => True)
      (strategy.priority parent child) := by
    cases h with
    | vanilla => exact MeanValue.succeeds_priority hends hparent hchild _
    | alphaZero => exact MeanValue.succeeds_priority hends hparent hchild _
    | dirichlet => exact Tally.succeeds_priority hends hparent hchild
  obtain ⟨value, after, hruns, -⟩ := hsucceeds s hs (.refl _)
  cases hruns.value_eq.symm.trans he

end Strategy

namespace MonteCarlo

/-- Before each iteration of a search in a position that a built-in game has come to, whatever
the statistics are and whatever the priorities: the loop that selects a leaf ends by itself after
at most as many steps as there are expanded nodes, at a leaf, by a way along the lists of
successors; only the failure of a priority keeps it from that, and no priority of the program
fails. -/
theorem iterate_selects {id : String} (hgame : Registry.builtIn.create id = .ok game)
    (hstart : start.depth < maxDepth) (htree : Grown game start s.tree)
    (hp : s.tree.position? root = some p) (hreachable : game.Reachable p) (h : strategy.Tame)
    (n : Nat) :
    Selects game strategy root (exec (iterateTimes strategy root n) s) ∧
      (strategy.Provided → ∃ path leaf,
        value (descend strategy root) (exec (iterateTimes strategy root n) s) =
          .ok (path, leaf)) := by
  have hends := Registry.ends_of_create hgame
  have hgrown : Grown game start (exec (iterateTimes strategy root n) s).tree :=
    keeps_iterateTimes h (GameTree.inquisitive_staysGrown game start) root n s htree
  obtain ⟨hs, -⟩ := hgrown.orderly hstart
  obtain ⟨-, hgrows⟩ := keeps_iterateTimes h (GameTree.inquisitive_extends game) root n s
    (htree.orderly hstart).1.toCoherent
  have hselects : Selects game strategy root (exec (iterateTimes strategy root n) s) :=
    selects_of_orderly h hends hs ⟨hgrows.position? root p hp, hreachable⟩
  refine ⟨hselects, fun hprovided => ?_⟩
  cases hvalue : value (descend strategy root) (exec (iterateTimes strategy root n) s) with
  | ok way => exact ⟨way.1, way.2, rfl⟩
  | error e => exact absurd (hselects.fails e hvalue) (hprovided.not_raises hends e)

/-- The search by rollouts selects a leaf of tic-tac-toe in each of its iterations, also where
its parameters are not numbers. -/
theorem iterate_selects_ticTacToe :
    let game : Game := ⟨BuiltIn.ticTacToe, .template⟩
    ∃ p, game.initial = .ok p ∧ ∀ (params : SearchParams) (generator : Generator) (n : Nat),
      let s := exec (iterateTimes (.vanilla params) ⟨0⟩ n)
        (⟨.ofPosition game p, .empty, generator⟩ : SearchState MeanValue)
      ∃ path leaf, value (descend (.vanilla params) ⟨0⟩) s = .ok (path, leaf) ∧
        Arrives game s (exec (descend (.vanilla params) ⟨0⟩) s) ⟨0⟩ path leaf := by
  intro game
  have hgame : Registry.builtIn.create "tictactoe" = .ok game :=
    Registry.create_eq_ok.mpr List.mem_cons_self
  have hchecked : game.initial.toOption.any (fun p => decide (p.depth = 0)) = true := by
    decide +kernel
  cases hinitial : game.initial with
  | error e =>
      rw [hinitial] at hchecked
      cases hchecked
  | ok p =>
      rw [hinitial] at hchecked
      have hdepth : p.depth = 0 := of_decide_eq_true hchecked
      refine ⟨p, rfl, fun params generator n => ?_⟩
      let opened : SearchState MeanValue := ⟨.ofPosition game p, .empty, generator⟩
      have htree : Grown game p opened.tree := .ofPosition
      obtain ⟨hselects, hreaches⟩ :=
        iterate_selects hgame (hdepth ▸ by decide : p.depth < maxDepth) htree
          (GameTree.rooted_ofPosition game p) (.initial hinitial) (Strategy.tame_vanilla params) n
      obtain ⟨path, leaf, hvalue⟩ := hreaches (.vanilla params)
      exact ⟨path, leaf, hvalue, hselects.arrives path leaf hvalue⟩

end MonteCarlo

end BoardGame
