import BoardGame.Proofs.Search.Balance
/-!
# Whole searches

Before a search picks its move it has made some iterations, each of which visits the root once.
Picking the move drops the statistics of the ply that is left and of the one before it. What
remains is in balance for the next search of the same player.
-/

namespace BoardGame

open Stateful SearchM
open GameTree (Orderly)

variable {V : Type} [Inhabited V] {game : Game} {strategy : Strategy V} {least : Nat}
  {s before after : SearchState V} {id root child : NodeId} {ids : List NodeId} {k : Nat}
  {p q : Position} {slice : Slice}

/-! ## Iterations -/

namespace MonteCarlo

theorem undetermined_of_ensurePlayable {tree : GameTree} (hs : Orderly game tree)
    (hvalue : GameTree.value (ensurePlayable root) tree = .ok ()) :
    ∃ p, tree.position? root = some p ∧ game.outcome p = .ok .undetermined := by
  obtain ⟨o, ho, hrest⟩ := value_bind_eq_ok (x := GameTree.outcome root) hvalue
  cases hnode : tree.node? root with
  | none =>
      have herror : GameTree.value (GameTree.outcome root) tree = _ :=
        GameTree.value_bind_of_error (GameTree.value_node_of_none hnode)
      cases herror.symm.trans ho
  | some node =>
      have hp := GameTree.position?_eq_some.mpr ⟨node, hnode, rfl⟩
      refine ⟨node.position, hp, ?_⟩
      rw [← (GameTree.yields_outcome tree hs.toCoherent hp).1]
      cases o with
      | undetermined => exact ho
      | _ => cases hrest

/-- A search up to the picking of its move, with `k` iterations. -/
def iterations (strategy : Strategy V) (root : NodeId) (k : Nat) : SearchM V Unit := do
  ensurePlayable root
  iterateTimes strategy root k

/-- A search picks its move after as many iterations as its parameters say, but one at least. -/
theorem search_eq (strategy : Strategy V) (root : NodeId) : search strategy root =
    iterations strategy root (max strategy.params.iterations 1) >>= fun _ =>
      strategy.pickMove root := by
  unfold search iterations
  rw [bind_assoc]

theorem keeps_iterations {T : GameTree → GameTree → Prop} [IsPreorder GameTree T]
    (h : strategy.Tame) (hT : GameTree.Inquisitive T) (root : NodeId) (k : Nat) :
    Keeps (OnTrees T) (iterations strategy root k) :=
  (keeps_ensurePlayable (permissive_onTrees hT).toCurious root).bind fun _ =>
    keeps_iterateTimes h hT root k

/-- `P` is kept by what counts nothing and by every pass from the root. -/
structure Lasting (game : Game) (root : NodeId) (P : SearchState V → Prop) : Prop where
  idles : ∀ before after, P before → Orderly game after.tree → Idles 0 before after → P after
  pass : ∀ path leaf before after, P before → Pass game root path leaf before after → P after

theorem lasting_counted (game : Game) (least : Nat) (root : NodeId) :
    Lasting game root (Counted (V := V) game least root) where
  idles _ _ h hs hidles := h.idles hs (hidles.mono (Nat.zero_le least))
  pass _ _ _ _ h hpass := hpass.counted h

theorem lasting_sprung (game : Game) (root : NodeId) :
    Lasting game root (Sprung (V := V) game root) where
  idles _ _ h hs hidles := h.idles hs hidles
  pass _ _ _ _ h hpass := h.pass hpass

theorem iterateTimes_spec {P : SearchState V → Prop} (h : strategy.Tame)
    (hP : Lasting game root P) (hstart : P s) (hs : Orderly game s.tree)
    (hp : s.tree.position? root = some p)
    (hvalue : value (iterateTimes strategy root k) s = .ok ()) :
    P (exec (iterateTimes strategy root k) s) ∧
      Orderly game (exec (iterateTimes strategy root k) s).tree ∧
      (exec (iterateTimes strategy root k) s).tree.position? root = some p ∧
      (exec (iterateTimes strategy root k) s).visits root = s.visits root + k := by
  induction k generalizing s with
  | zero => exact ⟨hstart, hs, hp, rfl⟩
  | succ k ih =>
      obtain ⟨_, hfirst, hrest⟩ := value_bind_eq_ok hvalue
      obtain ⟨ready, path, leaf, hidles, hpass⟩ := iterate_spec h hs hp hfirst
      have hready := hidles.position? root p hp (Nat.zero_le _)
      have hvisits := hpass.visits_root hready
      rw [hidles.visits_eq hp (Nat.zero_le _)] at hvisits
      have htree := hpass.counts.tree
      have hcount := hP.pass path leaf ready _ (hP.idles s ready hstart hpass.orderly hidles) hpass
      obtain ⟨hlast, hs', hp', hvisits'⟩ :=
        ih hcount (htree ▸ hpass.orderly) (htree ▸ hready) hrest
      have hexec : exec (iterateTimes strategy root (k + 1)) s = _ := exec_bind_of_ok hfirst
      rw [hexec]
      refine ⟨hlast, hs', hp', ?_⟩
      rw [hvisits', hvisits]
      omega

theorem iterations_spec {P : SearchState V → Prop} (h : strategy.Tame)
    (hP : Lasting game root P) (hstart : P s) (hs : Orderly game s.tree)
    (hvalue : value (iterations strategy root k) s = .ok ()) :
    ∃ p, P (exec (iterations strategy root k) s) ∧
      Orderly game (exec (iterations strategy root k) s).tree ∧
      (exec (iterations strategy root k) s).tree.position? root = some p ∧
      (exec (iterations strategy root k) s).visits root = s.visits root + k ∧
      s.tree.position? root = some p ∧ game.outcome p = .ok .undetermined := by
  obtain ⟨_, hplayable, hrest⟩ := value_bind_eq_ok hvalue
  obtain ⟨p, hp, hopen⟩ := undetermined_of_ensurePlayable hs hplayable
  obtain ⟨hs', hidles⟩ := keeps_ensurePlayable (permissive_idle game 0).toCurious root s hs
  obtain ⟨hlast, hs'', hp', hvisits⟩ := iterateTimes_spec h hP
    (hP.idles s _ hstart hs' hidles) hs' (hidles.position? root p hp (Nat.zero_le _)) hrest
  rw [hidles.visits_eq hp (Nat.zero_le _)] at hvisits
  have hexec : exec (iterations strategy root k) s = _ := exec_bind_of_ok hplayable
  rw [hexec]
  exact ⟨p, hlast, hs'', hp', hvisits, hp, hopen⟩

end MonteCarlo

/-! ## Picking -/

/-- Picking counts nothing. At last the ply that is left is dropped from the statistics. -/
theorem Strategy.pickMove_spec (h : strategy.Tame) (hs : Orderly game s.tree)
    (hp : s.tree.position? root = some p)
    (hvalue : value (strategy.pickMove root) s = .ok (child, slice)) :
    ∃ ready ids, Orderly game ready.tree ∧ Idles 0 s ready ∧
      ready.tree.children? root = some ids ∧ child ∈ ids ∧
      exec (strategy.pickMove root) s =
        ⟨ready.tree, ready.statistics.evictAround p.depth, ready.generator⟩ := by
  have hidle := permissive_idle (V := V) game 0
  rw [pickMove_eq] at hvalue ⊢
  obtain ⟨moves, hmoves, hpick⟩ := value_bind_eq_ok hvalue
  rw [exec_bind_of_ok hmoves]
  have hlisted := GameTree.children?_legalMoves hs.arena hmoves
  obtain ⟨hs', hidles⟩ := hidle.legalMoves root s hs
  have hp' := hidles.position? root p hp (Nat.zero_le _)
  change (exec (onTree (GameTree.legalMoves root)) s).tree.children? root = some moves at hlisted
  generalize exec (onTree (GameTree.legalMoves root)) s = s' at *
  obtain ⟨depth, hdepth, hdraw, hexec⟩ := pickFrom_spec hpick
  obtain rfl := Except.ok.inj ((runs_depth hp').value_eq.symm.trans hdepth)
  obtain ⟨hready, hidles'⟩ := keeps_drawFrom h hidle.toCurious p.depth root moves s' hs'
  refine ⟨_, moves, hready, ?_, ?_, ?_, hexec⟩
  · exact (trans_of (Idle game 0) (fun _ => ⟨hs', hidles⟩) (fun _ => ⟨hready, hidles'⟩) hs).2
  · exact hidles'.children? root p moves hp' (Nat.zero_le _) hlisted
  · exact returns_pickFrom strategy root moves s' _ hpick

/-! ## Dropping statistics -/

/-- The tree stays as it is. From the depth `least` on only the statistics of the depth `gone`
change, and they are dropped. -/
structure Clears (least gone : Nat) (before after : SearchState V) : Prop where
  tree : after.tree = before.tree
  read : ∀ d id, least ≤ d → after.statistics.read d id =
    if d = gone then Statistics.fresh else before.statistics.read d id

namespace Clears

variable {gone : Nat} (h : Clears least gone before after)
  (hp : before.tree.position? id = some p) (hdeep : least ≤ p.depth)

include h hp hdeep

theorem visits_eq : after.visits id = if p.depth = gone then 0 else before.visits id := by
  rw [SearchState.visits_eq (h.tree ▸ hp), SearchState.visits_eq hp, h.read _ _ hdeep]
  exact apply_ite Stat.visits _ _ _

theorem inner_iff : after.Inner game id ↔ p.depth ≠ gone ∧ before.Inner game id := by
  rw [SearchState.inner_iff (h.tree ▸ hp), SearchState.inner_iff hp,
    SearchState.expanded_eq (h.tree ▸ hp), SearchState.expanded_eq hp, h.read _ _ hdeep]
  by_cases hgone : p.depth = gone
  · rw [if_pos hgone]
    constructor
    · rintro ⟨hexpanded, -⟩
      cases hexpanded
    · rintro ⟨hkept, -⟩
      exact absurd hgone hkept
  · rw [if_neg hgone]
    exact (and_iff_right hgone).symm

end Clears

/-- Dropping the statistics of a ply and of the one before it leaves those of its children, unless
depths are counted no further. -/
theorem clears_evictAround (s : SearchState V) (generator : Generator)
    (hlast : p.depth ≤ maxDepth) (hq : q.depth = min (p.depth + 1) maxDepth) :
    Clears q.depth p.depth s ⟨s.tree, s.statistics.evictAround p.depth, generator⟩ := by
  refine ⟨rfl, fun d id hd => ?_⟩
  rw [Statistics.read_evictAround]
  exact if_congr (by omega) rfl rfl

/-- What is left of the statistics once the ply of the root has been dropped is in balance from
the next ply on, wherever the next visits are made. -/
theorem Counted.clears (h : Counted game least root before)
    (hp : before.tree.position? root = some p) (hdeep : least ≤ p.depth)
    (hq : q.depth = min (p.depth + 1) maxDepth) (hclears : Clears q.depth p.depth before after)
    (root' : NodeId) : Counted game q.depth root' after := by
  have hle := h.orderly.depth_le root p hp
  have htree := hclears.tree
  refine ⟨htree ▸ h.orderly, fun d id hd hvisited => ?_, fun d id hd => ?_,
    fun id r hr hd hopen => ?_, fun id r ids hr hd hids hclosed c hc _ => ?_⟩
  · rw [hclears.read d id hd] at hvisited
    rw [htree]
    by_cases hgone : d = p.depth
    · rw [if_pos hgone] at hvisited
      cases hvisited
    · rw [if_neg hgone] at hvisited
      exact h.live d id (by omega) hvisited
  · rw [hclears.read d id hd]
    by_cases hgone : d = p.depth
    · rw [if_pos hgone]
      exact ⟨nofun, nofun⟩
    · rw [if_neg hgone]
      exact h.expanded d id (by omega)
  · rw [htree] at hr ⊢
    obtain ⟨hkept, hopen⟩ := (hclears.inner_iff hr hd).mp hopen
    obtain ⟨ids, hids, hbalance⟩ := h.balanced id r hr (by omega) hopen
    -- inner nodes that are left are deeper than the root of the search, so it is no child of theirs
    have hroot : root ∉ ids := by
      intro hmem
      obtain ⟨r', hr', hle'⟩ := h.orderly.child_deep hr hids hmem
      rw [hp] at hr'
      rw [← Option.some.inj hr'] at hle'
      omega
    refine ⟨ids, hids, fun _ => ?_⟩
    rw [hclears.visits_eq hr hd, if_neg hkept, hbalance hroot]
    refine congrArg (fun visits => 1 + visits.sum) (List.map_congr_left fun c hc => ?_)
    obtain ⟨r', hr', hle'⟩ := h.orderly.child_deep hr hids hc
    rw [hclears.visits_eq hr' (by omega), if_neg (by omega)]
  · rw [htree] at hr hids
    obtain ⟨r', hr', hle'⟩ := h.orderly.child_deep hr hids hc
    rw [hclears.visits_eq hr' (by omega)]
    by_cases hgone : r'.depth = p.depth
    · rw [if_pos hgone]
    rw [if_neg hgone]
    have hlast := h.orderly.depth_le c r' hr'
    refine h.quiet id r ids hr (by omega) hids (fun hopen => ?_) c hc fun heq => ?_
    · exact hclosed ((hclears.inner_iff hr hd).mpr ⟨by omega, hopen⟩)
    · rw [heq, hp] at hr'
      exact hgone (congrArg Position.depth (Option.some.inj hr')).symm

end BoardGame
