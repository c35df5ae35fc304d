import Mathlib.Algebra.Ring.Nat
import BoardGame.Proofs.Search.Visits
/-!
# The way to a leaf

An iteration goes down from the root along the children that its priorities choose, through
nodes that are expanded and at which the game goes on. Whatever the priorities, each node of the
way but the root is a child of the one before it, and the way ends only where it has to.
-/

namespace BoardGame

open Stateful SearchM
open GameTree (Orderly)

variable {V : Type} [Inhabited V] {game : Game} {strategy : Strategy V} {least : Nat}
  {s before after : SearchState V} {id node child root leaf c : NodeId} {ids path : List NodeId}
  {p : Position}

/-! ## Idle changes -/

namespace Idles

variable (h : Idles least before after) (hp : before.tree.position? id = some p)
  (hdeep : least ≤ p.depth)

include h hp hdeep

theorem visits_eq : after.visits id = before.visits id := by
  rw [SearchState.visits_eq hp, SearchState.visits_eq (h.position? id p hp hdeep), h.visits]

theorem inner_iff : after.Inner game id ↔ before.Inner game id := by
  have hp' := h.position? id p hp hdeep
  rw [SearchState.inner_iff hp', SearchState.inner_iff hp, SearchState.expanded_eq hp',
    SearchState.expanded_eq hp, h.expanded]

end Idles

/-! ## Ways -/

/-- A way from a node to a leaf: the nodes that are passed are inner ones, and each is followed
by one of its children. -/
inductive Descends (game : Game) (s : SearchState V) : NodeId → List NodeId → NodeId → Prop where
  | here (leaf : NodeId) : Descends game s leaf [] leaf
  | step {node child leaf : NodeId} {path ids : List NodeId} (inner : s.Inner game node)
      (children : s.tree.children? node = some ids) (mem : child ∈ ids)
      (rest : Descends game s child path leaf) : Descends game s node (node :: path) leaf

theorem sum_count_cons (a : NodeId) (l ids : List NodeId) :
    (ids.map fun c => (a :: l).count c).sum = (ids.map fun c => l.count c).sum + ids.count a := by
  induction ids with
  | nil => rfl
  | cons c ids ih =>
      rw [List.map_cons, List.sum_cons, ih, List.map_cons, List.sum_cons, List.count_cons,
        List.count_cons, BEq.comm]
      omega

theorem GameTree.Orderly.child_deep {tree : GameTree} (h : Orderly game tree)
    (hp : tree.position? id = some p) (hids : tree.children? id = some ids) (hc : c ∈ ids) :
    ∃ q, tree.position? c = some q ∧ p.depth ≤ q.depth := by
  obtain ⟨q, hq, hdepth⟩ := h.child hp hids hc
  have hle := h.depth_le id p hp
  exact ⟨q, hq, by omega⟩

namespace Descends

theorem inner (h : Descends game s root path leaf) : ∀ a ∈ path, s.Inner game a := by
  induction h with
  | here leaf => simp
  | step inner _ _ _ ih => exact List.forall_mem_cons.mpr ⟨inner, ih⟩

theorem root_mem (h : Descends game s root path leaf) : root ∈ path ++ [leaf] := by
  cases h with
  | here => exact List.mem_singleton_self root
  | step => exact List.mem_cons_self

theorem deep (h : Descends game s root path leaf) (hs : Orderly game s.tree)
    (hp : s.tree.position? root = some p) :
    ∀ a ∈ path ++ [leaf], ∃ q, s.tree.position? a = some q ∧ p.depth ≤ q.depth := by
  induction h generalizing p with
  | here leaf => exact List.forall_mem_singleton.mpr ⟨p, hp, Nat.le_refl _⟩
  | step _ children mem _ ih =>
      obtain ⟨q, hq, hle⟩ := hs.child_deep hp children mem
      refine List.forall_mem_cons.mpr ⟨⟨p, hp, Nat.le_refl _⟩, fun a ha => ?_⟩
      obtain ⟨r, hr, hle'⟩ := ih hq a ha
      exact ⟨r, hr, Nat.le_trans hle hle'⟩

theorem rank_le (h : Descends game s root path leaf) {rank : NodeId → Nat}
    (hrank : ∀ id ids, s.tree.children? id = some ids → ∀ c ∈ ids, rank id < rank c) :
    ∀ a ∈ path ++ [leaf], rank root ≤ rank a := by
  induction h with
  | here leaf => exact List.forall_mem_singleton.mpr (Nat.le_refl _)
  | step _ children mem _ ih =>
      refine List.forall_mem_cons.mpr ⟨Nat.le_refl _, fun a ha => ?_⟩
      exact Nat.le_trans (Nat.le_of_lt (hrank _ _ children _ mem)) (ih a ha)

theorem nodup (h : Descends game s root path leaf) (hs : Orderly game s.tree) :
    (path ++ [leaf]).Nodup := by
  obtain ⟨rank, hrank⟩ := hs.ranked
  induction h with
  | here leaf => exact List.nodup_singleton leaf
  | step _ children mem rest ih =>
      refine List.nodup_cons.mpr ⟨fun hagain => ?_, ih⟩
      have hlt := hrank _ _ children _ mem
      exact Nat.not_le_of_lt hlt (rest.rank_le hrank _ hagain)

theorem exists_parent (h : Descends game s root path leaf) (hc : c ∈ path ++ [leaf])
    (hne : c ≠ root) : ∃ a ∈ path, ∃ ids, s.tree.children? a = some ids ∧ c ∈ ids := by
  induction h with
  | here leaf => exact absurd (List.mem_singleton.mp hc) hne
  | @step node child leaf path ids _ children mem _ ih =>
      rcases List.mem_cons.mp hc with rfl | hc
      · exact absurd rfl hne
      by_cases hchild : c = child
      · exact ⟨node, List.mem_cons_self, ids, children, hchild ▸ mem⟩
      · obtain ⟨a, ha, hparent⟩ := ih hc hchild
        exact ⟨a, List.mem_cons_of_mem node ha, hparent⟩

/-- A way meets the children of a node as often as it goes past the node, and once more if it
starts at one of them. -/
theorem sum_count (h : Descends game s root path leaf) (hs : Orderly game s.tree)
    (hids : s.tree.children? id = some ids) :
    (ids.map fun c => (path ++ [leaf]).count c).sum = path.count id + ids.count root := by
  have hnodup := hs.nodup id ids hids
  induction h with
  | here leaf =>
      rw [List.nil_append, sum_count_cons, List.count_nil, Nat.zero_add]
      simp
  | @step node child leaf path as _ children mem _ ih =>
      -- the next node is a child of `id` just where `id` is passed
      have hnext : ids.count child = if node == id then 1 else 0 := by
        by_cases hnode : node = id
        · subst hnode
          rw [hids] at children
          obtain rfl := Option.some.inj children
          rw [if_pos (beq_self_eq_true _), List.count_eq_one_of_mem hnodup mem]
        · rw [if_neg (by simpa using hnode), List.count_eq_zero]
          exact fun hmem => hnode (hs.apart node id child as ids children hids mem hmem)
      rw [List.cons_append, sum_count_cons, ih, hnext, List.count_cons]

theorem idles (h : Descends game before root path leaf) (hs : Orderly game before.tree)
    (hidles : Idles least before after) (hp : before.tree.position? root = some p)
    (hdeep : least ≤ p.depth) : Descends game after root path leaf := by
  induction h generalizing p with
  | here leaf => exact .here leaf
  | step inner children mem _ ih =>
      obtain ⟨q, hq, hle⟩ := hs.child_deep hp children mem
      exact .step ((hidles.inner_iff hp hdeep).mpr inner)
        (hidles.children? _ _ _ hp hdeep children) mem (ih hq (Nat.le_trans hdeep hle))

/-- Statistics with the same expanded nodes have an entry for each node that is passed. -/
theorem length_le (h : Descends game s root path leaf) (hs : Orderly game s.tree)
    {statistics : Statistics V} (hsame : ∀ d id,
      (s.statistics.read d id).expanded = (statistics.read d id).expanded) :
    path.length ≤ statistics.expandedCount := by
  let depth : NodeId → Nat := fun a => (s.tree.position? a).elim 0 (·.depth)
  have hnodup : (path.map fun a => (depth a, a)).Nodup :=
    (List.nodup_append.mp (h.nodup hs)).1.map fun _ _ heq => (Prod.mk.inj heq).2
  have hle := statistics.length_le_expandedCount hnodup fun key hkey => by
    obtain ⟨a, ha, rfl⟩ := List.mem_map.mp hkey
    have hinner := h.inner a ha
    obtain ⟨p, hp⟩ := SearchState.position?_of_expanded hinner.expanded
    have hdepth : depth a = p.depth := by
      dsimp only [depth]
      rw [hp]
      rfl
    rw [hdepth, ← hsame, ← SearchState.expanded_eq hp]
    exact hinner.expanded
  rwa [List.length_map] at hle

end Descends

/-! ## Descents -/

namespace MonteCarlo

theorem passable_spec (hs : Orderly game s.tree) (hp : s.tree.position? id = some p) {b : Bool}
    (hvalue : value (passable id) s = .ok b) : b = true ↔ s.Inner game id := by
  have hexpanded : Runs (Strategy.expanded id) s (.ok (s.expanded id)) s :=
    (runs_stat hp).bind rfl
  unfold passable at hvalue
  rw [value_bind_of_ok hexpanded.value_eq, hexpanded.exec_eq] at hvalue
  cases hopen : s.expanded id with
  | false =>
      rw [hopen] at hvalue
      obtain rfl := Except.ok.inj hvalue
      refine ⟨nofun, fun hinner => ?_⟩
      rw [hinner.expanded] at hopen
      cases hopen
  | true =>
      rw [hopen] at hvalue
      obtain ⟨o, ho, hb⟩ := value_bind_eq_ok hvalue
      obtain rfl := Except.ok.inj hb
      have houtcome : game.outcome p = .ok o :=
        (GameTree.yields_outcome s.tree hs.toCoherent hp).1.symm.trans ho
      rw [SearchState.inner_iff hp, and_iff_right hopen, houtcome]
      cases o <;> simp [Outcome.isTerminal]

omit [Inhabited V] in
theorem returns_bestFrom (strategy : Strategy V) (parent : NodeId)
    (best : Option (NodeId × Float)) (moves : List NodeId) :
    Returns (fun found => ∀ c ∈ found, c ∈ best.map (·.1) ∨ c ∈ moves)
      (bestFrom strategy parent best moves) := by
  induction moves generalizing best with
  | nil => exact .pure fun c hc => .inl hc
  | cons child rest ih =>
      obtain ⟨better, hbetter, heq⟩ := exists_bestFrom_cons strategy parent child best rest
      rw [heq]
      refine .bind fun priority s found hfound c hc => ?_
      rcases ih _ s found hfound c hc with hbest | hrest
      · obtain rfl := Option.some.inj hbest
        rcases hbetter priority with hfirst | hkept
        · rw [hfirst]
          exact .inr List.mem_cons_self
        · rw [hkept]
          exact .inl rfl
      · exact .inr (List.mem_cons_of_mem child hrest)

omit [Inhabited V] in
/-- The first of some moves is not passed over, however its priority compares. -/
theorem returns_bestFrom_ne_none (strategy : Strategy V) (parent : NodeId)
    {best : Option (NodeId × Float)} {moves : List NodeId} (h : best ≠ none ∨ moves ≠ []) :
    Returns (· ≠ none) (bestFrom strategy parent best moves) := by
  induction moves generalizing best with
  | nil =>
      refine .pure ?_
      rw [Ne, Option.map_eq_none_iff]
      exact h.resolve_right (absurd rfl)
  | cons child rest ih =>
      obtain ⟨better, -, heq⟩ := exists_bestFrom_cons strategy parent child best rest
      rw [heq]
      exact .bind fun priority => ih (.inl (Option.some_ne_none _))

theorem bestChild_spec (h : strategy.Tame) (hs : Orderly game s.tree)
    (hp : s.tree.position? node = some p)
    (hvalue : value (bestChild strategy node) s = .ok child) :
    ∃ ids, (exec (bestChild strategy node) s).tree.children? node = some ids ∧ child ∈ ids := by
  obtain ⟨moves, hmoves, hrest⟩ := value_bind_eq_ok hvalue
  obtain ⟨found, hfound, hchild⟩ := value_bind_eq_ok hrest
  have hchild : found = some child := by
    cases found with
    | none => cases hchild
    | some best => exact congrArg some (Except.ok.inj hchild)
  subst hchild
  obtain ⟨hlisted, hidles⟩ := (permissive_idle game 0).legalMoves node s hs
  have hp := hidles.position? node p hp (Nat.zero_le _)
  have hmoves' := GameTree.children?_legalMoves hs.arena hmoves
  obtain ⟨-, hidles'⟩ :=
    keeps_bestFrom h (permissive_idle game 0).toCurious node none moves _ hlisted
  refine ⟨moves, ?_, ?_⟩
  · unfold bestChild
    rw [exec_bind_of_ok hmoves, exec_bind_of_ok hfound]
    exact hidles'.children? node p moves hp (Nat.zero_le _) hmoves'
  · exact (returns_bestFrom strategy node none moves _ _ hfound child rfl).resolve_left nofun

theorem descendFrom_spec (h : strategy.Tame) (hs : Orderly game s.tree)
    (hp : s.tree.position? node = some p) {fuel : Nat}
    (hvalue : value (descendFrom strategy fuel node) s = .ok (path, leaf)) :
    Descends game (exec (descendFrom strategy fuel node) s) node path leaf ∧
      ((exec (descendFrom strategy fuel node) s).Inner game leaf → path.length = fuel) := by
  have hzero : 0 ≤ p.depth := Nat.zero_le _
  -- on the fuel; asking changes no statistics, so what is an inner node at one step stays one
  induction fuel generalizing node s p path with
  | zero =>
      obtain ⟨rfl, rfl⟩ := Prod.mk.inj (Except.ok.inj hvalue)
      exact ⟨.here node, fun _ => rfl⟩
  | succ fuel ih =>
      obtain ⟨b, hb, hrest⟩ := value_bind_eq_ok hvalue
      obtain ⟨hs', hidles⟩ := keeps_passable (permissive_idle game 0).toCurious node s hs
      have hp' := hidles.position? node p hp hzero
      have hpassable := (passable_spec hs hp hb).trans (hidles.inner_iff hp hzero).symm
      unfold descendFrom
      rw [exec_bind_of_ok hb]
      generalize exec (passable node) s = s' at hrest hs' hidles hp' hpassable
      cases b with
      | false =>
          obtain ⟨rfl, rfl⟩ := Prod.mk.inj (Except.ok.inj hrest)
          exact ⟨.here node, fun hinner => absurd (hpassable.mpr hinner) nofun⟩
      | true =>
          obtain ⟨child, hchild, hrest⟩ := value_bind_eq_ok hrest
          obtain ⟨⟨path', leaf'⟩, hway, hpair⟩ := value_bind_eq_ok hrest
          obtain ⟨rfl, rfl⟩ := Prod.mk.inj (Except.ok.inj hpair)
          obtain ⟨ids, hids, hmem⟩ := bestChild_spec h hs' hp' hchild
          obtain ⟨hs'', hidles'⟩ := keeps_bestChild h (permissive_idle game 0).toCurious node s' hs'
          have hp'' := hidles'.position? node p hp' hzero
          obtain ⟨q, hq, -⟩ := hs''.child hp'' hids hmem
          obtain ⟨hdescends, hlength⟩ := ih hs'' hq hway (Nat.zero_le _)
          obtain ⟨-, hidles''⟩ :=
            keeps_descendFrom h (permissive_idle game 0).toCurious fuel child _ hs''
          rw [if_pos rfl, exec_bind_of_ok hchild, exec_bind_of_ok hway]
          refine ⟨show Descends game (exec (descendFrom strategy fuel child) _) _ _ _ from
            .step ?_ ?_ hmem hdescends, fun hinner => congrArg (· + 1) (hlength hinner)⟩
          · rw [hidles''.inner_iff hp'' hzero, hidles'.inner_iff hp' hzero]
            exact hpassable.mp rfl
          · exact hidles''.children? node p ids hp'' hzero hids

theorem descend_spec (h : strategy.Tame) (hs : Orderly game s.tree)
    (hp : s.tree.position? root = some p)
    (hvalue : value (descend strategy root) s = .ok (path, leaf)) :
    Descends game (exec (descend strategy root) s) root path leaf ∧
      ¬ (exec (descend strategy root) s).Inner game leaf := by
  obtain ⟨hdescends, hlength⟩ := descendFrom_spec h hs hp hvalue
  refine ⟨hdescends, fun hinner => ?_⟩
  obtain ⟨hafter, hidles⟩ := keeps_descend h (permissive_idle game 0).toCurious root s hs
  have hle := hdescends.length_le hafter hidles.expanded
  rw [hlength hinner] at hle
  exact Nat.not_succ_le_self _ (Nat.le_trans hle s.statistics.expandedCount_le_size)

/-! ## Descents without a limit -/

theorem descendFrom_succ_eq (strategy : Strategy V) (fuel : Nat) (node : NodeId) :
    descendFrom strategy (fuel + 1) node = passable node >>= fun passes =>
      if passes then bestChild strategy node >>= fun child =>
        descendFrom strategy fuel child >>= fun way => pure (node :: way.1, way.2)
      else pure ([], node) := rfl

/-- A descent that does not use up its fuel makes the same run with more. -/
theorem run_descendFrom_succ {fuel : Nat}
    (h : ∀ path leaf, value (descendFrom strategy fuel node) s = .ok (path, leaf) →
      path.length < fuel) :
    (descendFrom strategy (fuel + 1) node).run.run s =
      (descendFrom strategy fuel node).run.run s := by
  induction fuel generalizing node s with
  | zero => exact absurd (h [] node rfl) (Nat.lt_irrefl 0)
  | succ fuel ih =>
      rw [descendFrom_succ_eq, descendFrom_succ_eq]
      refine run_bind_congr fun passes hpasses => ?_
      cases passes with
      | false => rfl
      | true =>
          rw [if_pos rfl, if_pos rfl]
          refine run_bind_congr fun child hchild => run_bind_of_run_eq (ih fun path leaf hway => ?_)
          have hlonger : value (descendFrom strategy (fuel + 1) node) s =
              .ok (node :: path, leaf) := by
            rw [descendFrom_succ_eq, value_bind_of_ok hpasses, if_pos rfl,
              value_bind_of_ok hchild, value_bind_of_ok hway]
            rfl
          exact Nat.succ_lt_succ_iff.mp (h _ _ hlonger)

theorem run_descendFrom_of_le {fuel more : Nat}
    (h : ∀ path leaf, value (descendFrom strategy fuel node) s = .ok (path, leaf) →
      path.length < fuel) (hle : fuel ≤ more) :
    (descendFrom strategy more node).run.run s = (descendFrom strategy fuel node).run.run s := by
  induction more, hle using Nat.le_induction with
  | base => rfl
  | succ more hle ih =>
      rw [← ih]
      refine run_descendFrom_succ fun path leaf hway => ?_
      have hvalue : value (descendFrom strategy more node) s =
          value (descendFrom strategy fuel node) s := congrArg Prod.fst ih
      exact Nat.lt_of_lt_of_le (h path leaf (hvalue ▸ hway)) hle

end MonteCarlo

end BoardGame
