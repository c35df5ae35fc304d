import BoardGame.Proofs.Search.Descent
/-!
# What an iteration counts

An iteration looks for a way and makes its leaf ready without counting anything. Then it counts:
the leaf becomes expanded, and each node of the way is visited once more.
-/

namespace BoardGame

open Stateful SearchM
open GameTree (Orderly)

variable {V : Type} [Inhabited V] {game : Game} {strategy : Strategy V}
  {s before after : SearchState V} {id node root leaf : NodeId}
  {path passed opened : List NodeId} {p : Position}

/-! ## Counting -/

/-- The nodes of `passed` are visited once more for each time they are listed, those of `opened`
become expanded, and the tree stays as it is. -/
structure Counts (passed opened : List NodeId) (before after : SearchState V) : Prop where
  tree : after.tree = before.tree
  visits : ∀ id p, before.tree.position? id = some p →
    (after.statistics.read p.depth id).visits =
      (before.statistics.read p.depth id).visits + passed.count id
  expanded : ∀ id p, before.tree.position? id = some p →
    ((after.statistics.read p.depth id).expanded = true ↔
      (before.statistics.read p.depth id).expanded = true ∨ id ∈ opened)
  other : ∀ d id, (∀ p, before.tree.position? id = some p → p.depth ≠ d) →
    after.statistics.read d id = before.statistics.read d id

namespace Counts

theorem nil (s : SearchState V) : Counts [] [] s s :=
  ⟨rfl, fun _ _ _ => rfl, fun id p _ => by simp, fun _ _ _ => rfl⟩

theorem append {later : SearchState V} {passed' opened' : List NodeId}
    (h : Counts passed opened before after) (h' : Counts passed' opened' after later) :
    Counts (passed ++ passed') (opened ++ opened') before later where
  tree := h'.tree.trans h.tree
  visits id p hp := by
    rw [h'.visits id p (h.tree ▸ hp), h.visits id p hp, List.count_append, Nat.add_assoc]
  expanded id p hp := by
    rw [h'.expanded id p (h.tree ▸ hp), h.expanded id p hp, List.mem_append, or_assoc]
  other d id hother :=
    (h'.other d id (h.tree ▸ hother)).trans (h.other d id hother)

theorem perm {passed' : List NodeId} (h : Counts passed opened before after)
    (hperm : passed.Perm passed') : Counts passed' opened before after where
  tree := h.tree
  visits id p hp := by
    rw [h.visits id p hp, hperm.count_eq]
  expanded := h.expanded
  other := h.other

theorem of_modify (hp : s.tree.position? id = some p) {change : Stat V → Stat V}
    (hvisits : ∀ stat, (change stat).visits = stat.visits + 1)
    (hexpanded : ∀ stat, (change stat).expanded = true ↔ stat.expanded = true ∨ id ∈ opened)
    (hopened : ∀ a ∈ opened, a = id) :
    Counts [id] opened s
      ⟨s.tree, s.statistics.modify p.depth id change, s.generator⟩ where
  tree := rfl
  visits a q hq := by
    rw [Statistics.read_modify, List.count_singleton]
    by_cases ha : a = id
    · subst ha
      rw [hp] at hq
      rw [Option.some.inj hq, if_pos ⟨rfl, rfl⟩, hvisits, if_pos (beq_self_eq_true _)]
    · rw [if_neg fun h => ha h.2, if_neg fun h => ha (eq_of_beq h).symm, Nat.add_zero]
  expanded a q hq := by
    rw [Statistics.read_modify]
    by_cases ha : a = id
    · subst ha
      rw [hp] at hq
      rw [Option.some.inj hq, if_pos ⟨rfl, rfl⟩, hexpanded]
    · rw [if_neg fun h => ha h.2]
      exact (or_iff_left fun hmem => ha (hopened a hmem)).symm
  other d a hother := by
    rw [Statistics.read_modify, if_neg]
    rintro ⟨rfl, rfl⟩
    exact hother p hp rfl

section

variable (h : Counts passed opened before after) (hp : before.tree.position? id = some p)

include h hp

theorem visits_eq : after.visits id = before.visits id + passed.count id := by
  rw [SearchState.visits_eq hp, SearchState.visits_eq (h.tree ▸ hp), h.visits id p hp]

theorem inner_iff : after.Inner game id ↔
    before.Inner game id ∨ id ∈ opened ∧ game.outcome p = .ok .undetermined := by
  rw [SearchState.inner_iff (h.tree ▸ hp), SearchState.inner_iff hp,
    SearchState.expanded_eq (h.tree ▸ hp), SearchState.expanded_eq hp, h.expanded id p hp,
    or_and_right]

end

end Counts

/-! ## The parts of an iteration -/

namespace Strategy

theorem counts_carryUp (hp : s.tree.position? node = some p) {value : V} {depth : Nat}
    (hvalue : Stateful.value (strategy.carryUp value leaf depth node) s = .ok ()) :
    Counts [node] [] s (exec (strategy.carryUp value leaf depth node) s) := by
  obtain ⟨same, hsame, -⟩ := value_bind_eq_ok hvalue
  have hfirst : Runs (onTree (GameTree.sameMover node leaf) : SearchM V Bool) s (.ok same) s :=
    Prod.ext hsame (keeps_sameMover (R := Eq) node leaf s).symm
  have hruns : Runs (strategy.carryUp value leaf depth node) s _ _ :=
    hfirst.bind ((runs_depth hp).bind (runs_changeStat hp _))
  rw [hruns.exec_eq]
  exact .of_modify hp (fun _ => rfl) (fun _ => by simp) nofun

theorem counts_forM_carryUp {value : V} {depth : Nat}
    (hpath : ∀ a ∈ path, ∃ q, s.tree.position? a = some q)
    (hvalue : Stateful.value (path.forM (strategy.carryUp value leaf depth)) s = .ok ()) :
    Counts path [] s (exec (path.forM (strategy.carryUp value leaf depth)) s) := by
  induction path generalizing s with
  | nil => exact .nil s
  | cons a path ih =>
      obtain ⟨⟨q, hq⟩, hpath⟩ := List.forall_mem_cons.mp hpath
      obtain ⟨_, hfirst, hrest⟩ := value_bind_eq_ok hvalue
      have hcounts := counts_carryUp hq hfirst
      have hcounts' := ih (hcounts.tree ▸ hpath) hrest
      have hexec : exec ((a :: path).forM (strategy.carryUp value leaf depth)) s = _ :=
        exec_bind_of_ok hfirst
      rw [hexec]
      exact hcounts.append hcounts'

theorem counts_backprop (hpath : ∀ a ∈ path, ∃ q, s.tree.position? a = some q)
    (hp : s.tree.position? leaf = some p)
    (hvalue : value (strategy.backprop path leaf) s = .ok ()) :
    Counts path [] s (exec (strategy.backprop path leaf) s) := by
  have hruns : Runs (strategy.backprop path leaf) s _ _ :=
    (runs_stat hp).bind ((runs_depth hp).bind (.self (path.forM _) s))
  rw [hruns.exec_eq]
  exact counts_forM_carryUp hpath (hruns.value_eq.symm.trans hvalue)

theorem children?_appraise (h : strategy.Tame) (hs : Orderly game s.tree)
    (hp : s.tree.position? leaf = some p) (hvalue : value (strategy.appraise leaf) s = .ok ()) :
    ∃ ids, (exec (strategy.appraise leaf) s).tree.children? leaf = some ids := by
  obtain ⟨judge, heq, hjudge⟩ := h.appraise leaf
  rw [heq] at hvalue ⊢
  obtain ⟨moves, hmoves, -⟩ := value_bind_eq_ok hvalue
  obtain ⟨hlisted, hidles⟩ := (permissive_idle game 0).legalMoves leaf s hs
  obtain ⟨-, hidles'⟩ := hjudge (Idle game 0) (permissive_idle game 0) moves _ hlisted
  rw [exec_bind_of_ok hmoves]
  exact ⟨moves, hidles'.children? leaf p moves (hidles.position? leaf p hp (Nat.zero_le _))
    (Nat.zero_le _) (GameTree.children?_legalMoves hs.arena hmoves)⟩

/-- An expansion prepares what it needs and then counts the visit. -/
theorem expand_spec (h : strategy.Tame) (hs : Orderly game s.tree)
    (hp : s.tree.position? leaf = some p) (hvalue : value (strategy.expand leaf) s = .ok ()) :
    ∃ ready : SearchState V, Orderly game ready.tree ∧ Idles 0 s ready ∧
      (game.outcome p = .ok .undetermined → ∃ ids, ready.tree.children? leaf = some ids) ∧
      Counts [leaf] [leaf] ready (exec (strategy.expand leaf) s) := by
  have hcounts {ready : SearchState V} (hready : ready.tree.position? leaf = some p) :
      Counts [leaf] [leaf] ready (exec (changeStat leaf fun stat =>
        { stat with visits := stat.visits + 1, expanded := true }) ready) := by
    rw [(runs_changeStat hready _).exec_eq]
    exact .of_modify hready (fun _ => rfl) (fun _ => by simp) fun _ ha => List.mem_singleton.mp ha
  obtain ⟨o, ho, hrest⟩ := value_bind_eq_ok hvalue
  have houtcome : game.outcome p = .ok o :=
    (GameTree.yields_outcome s.tree hs.toCoherent hp).1.symm.trans ho
  obtain ⟨hs', hidles⟩ := (permissive_idle game 0).outcome leaf s hs
  have hp' := hidles.position? leaf p hp (Nat.zero_le _)
  unfold expand
  rw [exec_bind_of_ok ho]
  change value _ (exec (onTree (GameTree.outcome leaf)) s) = _ at hrest
  change ∃ _, _ ∧ _ ∧ _ ∧ Counts _ _ _ (exec _ (exec (onTree (GameTree.outcome leaf)) s))
  generalize exec (onTree (GameTree.outcome leaf)) s = s' at hrest hs' hidles hp' ⊢
  cases hterminal : o.isTerminal with
  | true =>
      refine ⟨s', hs', hidles, fun hopen => ?_, hcounts hp'⟩
      rw [houtcome] at hopen
      rw [Except.ok.inj hopen] at hterminal
      cases hterminal
  | false =>
      rw [hterminal] at hrest
      obtain ⟨_, happraised, -⟩ := value_bind_eq_ok hrest
      obtain ⟨hs'', hidles'⟩ := h.keeps_appraise (permissive_idle game 0) leaf s' hs'
      have hp'' := hidles'.position? leaf p hp' (Nat.zero_le _)
      refine ⟨exec (strategy.appraise leaf) s', hs'', ?_, fun _ => ?_, ?_⟩
      · exact (trans_of (Idle game 0) (fun _ => ⟨hs', hidles⟩) (fun _ => ⟨hs'', hidles'⟩) hs).2
      · exact children?_appraise h hs' hp' happraised
      · change Counts _ _ _ (exec (strategy.appraise leaf >>= fun _ => _) s')
        rw [exec_bind_of_ok happraised]
        exact hcounts hp''

end Strategy

/-- `after` counts one pass down a way to a leaf that is not an inner node yet, and whose moves
are listed if the game goes on there. -/
structure Pass (game : Game) (root : NodeId) (path : List NodeId) (leaf : NodeId)
    (before after : SearchState V) : Prop where
  orderly : Orderly game before.tree
  way : Descends game before root path leaf
  closed : ¬ before.Inner game leaf
  listed : ∀ p, before.tree.position? leaf = some p → game.outcome p = .ok .undetermined →
    ∃ ids, before.tree.children? leaf = some ids
  counts : Counts (path ++ [leaf]) [leaf] before after

/-- An iteration prepares a way and then counts the pass down it. -/
theorem MonteCarlo.iterate_spec (h : strategy.Tame) (hs : Orderly game s.tree)
    (hp : s.tree.position? root = some p) (hvalue : value (iterate strategy root) s = .ok ()) :
    ∃ ready path leaf, Idles 0 s ready ∧
      Pass game root path leaf ready (exec (iterate strategy root) s) := by
  obtain ⟨⟨path, leaf⟩, hdescend, hrest⟩ := value_bind_eq_ok hvalue
  obtain ⟨_, hexpand, hbackprop⟩ := value_bind_eq_ok hrest
  obtain ⟨hway, hclosed⟩ := descend_spec h hs hp hdescend
  obtain ⟨hs', hidles⟩ := keeps_descend h (permissive_idle game 0).toCurious root s hs
  have hp' := hidles.position? root p hp (Nat.zero_le _)
  have hdeep := hway.deep hs' hp'
  obtain ⟨q, hq, -⟩ := hdeep leaf (by simp)
  obtain ⟨ready, hready, hidles', hlisted, hcounts⟩ := Strategy.expand_spec h hs' hq hexpand
  have hexec : exec (iterate strategy root) s = _ :=
    (exec_bind_of_ok hdescend).trans (exec_bind_of_ok hexpand)
  rw [hexec]
  generalize exec (descend strategy root) s = s' at *
  generalize exec (strategy.expand leaf) s' = s'' at hcounts hbackprop ⊢
  refine ⟨ready, path, leaf, ?_, hready, ?_, ?_, ?_, ?_⟩
  · exact (trans_of (Idle game 0) (fun _ => ⟨hs', hidles⟩) (fun _ => ⟨hready, hidles'⟩) hs).2
  · exact hway.idles hs' hidles' hp' (Nat.zero_le _)
  · rwa [hidles'.inner_iff hq (Nat.zero_le _)]
  · intro q' hq' hopen
    rw [hidles'.position? leaf q hq (Nat.zero_le _)] at hq'
    exact hlisted (Option.some.inj hq' ▸ hopen)
  · have hlive : ∀ a ∈ path, ∃ q, s''.tree.position? a = some q := by
      intro a ha
      obtain ⟨q, hq, -⟩ := hdeep a (List.mem_append_left _ ha)
      rw [hcounts.tree]
      exact ⟨q, hidles'.position? a q hq (Nat.zero_le _)⟩
    have hleaf := hcounts.tree ▸ hidles'.position? leaf q hq (Nat.zero_le _)
    have hall := hcounts.append (Strategy.counts_backprop hlive hleaf hbackprop)
    exact hall.perm (List.perm_append_singleton leaf path).symm

end BoardGame
