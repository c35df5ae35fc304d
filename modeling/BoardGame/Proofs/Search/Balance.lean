import Mathlib.Algebra.BigOperators.Group.List.Basic
import BoardGame.Proofs.Search.Iteration
/-!
# The balance of visits

The visits of an inner node are its own first one and those of its children: what goes past the
node goes on to one of them. Only the root is visited without its parent.
-/

namespace BoardGame

open Stateful SearchM
open GameTree (Orderly)

variable {V : Type} [Inhabited V] {game : Game} {strategy : Strategy V} {least : Nat}
  {s before after : SearchState V} {id root leaf c : NodeId} {ids path : List NodeId}
  {p q : Position}

/-- From the depth `least` on the statistics are those of live nodes, and their visits are in
balance, as far as they have not been made at `root`. -/
structure Counted (game : Game) (least : Nat) (root : NodeId) (s : SearchState V) : Prop where
  orderly : Orderly game s.tree
  live : ∀ d id, least ≤ d → 0 < (s.statistics.read d id).visits →
    ∃ p, s.tree.position? id = some p ∧ p.depth = d
  expanded : ∀ d id, least ≤ d →
    ((s.statistics.read d id).expanded = true ↔ 0 < (s.statistics.read d id).visits)
  balanced : ∀ id p, s.tree.position? id = some p → least ≤ p.depth → s.Inner game id →
    ∃ ids, s.tree.children? id = some ids ∧
      (root ∉ ids → s.visits id = 1 + (ids.map s.visits).sum)
  quiet : ∀ id p ids, s.tree.position? id = some p → least ≤ p.depth →
    s.tree.children? id = some ids → ¬ s.Inner game id → ∀ c ∈ ids, c ≠ root → s.visits c = 0

namespace Counted

theorem expanded_iff (h : Counted game least root s) (hp : s.tree.position? id = some p)
    (hdeep : least ≤ p.depth) : s.expanded id = true ↔ 0 < s.visits id := by
  rw [SearchState.expanded_eq hp, SearchState.visits_eq hp]
  exact h.expanded p.depth id hdeep

theorem of_empty (hs : Orderly game s.tree) (hempty : s.statistics = .empty) (least : Nat)
    (root : NodeId) : Counted game least root s := by
  have hclosed : ∀ id, ¬ s.Inner game id := by
    rintro id ⟨hexpanded, p, hp, -⟩
    rw [SearchState.expanded_eq hp, hempty, Statistics.read_empty] at hexpanded
    cases hexpanded
  refine ⟨hs, fun d id _ hvisits => ?_, fun d id _ => ?_, fun id p _ _ hinner => ?_,
    fun _ _ _ _ _ _ _ c _ _ => SearchState.visits_of_empty hempty c⟩
  · rw [hempty, Statistics.read_empty] at hvisits
    cases hvisits
  · rw [hempty, Statistics.read_empty]
    exact ⟨nofun, nofun⟩
  · exact absurd hinner (hclosed id)

theorem mono {least' : Nat} (h : Counted game least root s) (hle : least ≤ least') :
    Counted game least' root s where
  orderly := h.orderly
  live d id hd := h.live d id (Nat.le_trans hle hd)
  expanded d id hd := h.expanded d id (Nat.le_trans hle hd)
  balanced id p hp hd := h.balanced id p hp (Nat.le_trans hle hd)
  quiet id p ids hp hd := h.quiet id p ids hp (Nat.le_trans hle hd)

theorem visits_fresh (h : Counted game least root before) (hidles : Idles least before after)
    (hp : after.tree.position? id = some p) (hdeep : least ≤ p.depth)
    (hfresh : ∀ q, before.tree.position? id = some q → q.depth < least) : after.visits id = 0 := by
  rw [SearchState.visits_eq hp, hidles.visits]
  by_contra hne
  obtain ⟨q, hq, hdepth⟩ := h.live p.depth id hdeep (Nat.pos_of_ne_zero hne)
  have := hfresh q hq
  omega

theorem idles (h : Counted game least root before) (hs : Orderly game after.tree)
    (hidles : Idles least before after) : Counted game least root after := by
  have hvisits {c : NodeId} {q : Position} (hq : before.tree.position? c = some q)
      (hdeep : least ≤ q.depth) : after.visits c = before.visits c := hidles.visits_eq hq hdeep
  refine ⟨hs, fun d id hd hvisited => ?_, fun d id hd => ?_, fun id p hp hdeep hinner => ?_,
    fun id p ids hp hdeep hids hclosed c hc hne => ?_⟩
  · rw [hidles.visits] at hvisited
    obtain ⟨p, hp, rfl⟩ := h.live d id hd hvisited
    exact ⟨p, hidles.position? id p hp hd, rfl⟩
  · rw [hidles.visits, hidles.expanded]
    exact h.expanded d id hd
  · have hvisited : 0 < (before.statistics.read p.depth id).visits := by
      have hexpanded := hinner.expanded
      rw [SearchState.expanded_eq hp, hidles.expanded] at hexpanded
      exact (h.expanded p.depth id hdeep).mp hexpanded
    obtain ⟨q, hq, hdepth⟩ := h.live p.depth id hdeep hvisited
    have hdeep' : least ≤ q.depth := hdepth ▸ hdeep
    obtain ⟨ids, hids, hbalance⟩ :=
      h.balanced id q hq hdeep' ((hidles.inner_iff hq hdeep').mp hinner)
    refine ⟨ids, hidles.children? id q ids hq hdeep' hids, fun hroot => ?_⟩
    have hsame : ids.map after.visits = ids.map before.visits := by
      refine List.map_congr_left fun c hc => ?_
      obtain ⟨r, hr, hle⟩ := h.orderly.child_deep hq hids hc
      exact hvisits hr (Nat.le_trans hdeep' hle)
    rw [hvisits hq hdeep', hsame]
    exact hbalance hroot
  · rcases hidles.fresh id ids hids with ⟨hold, hsame⟩ | hfresh
    · rw [hp] at hsame
      obtain ⟨r, hr, hle⟩ := h.orderly.child_deep hsame hold hc
      rw [hvisits hr (Nat.le_trans hdeep hle)]
      refine h.quiet id p ids hsame hdeep hold ?_ c hc hne
      rwa [← hidles.inner_iff hsame hdeep]
    · obtain ⟨r, hr, hle⟩ := hs.child_deep hp hids hc
      exact h.visits_fresh hidles hr (Nat.le_trans hdeep hle) (hfresh c hc)

end Counted

/-! ## A pass -/

namespace Pass

variable (hpass : Pass game root path leaf before after)

include hpass

/-- The children of a node are visited as often as the node is passed, the root apart. -/
theorem sum_visits (hids : before.tree.children? id = some ids) :
    (ids.map after.visits).sum =
      (ids.map before.visits).sum + (path.count id + ids.count root) := by
  rw [← hpass.way.sum_count hpass.orderly hids, ← List.sum_map_add]
  refine congrArg List.sum (List.map_congr_left fun c hc => ?_)
  obtain ⟨p, hp⟩ := Option.ne_none_iff_exists'.mp (hpass.orderly.live id ids hids c hc)
  exact hpass.counts.visits_eq hp

theorem visits_leaf (hp : before.tree.position? leaf = some p) :
    after.visits leaf = before.visits leaf + 1 := by
  rw [hpass.counts.visits_eq hp,
    List.count_eq_one_of_mem (hpass.way.nodup hpass.orderly) (by simp)]

theorem visits_root (hp : before.tree.position? root = some p) :
    after.visits root = before.visits root + 1 := by
  rw [hpass.counts.visits_eq hp, List.count_eq_one_of_mem (hpass.way.nodup hpass.orderly)]
  exact hpass.way.root_mem

theorem count_eq_zero (hclosed : ¬ before.Inner game id) : path.count id = 0 :=
  List.count_eq_zero.mpr fun hmem => hclosed (hpass.way.inner id hmem)

theorem expanded_iff (h : Counted game least root before)
    (hq : before.tree.position? id = some q) (hdeep : least ≤ q.depth) :
    (after.statistics.read q.depth id).expanded = true ↔
      0 < (after.statistics.read q.depth id).visits := by
  rw [hpass.counts.expanded id q hq, hpass.counts.visits id q hq, h.expanded q.depth id hdeep,
    List.mem_singleton]
  have hleaf : leaf ∈ path ++ [leaf] := List.mem_append_right path (List.mem_singleton_self leaf)
  constructor
  · rintro (hvisited | rfl)
    · exact Nat.add_pos_left hvisited _
    · exact Nat.add_pos_right _ (List.count_pos_iff.mpr hleaf)
  · intro hvisited
    by_cases hmem : id ∈ path ++ [leaf]
    · refine (List.mem_append.mp hmem).imp (fun hpath => ?_) List.mem_singleton.mp
      rw [← SearchState.visits_eq hq, ← h.expanded_iff hq hdeep]
      exact (hpass.way.inner id hpath).expanded
    · rw [List.count_eq_zero.mpr hmem] at hvisited
      exact .inl hvisited

theorem balance_inner (h : Counted game least root before)
    (hq : before.tree.position? id = some q) (hdeep : least ≤ q.depth)
    (hinner : before.Inner game id) :
    ∃ ids, before.tree.children? id = some ids ∧
      (root ∉ ids → after.visits id = 1 + (ids.map after.visits).sum) := by
  obtain ⟨ids, hids, hbalance⟩ := h.balanced id q hq hdeep hinner
  refine ⟨ids, hids, fun hroot => ?_⟩
  have hne : id ∉ [leaf] := fun hmem => hpass.closed (List.mem_singleton.mp hmem ▸ hinner)
  rw [hpass.counts.visits_eq hq, hpass.sum_visits hids, hbalance hroot, List.count_append,
    List.count_eq_zero.mpr hne, List.count_eq_zero.mpr hroot]
  omega

/-- Where the game goes on, the leaf is visited for the first time, and its children have not
been visited. -/
theorem balance_leaf (h : Counted game least root before)
    (hq : before.tree.position? leaf = some q) (hdeep : least ≤ q.depth)
    (hopen : game.outcome q = .ok .undetermined) :
    ∃ ids, before.tree.children? leaf = some ids ∧
      (root ∉ ids → after.visits leaf = 1 + (ids.map after.visits).sum) := by
  obtain ⟨ids, hids⟩ := hpass.listed q hq hopen
  refine ⟨ids, hids, fun hroot => ?_⟩
  have hfirst : before.visits leaf = 0 := by
    by_contra hvisited
    refine hpass.closed ((SearchState.inner_iff hq).mpr ⟨?_, hopen⟩)
    exact (h.expanded_iff hq hdeep).mpr (Nat.pos_of_ne_zero hvisited)
  have hnone : (ids.map before.visits).sum = 0 := by
    refine List.sum_eq_zero fun n hn => ?_
    obtain ⟨c, hc, rfl⟩ := List.mem_map.mp hn
    exact h.quiet leaf q ids hq hdeep hids hpass.closed c hc fun heq => hroot (heq ▸ hc)
  rw [hpass.visits_leaf hq, hpass.sum_visits hids, hfirst, hnone,
    hpass.count_eq_zero hpass.closed, List.count_eq_zero.mpr hroot]

theorem not_mem_way (hids : before.tree.children? id = some ids)
    (hclosed : ¬ before.Inner game id) (hc : c ∈ ids) (hne : c ≠ root) : c ∉ path ++ [leaf] := by
  intro hmem
  obtain ⟨a, ha, as, has, hca⟩ := hpass.way.exists_parent hmem hne
  obtain rfl := hpass.orderly.apart a id c as ids has hids hca hc
  exact hclosed (hpass.way.inner a ha)

theorem counted (h : Counted game least root before) : Counted game least root after := by
  have htree := hpass.counts.tree
  refine ⟨htree ▸ h.orderly, fun d id hd hvisited => ?_, fun d id hd => ?_,
    fun id q hq hdeep hinner => ?_, fun id q ids hq hdeep hids hclosed c hc hne => ?_⟩
  · by_contra hnone
    rw [htree] at hnone
    rw [hpass.counts.other d id fun q hq hd => hnone ⟨q, hq, hd⟩] at hvisited
    exact hnone (h.live d id hd hvisited)
  · by_cases hat : ∃ q, before.tree.position? id = some q ∧ q.depth = d
    · obtain ⟨q, hq, rfl⟩ := hat
      exact hpass.expanded_iff h hq hd
    · rw [hpass.counts.other d id fun q hq hd => hat ⟨q, hq, hd⟩]
      exact h.expanded d id hd
  · rw [htree] at hq ⊢
    rcases (hpass.counts.inner_iff hq).mp hinner with hinner | ⟨hmem, hopen⟩
    · exact hpass.balance_inner h hq hdeep hinner
    · obtain rfl := List.mem_singleton.mp hmem
      exact hpass.balance_leaf h hq hdeep hopen
  · rw [htree] at hq hids
    have hclosed' : ¬ before.Inner game id := fun hinner =>
      hclosed ((hpass.counts.inner_iff hq).mpr (.inl hinner))
    obtain ⟨r, hr, -⟩ := h.orderly.child_deep hq hids hc
    rw [hpass.counts.visits_eq hr,
      List.count_eq_zero.mpr (hpass.not_mem_way hids hclosed' hc hne),
      h.quiet id q ids hq hdeep hids hclosed' c hc hne]

end Pass

/-! ## Visits from one root -/

/-- The visits are in balance at all depths, and all of them have been made from the root: each
other node that has been visited is a child of an inner node. -/
structure Sprung (game : Game) (root : NodeId) (s : SearchState V) : Prop extends
    Counted game 0 root s where
  parent : ∀ id, 0 < s.visits id → id ≠ root →
    ∃ a ids, s.Inner game a ∧ s.tree.children? a = some ids ∧ id ∈ ids

namespace Sprung

theorem of_empty (hs : Orderly game s.tree) (hempty : s.statistics = .empty) (root : NodeId) :
    Sprung game root s := by
  refine ⟨.of_empty hs hempty 0 root, fun id hvisited => ?_⟩
  rw [SearchState.visits_of_empty hempty] at hvisited
  cases hvisited

theorem idles (h : Sprung game root before) (hs : Orderly game after.tree)
    (hidles : Idles 0 before after) : Sprung game root after := by
  refine ⟨h.toCounted.idles hs hidles, fun id hvisited hne => ?_⟩
  obtain ⟨p, hp⟩ := SearchState.position?_of_visits hvisited
  have hold : ∃ q, before.tree.position? id = some q := by
    by_contra hnone
    rw [h.toCounted.visits_fresh hidles hp (Nat.zero_le _) fun q hq => absurd ⟨q, hq⟩ hnone]
      at hvisited
    cases hvisited
  obtain ⟨q, hq⟩ := hold
  rw [hidles.visits_eq hq (Nat.zero_le _)] at hvisited
  obtain ⟨a, ids, hinner, hids, hmem⟩ := h.parent id hvisited hne
  obtain ⟨r, hr⟩ := SearchState.position?_of_expanded hinner.expanded
  exact ⟨a, ids, (hidles.inner_iff hr (Nat.zero_le _)).mpr hinner,
    hidles.children? a r ids hr (Nat.zero_le _) hids, hmem⟩

theorem pass (h : Sprung game root before) (hpass : Pass game root path leaf before after) :
    Sprung game root after := by
  have htree := hpass.counts.tree
  refine ⟨hpass.counted h.toCounted, fun id hvisited hne => ?_⟩
  have hparent : ∃ a ids, before.Inner game a ∧ before.tree.children? a = some ids ∧ id ∈ ids := by
    by_cases hmem : id ∈ path ++ [leaf]
    · obtain ⟨a, ha, ids, hids, hid⟩ := hpass.way.exists_parent hmem hne
      exact ⟨a, ids, hpass.way.inner a ha, hids, hid⟩
    · obtain ⟨p, hp⟩ := SearchState.position?_of_visits hvisited
      rw [hpass.counts.visits_eq (htree ▸ hp), List.count_eq_zero.mpr hmem] at hvisited
      exact h.parent id hvisited hne
  obtain ⟨a, ids, hinner, hids, hid⟩ := hparent
  obtain ⟨p, hp⟩ := SearchState.position?_of_expanded hinner.expanded
  exact ⟨a, ids, (hpass.counts.inner_iff hp).mpr (.inl hinner), htree ▸ hids, hid⟩

theorem rank_le (h : Sprung game root s) {rank : NodeId → Nat}
    (hrank : ∀ id ids, s.tree.children? id = some ids → ∀ c ∈ ids, rank id < rank c)
    (hvisited : 0 < s.visits id) : rank root ≤ rank id := by
  induction hn : rank id using Nat.strongRecOn generalizing id with
  | _ n ih =>
      by_cases hroot : id = root
      · exact Nat.le_of_eq (hroot ▸ hn)
      obtain ⟨a, ids, hinner, hids, hid⟩ := h.parent id hvisited hroot
      obtain ⟨p, hp⟩ := SearchState.position?_of_expanded hinner.expanded
      have hlt := hrank a ids hids id hid
      have := ih (rank a) (hn ▸ hlt) ((h.expanded_iff hp (Nat.zero_le _)).mp hinner.expanded) rfl
      omega

/-- No inner node leads back to the root, so all of them are in balance. -/
theorem balance (h : Sprung game root s) (hinner : s.Inner game id) :
    ∃ ids, s.tree.children? id = some ids ∧ s.visits id = 1 + (ids.map s.visits).sum := by
  obtain ⟨p, hp⟩ := SearchState.position?_of_expanded hinner.expanded
  obtain ⟨ids, hids, hbalance⟩ := h.balanced id p hp (Nat.zero_le _) hinner
  refine ⟨ids, hids, hbalance fun hroot => ?_⟩
  obtain ⟨rank, hrank⟩ := h.orderly.ranked
  have hle := h.rank_le hrank ((h.expanded_iff hp (Nat.zero_le _)).mp hinner.expanded)
  exact Nat.not_le_of_lt (hrank id ids hids root hroot) hle

end Sprung

end BoardGame
