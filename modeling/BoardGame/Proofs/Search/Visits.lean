import Mathlib.Data.List.Perm.Subperm
import BoardGame.Proofs.GameTree.Sparing
import BoardGame.Proofs.Search.Players
/-!
# Visits

The statistics say of each node how often it was visited and whether it is expanded. Questions,
draws and values leave both alone, as do changes of the tree that spare the nodes in question.
-/

namespace BoardGame

open Stateful SearchM
open GameTree (Orderly Retains Spares)

variable {V : Type} [Inhabited V] {game : Game} {least d e : Nat} {id a root : NodeId}
  {p : Position}

/-! ## Statistics -/

namespace Statistics

theorem read_empty (d : Nat) (id : NodeId) : (empty : Statistics V).read d id = fresh :=
  Std.HashMap.getD_empty

theorem read_modify (s : Statistics V) (d e : Nat) (id a : NodeId) (change : Stat V → Stat V) :
    (s.modify d id change).read e a =
      if e = d ∧ a = id then change (s.read d id) else s.read e a := by
  unfold read modify
  rw [Std.HashMap.getD_alter]
  by_cases h : e = d ∧ a = id
  · obtain ⟨rfl, rfl⟩ := h
    rw [if_pos (beq_self_eq_true _), if_pos ⟨rfl, rfl⟩, Option.getD_some,
      Std.HashMap.getD_eq_getD_getElem?]
  · rw [if_neg h, if_neg]
    intro heq
    obtain ⟨rfl, rfl⟩ := Prod.mk.inj (eq_of_beq heq)
    exact h ⟨rfl, rfl⟩

theorem read_evict (s : Statistics V) (d e : Nat) (id : NodeId) :
    (s.evict d).read e id = if e = d then fresh else s.read e id := by
  unfold read evict
  rw [Std.HashMap.getD_eq_getD_getElem?, Std.HashMap.getElem?_filter',
    Std.HashMap.getD_eq_getD_getElem?]
  cases s.stats[(e, id)]? with
  | none => rw [Option.filter_none, Option.getD_none, ite_self]
  | some stat =>
      by_cases h : e = d
      · rw [if_pos h, Option.filter_some_neg (by simp [h]), Option.getD_none]
      · rw [if_neg h, Option.filter_some_pos (by simp [h])]

theorem read_evictAround (s : Statistics V) (d e : Nat) (id : NodeId) :
    (s.evictAround d).read e id = if e = d ∨ e + 1 = d then fresh else s.read e id := by
  cases d with
  | zero =>
      show (s.evict 0).read e id = _
      simp [read_evict]
  | succ before =>
      show ((s.evict (before + 1)).evict before).read e id = _
      rw [read_evict, read_evict]
      by_cases hbefore : e = before
      · rw [if_pos hbefore, if_pos (.inr (congrArg (· + 1) hbefore))]
      · rw [if_neg hbefore]
        exact if_congr (by omega) rfl rfl

/-- Number of entries that are kept for expanded nodes. -/
def expandedCount (s : Statistics V) : Nat :=
  (s.stats.filter fun _ stat => stat.expanded).size

omit [Inhabited V] in
theorem expandedCount_le_size (s : Statistics V) : s.expandedCount ≤ s.size :=
  Std.HashMap.size_filter_le_size

theorem length_le_expandedCount (s : Statistics V) {keys : List (Nat × NodeId)}
    (hnodup : keys.Nodup)
    (hexpanded : ∀ key ∈ keys, (s.read key.1 key.2).expanded = true) :
    keys.length ≤ s.expandedCount := by
  have hsubset : keys ⊆ (s.stats.filter fun _ stat => stat.expanded).keys := by
    intro key hkey
    have hopen : (s.stats.getD key fresh).expanded = true := hexpanded key hkey
    rw [Std.HashMap.mem_keys, Std.HashMap.mem_iff_isSome_getElem?, Std.HashMap.getElem?_filter']
    rw [Std.HashMap.getD_eq_getD_getElem?] at hopen
    cases hstat : s.stats[key]? with
    | none =>
        rw [hstat] at hopen
        cases hopen
    | some stat =>
        rw [hstat, Option.getD_some] at hopen
        rw [Option.filter_some_pos hopen, Option.isSome_some]
  have hle := (List.subperm_of_subset hnodup hsubset).length_le
  rw [Std.HashMap.length_keys] at hle
  exact hle

end Statistics

/-! ## Nodes -/

namespace SearchState

/-- The statistics that a search reads for a node. -/
def stat (s : SearchState V) (id : NodeId) : Stat V :=
  (s.tree.position? id).elim Statistics.fresh fun p => s.statistics.read p.depth id

def visits (s : SearchState V) (id : NodeId) : Nat :=
  (s.stat id).visits

def expanded (s : SearchState V) (id : NodeId) : Bool :=
  (s.stat id).expanded

/-- A node that a search goes past: it is expanded, and the game goes on there. -/
structure Inner (game : Game) (s : SearchState V) (id : NodeId) : Prop where
  expanded : s.expanded id = true
  undetermined : ∃ p, s.tree.position? id = some p ∧ game.outcome p = .ok .undetermined

variable {s : SearchState V}

theorem stat_eq (hp : s.tree.position? id = some p) : s.stat id = s.statistics.read p.depth id := by
  unfold stat
  rw [hp]
  rfl

theorem visits_eq (hp : s.tree.position? id = some p) :
    s.visits id = (s.statistics.read p.depth id).visits :=
  congrArg Stat.visits (stat_eq hp)

theorem expanded_eq (hp : s.tree.position? id = some p) :
    s.expanded id = (s.statistics.read p.depth id).expanded :=
  congrArg Stat.expanded (stat_eq hp)

theorem inner_iff (hp : s.tree.position? id = some p) :
    s.Inner game id ↔ s.expanded id = true ∧ game.outcome p = .ok .undetermined := by
  constructor
  · rintro ⟨hexpanded, q, hq, ho⟩
    rw [hp] at hq
    exact ⟨hexpanded, Option.some.inj hq ▸ ho⟩
  · rintro ⟨hexpanded, ho⟩
    exact ⟨hexpanded, p, hp, ho⟩

theorem position?_of_expanded (h : s.expanded id = true) : ∃ p, s.tree.position? id = some p := by
  cases hp : s.tree.position? id with
  | some p => exact ⟨p, rfl⟩
  | none =>
      unfold expanded stat at h
      rw [hp] at h
      cases h

theorem position?_of_visits (h : 0 < s.visits id) : ∃ p, s.tree.position? id = some p := by
  cases hp : s.tree.position? id with
  | some p => exact ⟨p, rfl⟩
  | none =>
      unfold visits stat at h
      rw [hp] at h
      cases h

theorem visits_of_empty (h : s.statistics = .empty) (id : NodeId) : s.visits id = 0 := by
  unfold visits stat
  cases s.tree.position? id with
  | none => rfl
  | some p =>
      rw [h, Option.elim_some, Statistics.read_empty]
      rfl

end SearchState

/-! ## Changes that count nothing -/

/-- The visits and the expanded nodes stay as they are, and the tree spares its nodes from the
depth `least` on. -/
structure Idles (least : Nat) (before after : SearchState V) : Prop extends
    Retains least before.tree after.tree where
  visits : ∀ d id, (after.statistics.read d id).visits = (before.statistics.read d id).visits
  expanded : ∀ d id,
    (after.statistics.read d id).expanded = (before.statistics.read d id).expanded

theorem Idles.mono {least' : Nat} {before after : SearchState V} (h : Idles least before after)
    (hle : least ≤ least') : Idles least' before after where
  toRetains := h.toRetains.mono hle
  visits := h.visits
  expanded := h.expanded

def Idle (game : Game) (least : Nat) (before after : SearchState V) : Prop :=
  Orderly game before.tree → Orderly game after.tree ∧ Idles least before after

instance : IsPreorder (SearchState V) (Idle game least) where
  refl s h := ⟨h, Retains.refl least s.tree, fun _ _ => rfl, fun _ _ => rfl⟩
  trans a b c hab hbc h := by
    obtain ⟨hb, hidles⟩ := hab h
    obtain ⟨hc, hidles'⟩ := hbc hb
    exact ⟨hc, hidles.toRetains.trans hidles'.toRetains,
      fun d id => (hidles'.visits d id).trans (hidles.visits d id),
      fun d id => (hidles'.expanded d id).trans (hidles.expanded d id)⟩

theorem Idle.of_spares {before after : GameTree} (h : Spares game least before after)
    (statistics : Statistics V) (generator generator' : Generator) :
    Idle game least ⟨before, statistics, generator⟩ ⟨after, statistics, generator'⟩ := by
  intro horderly
  obtain ⟨hafter, hretains⟩ := h horderly
  exact ⟨hafter, hretains, fun _ _ => rfl, fun _ _ => rfl⟩

section

variable {s : SearchState V}

omit [Inhabited V] in
theorem SearchM.runs_depth (hp : s.tree.position? id = some p) :
    Runs (onTree (GameTree.depth id) : SearchM V Nat) s (.ok p.depth) s := by
  have hvalue : GameTree.value (GameTree.depth id) s.tree = .ok p.depth := by
    unfold GameTree.depth
    rw [GameTree.value_bind_of_ok (GameTree.value_position hp)]
    rfl
  exact Prod.ext hvalue (keeps_depth (R := Eq) id s).symm

theorem SearchM.runs_stat (hp : s.tree.position? id = some p) :
    Runs (stat id) s (.ok (s.stat id)) s := by
  rw [SearchState.stat_eq hp]
  exact (runs_depth hp).bind rfl

theorem SearchM.runs_changeStat (hp : s.tree.position? id = some p) (change : Stat V → Stat V) :
    Runs (changeStat id change) s (.ok ())
      ⟨s.tree, s.statistics.modify p.depth id change, s.generator⟩ :=
  (runs_depth hp).bind rfl

theorem SearchM.exec_changeStat_of_none (hp : s.tree.position? id = none)
    (change : Stat V → Stat V) : exec (changeStat id change) s = s := by
  have hdepth : value (onTree (GameTree.depth id) : SearchM V Nat) s =
      .error (.invariant (.evictedNode id.index)) :=
    GameTree.value_bind_of_error (GameTree.value_bind_of_error
      (GameTree.value_node_of_none (GameTree.node?_eq_none_iff.mpr hp)))
  exact (exec_bind_of_error hdepth).trans (keeps_depth (R := Eq) id s).symm

end

theorem permissive_idle (game : Game) (least : Nat) :
    Permissive (Idle game least : SearchState V → SearchState V → Prop) where
  legalMoves id s := .of_spares ((GameTree.inquisitive_spares game least).legalMoves id s.tree)
    s.statistics s.generator s.generator
  outcome id s := .of_spares ((GameTree.inquisitive_spares game least).outcome id s.tree)
    s.statistics s.generator s.generator
  byChance x s := .of_spares (refl_of (Spares game least) s.tree) s.statistics s.generator _
  value id change s := by
    cases hp : s.tree.position? id with
    | none =>
        rw [exec_changeStat_of_none hp]
        exact refl_of (Idle game least) s
    | some p =>
        rw [(runs_changeStat hp _).exec_eq]
        refine fun h => ⟨h, Retains.refl least s.tree, fun d a => ?_, fun d a => ?_⟩
        · rw [Statistics.read_modify]
          by_cases hkey : d = p.depth ∧ a = id
          · rw [if_pos hkey, hkey.1, hkey.2]
          · rw [if_neg hkey]
        · rw [Statistics.read_modify]
          by_cases hkey : d = p.depth ∧ a = id
          · rw [if_pos hkey, hkey.1, hkey.2]
          · rw [if_neg hkey]

end BoardGame
