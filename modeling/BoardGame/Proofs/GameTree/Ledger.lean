import BoardGame.Search.Statistics
import BoardGame.Proofs.GameTree.Questions
/-!
# Ledgers of a cache

A cache of statistics does not know which position an entry was written for: it has the depth
and the slot of a node, and the tree uses its slots again. A ledger knows. It notes the position
when an entry is written and strikes it out as soon as the slot holds it no longer.
-/

namespace BoardGame

open Stateful
open GameTree (Coherent Grows Deep)

/-- From the depth `d` on every node is still there. -/
def GameTree.HoldsFrom (d : Nat) (before after : GameTree) : Prop :=
  ∀ id p, before.position? id = some p → d ≤ p.depth → after.position? id = some p

theorem GameTree.Grows.holdsFrom {before after : GameTree} (h : Grows before after) (d : Nat) :
    HoldsFrom d before after :=
  fun id p hp _ => h.position? id p hp

/-- For each key of a cache the position that its entry was written for, if the slot has held
that position ever since. -/
abbrev Ledger := Nat × NodeId → Option Position

namespace Ledger

variable {V : Type} {l : Ledger} {least d : Nat} {tree after : GameTree} {cache : Statistics V}
  {id : NodeId} {p : Position}

/-- Nothing is written. -/
def blank : Ledger := fun _ => none

/-- What is left when the tree changes: a slot that has lost its position is struck out. -/
def carry (l : Ledger) (before after : GameTree) : Ledger :=
  fun key => if before.position? key.2 = after.position? key.2 then l key else none

/-- Notes that an entry is written for what a slot holds. -/
def enter (l : Ledger) (tree : GameTree) (id : NodeId) : Ledger :=
  match tree.position? id with
  | some p => Function.update l (p.depth, id) (some p)
  | none => l

/-- What a live node finds under its key, if anything, was written for the position that it
holds. -/
def Vouches (l : Ledger) (tree : GameTree) (cache : Statistics V) (id : NodeId) : Prop :=
  ∀ p, tree.position? id = some p → (p.depth, id) ∈ cache.stats → l (p.depth, id) = some p

/-- From the depth `least` on, all entries were written for what the slots hold. Above it there
may be any left from plies that have been dropped. -/
def Covers (l : Ledger) (least : Nat) (tree : GameTree) (cache : Statistics V) : Prop :=
  ∀ key ∈ cache.stats, least ≤ key.1 →
    ∃ p, tree.position? key.2 = some p ∧ p.depth = key.1 ∧ l key = some p

namespace Covers

theorem vouches (h : l.Covers least tree cache) (hid : Deep least tree id) :
    l.Vouches tree cache id := by
  intro p hp hmem
  obtain ⟨q, hq, hle⟩ := hid
  obtain rfl := Option.some.inj (hp.symm.trans hq)
  obtain ⟨q, hq, -, hnoted⟩ := h _ hmem hle
  rw [hnoted, ← hq, hp]

theorem empty [Inhabited V] (l : Ledger) (least : Nat) (tree : GameTree) :
    l.Covers least tree (Statistics.empty : Statistics V) :=
  fun _ hmem => absurd hmem Std.HashMap.not_mem_empty

/-- The tree may drop what is shallower than `d`, if nothing above that depth is asked for any
more. -/
theorem carry (h : l.Covers least tree cache) (hle : least ≤ d)
    (hkept : tree.HoldsFrom d after) :
    (l.carry tree after).Covers d after cache := by
  intro key hmem hd
  obtain ⟨p, hp, hdepth, hnoted⟩ := h key hmem (Nat.le_trans hle hd)
  have hafter := hkept key.2 p hp (hdepth ▸ hd)
  refine ⟨p, hafter, hdepth, ?_⟩
  unfold Ledger.carry
  rw [if_pos (hp.trans hafter.symm), hnoted]

theorem grow (h : l.Covers least tree cache) (hgrows : Grows tree after) :
    (l.carry tree after).Covers least after cache :=
  h.carry (Nat.le_refl least) (hgrows.holdsFrom least)

theorem modify [Inhabited V] (h : l.Covers least tree cache) (hp : tree.position? id = some p)
    (change : Stat V → Stat V) :
    (l.enter tree id).Covers least tree (cache.modify p.depth id change) := by
  intro key hmem hd
  unfold enter
  rw [hp]
  by_cases hkey : key = (p.depth, id)
  · subst hkey
    exact ⟨p, hp, rfl, Function.update_self _ _ _⟩
  · have hold : key ∈ cache.stats := by
      unfold Statistics.modify at hmem
      rw [Std.HashMap.mem_alter] at hmem
      simpa [Ne.symm hkey] using hmem
    obtain ⟨q, hq, hdepth, hnoted⟩ := h key hold hd
    exact ⟨q, hq, hdepth, (Function.update_of_ne hkey _ _).trans hnoted⟩

theorem evictAround (h : l.Covers least tree cache) (depth : Nat) :
    l.Covers least tree (cache.evictAround depth) := by
  intro key hmem
  refine h key ?_
  cases depth with
  | zero => exact Std.HashMap.mem_of_mem_filter hmem
  | succ before => exact Std.HashMap.mem_of_mem_filter (Std.HashMap.mem_of_mem_filter hmem)

end Covers

end Ledger

/-! ## Audits while a tree grows -/

section

variable {σ γ α β : Type} {Step : ∀ α : Type, ExceptT EngineError (StateM σ) α → σ → γ → γ → Prop}
  {view : σ → GameTree} {K : σ → γ → Prop} {tree : GameTree}

/-- While `K` holds, and once the tree in view has grown from `tree`, the computation can be
audited. It keeps `K` and adds to the tree, and it comes to a result with the property `P`,
unless it fails otherwise than by eviction. -/
def Accountable (Step : ∀ α : Type, ExceptT EngineError (StateM σ) α → σ → γ → γ → Prop)
    (view : σ → GameTree) (K : σ → γ → Prop) (tree : GameTree) (P : GameTree → α → Prop)
    (x : ExceptT EngineError (StateM σ) α) : Prop :=
  ∀ later, Grows tree later → Audited Step (fun s g => K s g ∧ Grows later (view s)) x
    fun r s g => (K s g ∧ Grows later (view s)) ∧ Met (P (view s)) r

namespace Accountable

variable {P : GameTree → α → Prop} {Q : GameTree → β → Prop}
  {x : ExceptT EngineError (StateM σ) α} {f : α → ExceptT EngineError (StateM σ) β}

theorem later {after : GameTree} (hx : Accountable Step view K tree P x)
    (h : Grows tree after) : Accountable Step view K after P x :=
  fun later hgrows => hx later (h.trans hgrows)

theorem audited_bind {post : Except EngineError β → σ → γ → Prop}
    (hx : Accountable Step view K tree P x)
    (hf : ∀ a later, Grows tree later → P later a →
      Audited Step (fun s g => K s g ∧ Grows later (view s)) (f a) post)
    (he : ∀ e s g, K s g → Grows tree (view s) → ¬ e.IsEviction → post (.error e) s g) :
    Audited Step (fun s g => K s g ∧ Grows tree (view s)) (x >>= f) post := by
  refine Audited.bind (hx tree (Grows.refl tree)) (fun a s g hmid => ?_) fun e s g hmid => ?_
  · obtain ⟨⟨hK, hgrows⟩, ha⟩ := hmid
    exact hf a (view s) hgrows ha s g ⟨hK, Grows.refl _⟩
  · obtain ⟨⟨hK, hgrows⟩, hmet⟩ := hmid
    exact he e s g hK hgrows hmet

theorem bind (hx : Accountable Step view K tree P x)
    (hf : ∀ a later, Grows tree later → P later a → Accountable Step view K later Q (f a)) :
    Accountable Step view K tree Q (x >>= f) := by
  intro middle hmiddle
  refine (hx.later hmiddle).audited_bind (fun a later hgrows ha => ?_)
    fun e s g hK hgrows he => ⟨⟨hK, hgrows⟩, he⟩
  refine (hf a later (hmiddle.trans hgrows) ha later (Grows.refl later)).imp (fun _ _ => id) ?_
  rintro r s g ⟨⟨hK, hlater⟩, hmet⟩
  exact ⟨⟨hK, hgrows.trans hlater⟩, hmet⟩

theorem pure {a : α} (h : ∀ later, Grows tree later → P later a) :
    Accountable Step view K tree P (Pure.pure a) :=
  fun _ hlater => Audited.pure fun s _ hs => ⟨hs, h (view s) (hlater.trans hs.2)⟩

theorem throw {e : EngineError} (h : ¬ e.IsEviction) :
    Accountable Step view K tree P (MonadExcept.throw e) :=
  fun _ _ => Audited.throw fun _ _ hs => ⟨hs, h⟩

theorem ite {c : Prop} [Decidable c] {y : ExceptT EngineError (StateM σ) α}
    (hx : Accountable Step view K tree P x) (hy : Accountable Step view K tree P y) :
    Accountable Step view K tree P (if c then x else y) :=
  fun later hlater => Audited.ite (hx later hlater) (hy later hlater)

theorem imp {P' : GameTree → α → Prop} (hx : Accountable Step view K tree P x)
    (h : ∀ later a, Grows tree later → P later a → P' later a) :
    Accountable Step view K tree P' x := by
  intro middle hmiddle
  refine (hx middle hmiddle).imp (fun _ _ => id) ?_
  rintro r s g ⟨⟨hK, hgrows⟩, hmet⟩
  exact ⟨⟨hK, hgrows⟩, hmet.imp fun a => h _ a (hmiddle.trans hgrows)⟩

theorem mapM {g : α → ExceptT EngineError (StateM σ) β} {l : List α}
    (h : ∀ a ∈ l, Accountable Step view K tree (fun _ _ => True) (g a)) :
    Accountable Step view K tree (fun _ _ => True) (l.mapM g) := by
  induction l generalizing tree with
  | nil => exact pure fun _ _ => trivial
  | cons a l ih =>
      obtain ⟨ha, hl⟩ := List.forall_mem_cons.mp h
      rw [List.mapM_cons]
      refine ha.bind fun _ later hlater _ => ?_
      exact (ih fun b hb => (hl b hb).later hlater).bind fun _ _ _ _ => pure fun _ _ => trivial

theorem forM {g : α → ExceptT EngineError (StateM σ) PUnit} {l : List α}
    (h : ∀ a ∈ l, Accountable Step view K tree (fun _ _ => True) (g a)) :
    Accountable Step view K tree (fun _ _ => True) (l.forM g) := by
  induction l generalizing tree with
  | nil => exact pure fun _ _ => trivial
  | cons a l ih =>
      obtain ⟨ha, hl⟩ := List.forall_mem_cons.mp h
      exact ha.bind fun _ later hlater _ => ih fun b hb => (hl b hb).later hlater

end Accountable

end

end BoardGame
