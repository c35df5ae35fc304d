import BoardGame.Proofs.GameTree.Ledger
import BoardGame.Proofs.Search.Visits
/-!
# A search kept to account

The steps of a search are questions to the tree, draws of chance, and reading, writing and
dropping statistics. A node's statistics may be read only if the ledger vouches for them. A
search looks at nodes from its root on, and for those it does, whatever the strategy.
-/

namespace BoardGame

open Stateful
open GameTree (Coherent Deep Grows Replies)

variable {V α β γ : Type} {game : Game} {least : Nat} {tree : GameTree}
  {id parent child root : NodeId} {p : Position} {moves : List NodeId}

/-- What is recorded about a node shows its position. -/
structure Slice.Depicts (slice : Slice) (p : Position) : Prop where
  board : slice.board = p.board
  mover : slice.mover = p.mover

/-- No eviction is to blame for a failure of what is done by chance. -/
def ChanceM.Blameless (x : ChanceM α) : Prop :=
  ∀ g, Met (fun _ => True) (value x g)

namespace SearchM

/-- Number of entries in the cache. -/
def entries : SearchM V Nat :=
  return (← getThe (SearchState V)).statistics.size

/-- A computation of a search is accountable. -/
abbrev Accountable (S : ∀ α : Type, SearchM V α → SearchState V → γ → γ → Prop)
    (K : SearchState V → γ → Prop) (tree : GameTree) (P : GameTree → α → Prop) (x : SearchM V α) :
    Prop :=
  BoardGame.Accountable S SearchState.tree K tree P x

variable [Inhabited V]

/-- The steps of a search, and what they make of the ledger. There is no step that reads
statistics for which the ledger does not vouch. -/
inductive Step : ∀ α : Type, SearchM V α → SearchState V → Ledger → Ledger → Prop
  | onTree {α : Type} (x : TreeM α) (s : SearchState V) (l : Ledger) :
      Step α (onTree x) s l (l.carry s.tree (GameTree.exec x s.tree))
  | byChance {α : Type} (x : ChanceM α) (s : SearchState V) (l : Ledger) :
      Step α (byChance x) s l l
  | entries (s : SearchState V) (l : Ledger) : Step Nat entries s l l
  | stat {id : NodeId} {s : SearchState V} {l : Ledger}
      (h : l.Vouches s.tree s.statistics id) : Step (Stat V) (stat id) s l l
  | changeStat {id : NodeId} {s : SearchState V} {l : Ledger}
      (h : l.Vouches s.tree s.statistics id) (change : Stat V → Stat V) :
      Step Unit (changeStat id change) s l (l.enter s.tree id)
  | evictAround (depth : Nat) (s : SearchState V) (l : Ledger) :
      Step Unit (evictAround depth) s l l

/-- The steps of a search can be accounted for by `S` and keep `K`, as far as they look at nodes
from the depth `least` on. -/
structure Auditor (game : Game) (least : Nat)
    (S : ∀ α : Type, SearchM V α → SearchState V → γ → γ → Prop)
    (K : SearchState V → γ → Prop) : Prop where
  onTree : ∀ {α : Type} {tree : GameTree} {P : GameTree → α → Prop} {x : TreeM α},
    Replies game tree P x → SearchM.Accountable S K tree P (onTree x)
  byChance : ∀ {α : Type} {tree : GameTree} {x : ChanceM α}, ChanceM.Blameless x →
    SearchM.Accountable S K tree (fun _ _ => True) (byChance x)
  entries : ∀ {tree : GameTree}, SearchM.Accountable S K tree (fun _ _ => True) entries
  stat : ∀ {tree : GameTree} {id : NodeId}, Deep least tree id →
    SearchM.Accountable S K tree (fun _ _ => True) (stat id)
  changeStat : ∀ {tree : GameTree} {id : NodeId}, Deep least tree id → ∀ change,
    SearchM.Accountable S K tree (fun _ _ => True) (changeStat id change)
  evictAround : ∀ {tree : GameTree} depth,
    SearchM.Accountable S K tree (fun _ _ => True) (evictAround depth)

/-- The tree is coherent, and from the depth `least` on the ledger covers the statistics. -/
def Kept (game : Game) (least : Nat) (s : SearchState V) (l : Ledger) : Prop :=
  Coherent game s.tree ∧ l.Covers least s.tree s.statistics

/-- Where the ledger covers the statistics, it vouches for what is read and goes on covering
what is written. -/
theorem auditor_kept (game : Game) (least : Nat) :
    Auditor game least (Step : ∀ α : Type, SearchM V α → SearchState V → Ledger → Ledger → Prop)
      (Kept game least) where
  onTree h := by
    rintro later hlater s l ⟨⟨hcoherent, hcovers⟩, hgrows⟩
    obtain ⟨hcoherent', hgrows', hmet⟩ := h s.tree hcoherent (hlater.trans hgrows)
    exact ⟨_, .step (.onTree _ s l), ⟨⟨hcoherent', hcovers.grow hgrows'⟩, hgrows.trans hgrows'⟩,
      hmet⟩
  byChance h := fun _ _ s l hs => ⟨l, .step (.byChance _ s l), hs, h s.generator⟩
  entries := fun _ _ s l hs => ⟨l, .step (.entries s l), hs, trivial⟩
  stat hid := by
    intro later hlater s l hs
    have hdeep := hid.later (hlater.trans hs.2)
    have ⟨p, hp, _⟩ := hdeep
    refine ⟨l, .step (.stat (hs.1.2.vouches hdeep)), ?_⟩
    rw [(runs_stat hp).value_eq, (runs_stat hp).exec_eq]
    exact ⟨hs, trivial⟩
  changeStat hid change := by
    rintro later hlater s l ⟨⟨hcoherent, hcovers⟩, hgrows⟩
    have hdeep := hid.later (hlater.trans hgrows)
    have ⟨p, hp, _⟩ := hdeep
    refine ⟨_, .step (.changeStat (hcovers.vouches hdeep) change), ?_⟩
    rw [(runs_changeStat hp change).value_eq, (runs_changeStat hp change).exec_eq]
    exact ⟨⟨⟨hcoherent, hcovers.modify hp change⟩, hgrows⟩, trivial⟩
  evictAround depth := fun _ _ s l ⟨⟨hcoherent, hcovers⟩, hgrows⟩ =>
    ⟨l, .step (.evictAround depth s l), ⟨⟨hcoherent, hcovers.evictAround depth⟩, hgrows⟩, trivial⟩

/-- Without a ledger a coherent tree is enough: no statistics make a search lose a node. -/
theorem auditor_coherent (game : Game) (least : Nat) :
    Auditor game least (fun _ (_ : SearchM V _) _ (_ _ : Unit) => True)
      (fun s _ => Coherent game s.tree) where
  onTree h := by
    rintro later hlater s l ⟨hcoherent, hgrows⟩
    obtain ⟨hcoherent', hgrows', hmet⟩ := h s.tree hcoherent (hlater.trans hgrows)
    exact ⟨(), .step trivial, ⟨hcoherent', hgrows.trans hgrows'⟩, hmet⟩
  byChance h := fun _ _ s _ hs => ⟨(), .step trivial, hs, h s.generator⟩
  entries := fun _ _ _ _ hs => ⟨(), .step trivial, hs, trivial⟩
  stat hid := by
    intro later hlater s l hs
    obtain ⟨p, hp, -⟩ := hid.later (hlater.trans hs.2)
    refine ⟨(), .step trivial, ?_⟩
    rw [(runs_stat hp).value_eq, (runs_stat hp).exec_eq]
    exact ⟨hs, trivial⟩
  changeStat hid change := by
    intro later hlater s l hs
    obtain ⟨p, hp, -⟩ := hid.later (hlater.trans hs.2)
    refine ⟨(), .step trivial, ?_⟩
    rw [(runs_changeStat hp change).value_eq, (runs_changeStat hp change).exec_eq]
    exact ⟨hs, trivial⟩
  evictAround _ := fun _ _ _ _ hs => ⟨(), .step trivial, hs, trivial⟩

/-! ## Parts of a search -/

namespace Auditor

variable {S : ∀ α : Type, SearchM V α → SearchState V → γ → γ → Prop}
  {K : SearchState V → γ → Prop} (ha : Auditor game least S K)

include ha

theorem random (x : RandomM α) :
    SearchM.Accountable S K tree (fun _ _ => True) (liftM x : SearchM V α) :=
  ha.byChance fun _ => trivial

theorem readGame :
    SearchM.Accountable S K tree (fun _ _ => True) (SearchM.game : SearchM V Game) := by
  have hreplies : Replies game tree (fun _ _ => True) (do return (← get).game) :=
    fun later hlater _ => ⟨hlater, Grows.refl later, trivial⟩
  exact ha.onTree hreplies

theorem position (hp : tree.position? id = some p) :
    SearchM.Accountable S K tree (fun _ q => q = p)
      (SearchM.onTree (GameTree.position id) : SearchM V Position) :=
  ha.onTree (GameTree.replies_position hp)

theorem outcome (hid : Deep least tree id) :
    SearchM.Accountable S K tree (fun _ _ => True)
      (SearchM.onTree (GameTree.outcome id) : SearchM V Outcome) :=
  let ⟨_, hp, _⟩ := hid
  (ha.onTree (GameTree.replies_outcome hp)).imp fun _ _ _ _ => trivial

theorem legalMoves (hid : Deep least tree id) :
    SearchM.Accountable S K tree (fun later ids => ∀ c ∈ ids, Deep least later c)
      (SearchM.onTree (GameTree.legalMoves id) : SearchM V (List NodeId)) :=
  let ⟨_, hp, hle⟩ := hid
  (ha.onTree (GameTree.replies_legalMoves hp)).imp fun _ _ _ hids c hc =>
    (hids c hc).mono hle

theorem verdicts (hparent : Deep least tree parent)
    (hmoves : ∀ c ∈ moves, Deep least tree c) :
    SearchM.Accountable S K tree (fun _ _ => True)
      (SearchM.verdicts parent moves : SearchM V (List Verdict)) := by
  obtain ⟨p, hp, -⟩ := hparent
  refine (ha.position hp).bind fun _ _ h₁ _ => .mapM fun c hc => ?_
  have hc := (hmoves c hc).later h₁
  refine (ha.outcome hc).bind fun _ _ h₂ _ => ?_
  obtain ⟨q, hq, -⟩ := hc.later h₂
  exact (ha.position hq).bind fun _ _ _ _ => .pure fun _ _ => trivial

theorem terminalBias (hparent : Deep least tree parent)
    (hchild : Deep least tree child) :
    SearchM.Accountable S K tree (fun _ _ => True)
      (SearchM.terminalBias parent child : SearchM V Float) := by
  refine (ha.onTree (GameTree.replies_wins hchild hparent)).bind fun _ _ h _ => ?_
  refine .ite (.pure fun _ _ => trivial) ?_
  exact (ha.onTree (GameTree.replies_loses (hchild.later h) (hparent.later h))).bind
    fun _ _ _ _ => .ite (.pure fun _ _ => trivial) (.pure fun _ _ => trivial)

theorem recordSlice (hp : tree.position? root = some p)
    (hmoves : ∀ c ∈ moves, Deep least tree c) (shares : List Float) :
    SearchM.Accountable S K tree (fun _ slice => slice.Depicts p)
      (SearchM.recordSlice root moves shares : SearchM V Slice) := by
  refine ha.readGame.bind fun _ _ h₁ _ => ?_
  refine (ha.position (h₁.position? root p hp)).bind fun pos _ h₂ hpos => ?_
  have h₂ := h₁.trans h₂
  refine Accountable.bind (.mapM fun entry hentry => ?_) fun _ _ _ _ => .pure fun _ _ => ?_
  · obtain ⟨q, hq, -⟩ := (hmoves entry.1 (List.of_mem_zip hentry).1).later h₂
    exact (ha.position hq).bind fun _ _ _ _ => .pure fun _ _ => trivial
  · subst pos
    exact ⟨rfl, rfl⟩

end Auditor

end SearchM

/-! ## Searches by any strategy -/

open SearchM

variable [Inhabited V]

/-- The parts of a strategy are accountable when they are asked about nodes that are deep
enough. -/
structure Strategy.Auditable (game : Game) (strategy : Strategy V) : Prop where
  priority : ∀ {γ : Type} {S : ∀ α : Type, SearchM V α → SearchState V → γ → γ → Prop}
    {K : SearchState V → γ → Prop} {least : Nat} {tree : GameTree} {parent child : NodeId},
    Auditor game least S K → Deep least tree parent → Deep least tree child →
      SearchM.Accountable S K tree (fun _ _ => True) (strategy.priority parent child)
  appraise : ∀ {γ : Type} {S : ∀ α : Type, SearchM V α → SearchState V → γ → γ → Prop}
    {K : SearchState V → γ → Prop} {least : Nat} {tree : GameTree} {id : NodeId},
    Auditor game least S K → Deep least tree id →
      SearchM.Accountable S K tree (fun _ _ => True) (strategy.appraise id)
  weigh : ∀ {γ : Type} {S : ∀ α : Type, SearchM V α → SearchState V → γ → γ → Prop}
    {K : SearchState V → γ → Prop} {least : Nat} {tree : GameTree} {moves : List NodeId}
    (depth : Nat) (root : NodeId), Auditor game least S K → Deep least tree root →
    (∀ child ∈ moves, Deep least tree child) →
      SearchM.Accountable S K tree (fun _ _ => True) (strategy.weigh depth root moves)

variable {strategy : Strategy V} {path : List NodeId} {leaf node : NodeId}
  {S : ∀ α : Type, SearchM V α → SearchState V → γ → γ → Prop} {K : SearchState V → γ → Prop}

section

variable (ha : Auditor game least S K)

include ha

namespace MonteCarlo

theorem accountable_bestFrom (h : strategy.Auditable game) {best : Option (NodeId × Float)}
    {rest : List NodeId} (hparent : Deep least tree parent)
    (hbest : ∀ b ∈ best, Deep least tree b.1) (hrest : ∀ c ∈ rest, Deep least tree c) :
    SearchM.Accountable S K tree (fun later r => ∀ c ∈ r, Deep least later c)
      (bestFrom strategy parent best rest) := by
  induction rest generalizing best tree with
  | nil =>
      refine .pure fun later hlater c hc => ?_
      obtain ⟨b, hb, rfl⟩ := Option.map_eq_some_iff.mp hc
      exact (hbest b hb).later hlater
  | cons child rest ih =>
      obtain ⟨hchild, hrest⟩ := List.forall_mem_cons.mp hrest
      obtain ⟨better, hbetter, heq⟩ := exists_bestFrom_cons strategy parent child best rest
      rw [heq]
      refine (h.priority ha hparent hchild).bind fun value later hlater _ => ?_
      refine ih (hparent.later hlater) (fun b hb => ?_) fun c hc => (hrest c hc).later hlater
      obtain rfl := Option.some.inj hb
      rcases hbetter value with hfirst | hkept
      · rw [hfirst]
        exact hchild.later hlater
      · exact (hbest _ hkept).later hlater

theorem accountable_bestChild (h : strategy.Auditable game) (hparent : Deep least tree parent) :
    SearchM.Accountable S K tree (fun later child => Deep least later child)
      (bestChild strategy parent) := by
  refine (ha.legalMoves hparent).bind fun moves _ hlater hmoves => ?_
  refine (accountable_bestFrom ha h (hparent.later hlater)
    (fun b hb => absurd hb (Option.not_mem_none b)) hmoves).bind fun best _ _ hbest => ?_
  cases best with
  | none => exact .throw nofun
  | some child => exact .pure fun _ hlater => (hbest child rfl).later hlater

theorem accountable_passable (hid : Deep least tree id) :
    SearchM.Accountable S K tree (fun _ _ => True) (passable id : SearchM V Bool) := by
  have hexpanded : SearchM.Accountable S K tree (fun _ _ => True)
      (Strategy.expanded id : SearchM V Bool) :=
    (ha.stat hid).bind fun _ _ _ _ => .pure fun _ _ => trivial
  refine hexpanded.bind fun _ _ hlater _ => .ite ?_ (.pure fun _ _ => trivial)
  exact (ha.outcome (hid.later hlater)).bind fun _ _ _ _ => .pure fun _ _ => trivial

theorem accountable_descendFrom (h : strategy.Auditable game) (fuel : Nat)
    (hnode : Deep least tree node) :
    SearchM.Accountable S K tree
      (fun later way => (∀ a ∈ way.1, Deep least later a) ∧ Deep least later way.2)
      (descendFrom strategy fuel node) := by
  induction fuel generalizing tree node with
  | zero => exact .pure fun _ hlater => ⟨nofun, hnode.later hlater⟩
  | succ fuel ih =>
      refine (accountable_passable ha hnode).bind fun _ _ h₁ _ => ?_
      have hnode := hnode.later h₁
      refine .ite ?_ (.pure fun _ hlater => ⟨nofun, hnode.later hlater⟩)
      refine (accountable_bestChild ha h hnode).bind fun child _ h₂ hchild => ?_
      refine (ih hchild).bind fun way _ h₃ hway => .pure fun _ h₄ => ?_
      refine ⟨List.forall_mem_cons.mpr ⟨?_, fun a hmem => (hway.1 a hmem).later h₄⟩,
        hway.2.later h₄⟩
      exact hnode.later ((h₂.trans h₃).trans h₄)

theorem accountable_descend (h : strategy.Auditable game) (hroot : Deep least tree root) :
    SearchM.Accountable S K tree
      (fun later way => (∀ a ∈ way.1, Deep least later a) ∧ Deep least later way.2)
      (descend strategy root) := by
  have hsteps : descend strategy root =
      entries >>= fun size => descendFrom strategy (size + 1) root := rfl
  rw [hsteps]
  exact ha.entries.bind fun size _ hlater _ =>
    accountable_descendFrom ha h (size + 1) (hroot.later hlater)

end MonteCarlo

namespace Strategy

theorem Auditable.expand (h : strategy.Auditable game) (hid : Deep least tree id) :
    SearchM.Accountable S K tree (fun _ _ => True) (strategy.expand id) := by
  refine (ha.outcome hid).bind fun outcome later h₁ _ => ?_
  have hid := hid.later h₁
  refine .ite ?_ (ha.changeStat hid _)
  exact (h.appraise ha hid).bind fun _ _ h₂ _ =>
    ha.changeStat (hid.later h₂) _

theorem accountable_carryUp (strategy : Strategy V) (value : V) (hleaf : Deep least tree leaf)
    (depth : Nat) (hnode : Deep least tree node) :
    SearchM.Accountable S K tree (fun _ _ => True)
      (strategy.carryUp value leaf depth node) := by
  refine (ha.onTree (GameTree.replies_sameMover hnode hleaf)).bind fun _ _ h₁ _ => ?_
  have hnode := hnode.later h₁
  have ⟨p, hp, _⟩ := hnode
  exact (ha.onTree (GameTree.replies_depth hp)).bind fun _ _ h₂ _ =>
    ha.changeStat (hnode.later h₂) _

theorem accountable_backprop (strategy : Strategy V) (hpath : ∀ a ∈ path, Deep least tree a)
    (hleaf : Deep least tree leaf) :
    SearchM.Accountable S K tree (fun _ _ => True) (strategy.backprop path leaf) := by
  refine (ha.stat hleaf).bind fun stat _ h₁ _ => ?_
  have hleaf := hleaf.later h₁
  have ⟨p, hp, _⟩ := hleaf
  refine (ha.onTree (GameTree.replies_depth hp)).bind fun depth _ h₂ _ => ?_
  exact .forM fun a hmem => accountable_carryUp ha strategy stat.value (hleaf.later h₂) depth
    ((hpath a hmem).later (h₁.trans h₂))

theorem Auditable.pickMove (h : strategy.Auditable game) (hp : tree.position? root = some p)
    (hle : least ≤ p.depth) :
    SearchM.Accountable S K tree (fun _ move => move.2.Depicts p)
      (strategy.pickMove root) := by
  have hroot : Deep least tree root := ⟨p, hp, hle⟩
  refine (ha.legalMoves hroot).bind fun moves _ h₁ hmoves => ?_
  refine .ite (.throw nofun) ?_
  refine (ha.onTree (GameTree.replies_depth (h₁.position? root p hp))).bind
    fun depth t₂ h₂ _ => ?_
  have hmoves := fun c hc => (hmoves c hc).later h₂
  have h₂ := h₁.trans h₂
  refine (h.weigh depth root ha (hroot.later h₂) hmoves).bind
    fun weighed _ h₃ _ => ?_
  have hmoves := fun c hc => (hmoves c hc).later h₃
  have h₃ := h₂.trans h₃
  refine (ha.recordSlice (h₃.position? root p hp) hmoves weighed.2).bind
    fun slice _ h₄ hslice => ?_
  refine (ha.verdicts (hroot.later (h₃.trans h₄))
    fun c hc => (hmoves c hc).later h₄).bind fun verdicts _ _ _ => ?_
  refine (ha.random (pickIndex verdicts weighed.1)).bind fun index _ _ _ => ?_
  cases index.bind (moves[·]?) with
  | none => exact .throw nofun
  | some child => exact (ha.evictAround depth).bind fun _ _ _ _ => .pure fun _ _ => hslice

end Strategy

namespace MonteCarlo

theorem accountable_iterate (h : strategy.Auditable game) (hroot : Deep least tree root) :
    SearchM.Accountable S K tree (fun _ _ => True) (iterate strategy root) := by
  refine (accountable_descend ha h hroot).bind fun way _ _ hway => ?_
  refine (h.expand ha hway.2).bind fun _ _ hlater _ => ?_
  exact Strategy.accountable_backprop ha strategy (fun a hmem => (hway.1 a hmem).later hlater)
    (hway.2.later hlater)

theorem accountable_iterateTimes (h : strategy.Auditable game) (hroot : Deep least tree root)
    (n : Nat) :
    SearchM.Accountable S K tree (fun _ _ => True) (iterateTimes strategy root n) := by
  induction n generalizing tree with
  | zero => exact .pure fun _ _ => trivial
  | succ n ih =>
      exact (accountable_iterate ha h hroot).bind fun _ _ hlater _ => ih (hroot.later hlater)

omit [Inhabited V] ha in
theorem replies_ensurePlayable (hroot : Deep least tree root) :
    Replies game tree (fun _ _ => True) (ensurePlayable root) := by
  have ⟨p, hp, _⟩ := hroot
  refine (GameTree.replies_outcome hp).bind fun outcome _ hlater _ => ?_
  cases outcome.isTerminal with
  | true => exact .throw nofun
  | false =>
      refine (GameTree.replies_legalMoves (hlater.position? root p hp)).bind fun moves _ _ _ => ?_
      cases moves.isEmpty with
      | true => exact .throw nofun
      | false => exact .pure fun _ _ => trivial

/-- A search reads no statistics but those that were written for what the nodes hold. -/
theorem accountable_search (h : strategy.Auditable game) (hp : tree.position? root = some p)
    (hle : least ≤ p.depth) :
    SearchM.Accountable S K tree (fun _ move => move.2.Depicts p)
      (search strategy root) := by
  have hroot : Deep least tree root := ⟨p, hp, hle⟩
  refine (ha.onTree (replies_ensurePlayable hroot)).bind fun _ _ h₁ _ => ?_
  refine (accountable_iterateTimes ha h (hroot.later h₁) _).bind fun _ _ h₂ _ => ?_
  exact h.pickMove ha ((h₁.trans h₂).position? root p hp) hle

end MonteCarlo

end

theorem Player.accountable_pickByChance
    {S : ∀ α : Type, SearchM Unit α → SearchState Unit → γ → γ → Prop}
    {K : SearchState Unit → γ → Prop} (ha : Auditor game least S K) (hroot : Deep least tree root) :
    SearchM.Accountable S K tree (fun _ _ => True) (pickByChance root) := by
  refine (ha.onTree (MonteCarlo.replies_ensurePlayable hroot)).bind fun _ _ h₁ _ => ?_
  refine (ha.legalMoves (hroot.later h₁)).bind fun moves _ h₂ hmoves => ?_
  refine (ha.verdicts (hroot.later (h₁.trans h₂)) hmoves).bind fun verdicts _ _ _ => ?_
  refine (ha.random (pickIndex verdicts (moves.map fun _ => 1))).bind
    fun index _ _ _ => ?_
  cases index.bind (moves[·]?) with
  | none => exact .throw nofun
  | some child => exact .pure fun _ _ => trivial

end BoardGame
