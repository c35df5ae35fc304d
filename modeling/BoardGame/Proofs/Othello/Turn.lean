import BoardGame.Proofs.Othello.Placement
/-!
# A turn of Othello

A turn is played in plies: a plain piece goes over one outflanked ray and becomes a
helper, the helper turns the other outflanked rays in any order, and then it settles.
Whichever way the plies are chosen, the turn takes one ply more than there are
outflanked rays and leaves the board that the rule of outflanking says.
-/

namespace BoardGame.Othello

open Square (ray directions)
open BuiltIn

/-- The turn on `c` from a plain position has turned the given rays so far. -/
structure MidTurn (pos : Position) (c : Square) (rays : Finset Square) (p : Position) : Prop where
  size : p.size = 8
  mover : p.mover = pos.mover
  board : p.board = turnedBoard pos c rays (2 * pos.mover.sign)
  onBoard : c.onBoard 8 = true
  subset : rays ⊆ outflankedRays pos c

namespace MidTurn

variable {pos p : Position} {c : Square} {rays : Finset Square}

theorem cell (h : MidTurn pos c rays p) (hpos : Plain pos) (s : Square) :
    p.cell s = if s = c then 2 * pos.mover.sign
      else if TurnedBy pos c rays s then pos.mover.sign else pos.cell s := by
  have hon : ∀ s, p.onBoard s = s.onBoard 8 := fun s => by rw [Position.onBoard, h.size]
  have honpos : ∀ s, pos.onBoard s = s.onBoard 8 := fun s => by rw [Position.onBoard, hpos.size]
  by_cases hs : s.onBoard 8 = true
  · rw [cell_eq_read (by rw [hon, hs]), Position.read, h.size, h.board, read_turnedBoard hs]
    by_cases hturned : TurnedBy pos c rays s
    · rw [if_pos hturned, if_pos hturned, hturned.cell_eq, Int.neg_neg]
    · rw [if_neg hturned, if_neg hturned]
  · have hsc : s ≠ c := fun e => hs (e ▸ h.onBoard)
    have hturned : ¬TurnedBy pos c rays s := by
      intro hturned
      apply hs
      rw [← honpos]
      apply onBoard_of_cell_ne_zero
      rw [hturned.cell_eq]
      exact Int.neg_ne_zero.mpr (sign_ne_zero _)
    rw [if_neg hsc, if_neg hturned, Position.cell, Position.cell, hon, honpos, if_neg hs, if_neg hs]

theorem cell_self (h : MidTurn pos c rays p) (hpos : Plain pos) :
    p.cell c = 2 * pos.mover.sign := by
  rw [h.cell hpos, if_pos rfl]

theorem natAbs_cell (h : MidTurn pos c rays p) (hpos : Plain pos) (s : Square) :
    (s = c ∧ (p.cell s).natAbs = 2) ∨ (s ≠ c ∧ (p.cell s).natAbs ≤ 1) := by
  by_cases hsc : s = c
  · refine Or.inl ⟨hsc, ?_⟩
    rw [hsc, h.cell_self hpos]
    rcases Side.sign_cases pos.mover with e | e <;> rw [e] <;> rfl
  · refine Or.inr ⟨hsc, ?_⟩
    rw [h.cell hpos, if_neg hsc]
    split
    · rw [Side.natAbs_sign]
    · rcases hpos.cell s with e | e | e <;> rw [e] <;> decide

theorem sign_cell_eq_neg (h : MidTurn pos c rays p) (hpos : Plain pos) {s : Square}
    (hsc : s ≠ c) :
    (p.cell s).sign = -p.mover.sign ↔ ¬TurnedBy pos c rays s ∧ pos.cell s = -pos.mover.sign := by
  have hsign := sign_ne_zero pos.mover
  rw [h.cell hpos, if_neg hsc, h.mover]
  by_cases hturned : TurnedBy pos c rays s
  · rw [if_pos hturned, Side.sign_sign]
    constructor
    · intro e
      omega
    · exact fun e => absurd hturned e.1
  · rw [if_neg hturned, hpos.sign_cell]
    exact ⟨fun e => ⟨hturned, e⟩, fun e => e.2⟩

theorem sign_cell_eq (h : MidTurn pos c rays p) (hpos : Plain pos) {s : Square} (hsc : s ≠ c) :
    (p.cell s).sign = p.mover.sign ↔ TurnedBy pos c rays s ∨ pos.cell s = pos.mover.sign := by
  rw [h.cell hpos, if_neg hsc, h.mover]
  by_cases hturned : TurnedBy pos c rays s
  · rw [if_pos hturned, Side.sign_sign]
    exact ⟨fun _ => Or.inl hturned, fun _ => rfl⟩
  · rw [if_neg hturned, hpos.sign_cell]
    exact ⟨Or.inr, fun e => e.resolve_left hturned⟩

/-- From the helper, the rays over opponents to an own piece are the outflanked rays
that have not been turned. -/
theorem passes_iff (h : MidTurn pos c rays p) (hpos : Plain pos) {d : Square} {n : Nat}
    (hd : d ∈ directions) :
    (Passes p c d n ∧ (p.cell (ray c d (n + 1))).sign = p.mover.sign) ↔
      d ∉ rays ∧ Outflanks pos c d n := by
  have hne : ∀ i, ray c d (i + 1) ≠ c := fun i => Square.ray_ne_self hd (Nat.succ_pos i)
  constructor
  · rintro ⟨⟨hn, hopp⟩, hown⟩
    have hd0 : d ∉ rays := by
      intro hmem
      obtain ⟨m, hm⟩ := mem_outflankedRays.mp (h.subset hmem)
      have hfirst := ((h.sign_cell_eq_neg hpos (hne 0)).mp (hopp 0 hn)).1
      exact hfirst ((turnedBy_ray hd).mpr ⟨hmem, m, hm, hm.2.1⟩)
    refine ⟨hd0, hd, hn, fun i hi => ((h.sign_cell_eq_neg hpos (hne i)).mp (hopp i hi)).2, ?_⟩
    rcases (h.sign_cell_eq hpos (hne n)).mp hown with hturned | hcell
    · exact absurd ((turnedBy_ray hd).mp hturned).1 hd0
    · exact hcell
  · rintro ⟨hd0, -, hn, hopp, hown⟩
    have hturned : ∀ i, ¬TurnedBy pos c rays (ray c d (i + 1)) := fun i ht =>
      hd0 ((turnedBy_ray hd).mp ht).1
    exact ⟨⟨hn, fun i hi => (h.sign_cell_eq_neg hpos (hne i)).mpr ⟨hturned i, hopp i hi⟩⟩,
      (h.sign_cell_eq hpos (hne n)).mpr (Or.inr hown)⟩

/-! ## Candidates of a helper -/

/-- The helper on `c` turns a ray that `n` pieces outflank. -/
def turnOf (pos : Position) (c d : Square) (n : Nat) : Candidate :=
  ⟨2 * pos.mover.sign, c, ray c d (n + 1), turning⟩

/-- The helper on `c` becomes a plain piece. -/
def settlement (pos : Position) (c : Square) : Candidate :=
  ⟨2 * pos.mover.sign, c, c, settling⟩

theorem natAbs_twice_sign (side : Side) : (2 * side.sign).natAbs = 2 := by
  cases side <;> rfl

theorem sign_twice_sign (side : Side) : (2 * side.sign).sign = side.sign := by
  cases side <;> rfl

theorem origin_eq (h : MidTurn pos c rays p) (hpos : Plain pos) {x : Candidate}
    (hread : p.cell x.origin = x.piece) (habs : x.piece.natAbs = 2) :
    x.origin = c ∧ x.piece = 2 * pos.mover.sign := by
  rcases h.natAbs_cell hpos x.origin with ⟨heq, -⟩ | ⟨-, hle⟩
  · exact ⟨heq, by rw [← hread, heq, h.cell_self hpos]⟩
  · rw [hread] at hle
    omega

theorem mem_turning (h : MidTurn pos c rays p) (hpos : Plain pos) {x : Candidate} :
    (x ∈ othello.allCandidates p ∧ x.rule = turning) ↔
      ∃ d n, d ∉ rays ∧ Outflanks pos c d n ∧ x = turnOf pos c d n := by
  rw [mem_allCandidates h.size]
  constructor
  · rintro ⟨⟨⟨horigin, hread, hpiece⟩, htarget, hallowed⟩, hrule⟩
    rcases hallowed with ⟨-, hrule', -⟩ | ⟨habs, -, hown, d, hd, n, hpass, heq⟩ | ⟨-, hrule', -⟩
    · rw [hrule] at hrule'
      exact absurd hrule' (by decide)
    · obtain ⟨horig, hcode⟩ := h.origin_eq hpos hread habs
      rw [horig] at hpass heq
      rw [heq] at hown
      obtain ⟨hd0, hout⟩ := (h.passes_iff hpos hd).mp ⟨hpass, hown⟩
      refine ⟨d, n, hd0, hout, ?_⟩
      obtain ⟨piece, origin, target, rule⟩ := x
      simp only at horig hcode heq hrule
      rw [turnOf, horig, hcode, heq, hrule]
    · rw [hrule] at hrule'
      exact absurd hrule' (by decide)
  · rintro ⟨d, n, hd0, hout, rfl⟩
    obtain ⟨hpass, hown⟩ := (h.passes_iff hpos hout.1).mpr ⟨hd0, hout⟩
    have hself := h.cell_self hpos
    have hc : p.onBoard c = true := by rw [Position.onBoard, h.size, h.onBoard]
    have htarget : p.onBoard (ray c d (n + 1)) = true := by
      apply onBoard_of_cell_ne_zero
      intro h0
      rw [h0, Int.sign_zero] at hown
      exact sign_ne_zero _ hown.symm
    have hsign : (2 * pos.mover.sign).sign = p.mover.sign := by rw [h.mover, sign_twice_sign]
    exact ⟨⟨⟨hc, hself, hsign⟩, htarget,
      Or.inr (Or.inl ⟨natAbs_twice_sign _, rfl, hown, d, hout.1, n, hpass, rfl⟩)⟩, rfl⟩

theorem mem_settling (h : MidTurn pos c rays p) (hpos : Plain pos) {x : Candidate} :
    (x ∈ othello.allCandidates p ∧ x.rule = settling) ↔ x = settlement pos c := by
  rw [mem_allCandidates h.size]
  constructor
  · rintro ⟨⟨⟨horigin, hread, hpiece⟩, htarget, hallowed⟩, hrule⟩
    rcases hallowed with ⟨-, hrule', -⟩ | ⟨-, hrule', -⟩ | ⟨habs, -, heq⟩
    · rw [hrule] at hrule'
      exact absurd hrule' (by decide)
    · rw [hrule] at hrule'
      exact absurd hrule' (by decide)
    · obtain ⟨horig, hcode⟩ := h.origin_eq hpos hread habs
      obtain ⟨piece, origin, target, rule⟩ := x
      simp only at horig hcode heq hrule
      rw [settlement, heq, horig, hcode, hrule]
  · rintro rfl
    have hc : p.onBoard c = true := by rw [Position.onBoard, h.size, h.onBoard]
    have hsign : (2 * pos.mover.sign).sign = p.mover.sign := by rw [h.mover, sign_twice_sign]
    exact ⟨⟨⟨hc, h.cell_self hpos, hsign⟩, hc, Or.inr (Or.inr ⟨natAbs_twice_sign _, rfl, rfl⟩)⟩,
      rfl⟩

/-! ## Plies of a helper -/

theorem cells (h : MidTurn pos c rays p) : p.board.size = 64 := by
  rw [h.board, size_turnedBoard]

theorem board_turning (h : MidTurn pos c rays p) (hpos : Plain pos) {d : Square} {n : Nat}
    (hd0 : d ∉ rays) (hout : Outflanks pos c d n) :
    p.board.writeAll 8 ((turnOf pos c d n).jumpWrites p) =
      turnedBoard pos c (insert d rays) (2 * pos.mover.sign) := by
  have hpass := ((h.passes_iff hpos hout.1).mpr ⟨hd0, hout⟩).1
  have hsign : (2 * pos.mover.sign).sign = p.mover.sign := by rw [h.mover, sign_twice_sign]
  apply Board.ext_read (n := 8) (by rw [Board.size_writeAll, h.cells]) size_turnedBoard
  intro s hs
  have hread := read_jumpWrites (x := turnOf pos c d n) h.size h.cells hout.1 rfl hsign hpass rfl hs
  have horigin : (turnOf pos c d n).origin = c := rfl
  rw [horigin] at hread
  rw [hread, read_turnedBoard hs, h.cell hpos]
  have hinsert : TurnedBy pos c (insert d rays) s ↔
      (∃ i < n, ray c d (i + 1) = s) ∨ TurnedBy pos c rays s := by
    rw [turnedBy_insert]
    constructor
    · rintro (⟨m, hm, hturned⟩ | hturned)
      · exact Or.inl (hm.unique hout ▸ hturned)
      · exact Or.inr hturned
    · rintro (hturned | hturned)
      · exact Or.inl ⟨n, hout, hturned⟩
      · exact Or.inr hturned
  by_cases hray : ∃ i < n, ray c d (i + 1) = s
  · -- the ray has not been turned before
    have hnew : TurnedBy pos c (insert d rays) s := hinsert.mpr (Or.inl hray)
    obtain ⟨i, hi, rfl⟩ := hray
    have hne : ray c d (i + 1) ≠ c := Square.ray_ne_self hout.1 (Nat.succ_pos i)
    have hold : ¬TurnedBy pos c rays (ray c d (i + 1)) := fun ht =>
      hd0 ((turnedBy_ray hout.1).mp ht).1
    rw [if_pos ⟨i, hi, rfl⟩, if_neg hne, if_neg hold, if_neg hne, if_pos hnew]
  · rw [if_neg hray]
    by_cases hsc : s = c
    · rw [if_pos hsc, if_pos hsc]
    · rw [if_neg hsc, if_neg hsc]
      by_cases hold : TurnedBy pos c rays s
      · rw [if_pos hold, if_pos (hinsert.mpr (Or.inr hold)), hold.cell_eq, Int.neg_neg]
      · rw [if_neg hold, if_neg fun hnew => (hinsert.mp hnew).elim hray hold]

theorem board_settling (h : MidTurn pos c rays p) :
    p.board.writeAll 8 [⟨c, pos.mover.sign⟩] = turnedBoard pos c rays pos.mover.sign := by
  apply Board.ext_read (n := 8) (by rw [Board.size_writeAll, h.cells]) size_turnedBoard
  intro s hs
  change Board.read (Board.write p.board 8 c _) 8 s = _
  rw [Board.read_write h.cells h.onBoard hs, read_turnedBoard hs, h.board, read_turnedBoard hs]
  split <;> rfl

theorem apply_turnOf (h : MidTurn pos c rays p) (hpos : Plain pos) {d : Square} {n : Nat}
    (hd0 : d ∉ rays) (hout : Outflanks pos c d n) :
    (turnOf pos c d n).apply othello p =
      .ok (p.successor (turnedBoard pos c (insert d rays) (2 * pos.mover.sign)) p.mover
        ⟨2 * pos.mover.sign, c, ray c d (n + 1)⟩) := by
  obtain ⟨⟨hmem, -⟩⟩ : (turnOf pos c d n ∈ othello.allCandidates p ∧ _) ∧ True :=
    ⟨(h.mem_turning hpos).mpr ⟨d, n, hd0, hout, rfl⟩, trivial⟩
  obtain ⟨⟨-, -, hpiece⟩, htarget, -⟩ := (mem_allCandidates h.size).mp hmem
  have hown := ((h.passes_iff hpos hout.1).mpr ⟨hd0, hout⟩).2
  rw [← h.board_turning hpos hd0 hout]
  exact apply_turning rfl (natAbs_twice_sign _) htarget hpiece hown

theorem apply_settlement (h : MidTurn pos c rays p) (hpos : Plain pos) :
    (settlement pos c).apply othello p =
      .ok (p.successor (turnedBoard pos c rays pos.mover.sign) p.mover.opponent
        ⟨2 * pos.mover.sign, c, c⟩) := by
  have hc : p.onBoard c = true := by rw [Position.onBoard, h.size, h.onBoard]
  have hsign : (2 * pos.mover.sign).sign = p.mover.sign := by rw [h.mover, sign_twice_sign]
  have happly := apply_settling (p := p) (c := settlement pos c) rfl (natAbs_twice_sign _) hc hsign
    (h.cell_self hpos) rfl
  rw [happly, ← h.board_settling, h.mover]
  rfl

/-- Every candidate of a position within a turn is a placement, which is of no account
here, or a move of the helper. -/
theorem rule_cases (h : MidTurn pos c rays p) {x : Candidate}
    (hx : x ∈ othello.allCandidates p) :
    (x.rule = placing ∧ ∃ q, x.apply othello p = .ok q) ∨ x.rule = turning ∨
      x.rule = settling := by
  obtain ⟨-, htarget, hallowed⟩ := (mem_allCandidates h.size).mp hx
  rcases hallowed with ⟨habs, hrule, hempty, -⟩ | ⟨-, hrule, -⟩ | ⟨-, hrule, -⟩
  · exact Or.inl ⟨hrule, _, apply_placing hrule habs htarget hempty⟩
  · exact Or.inr (Or.inl hrule)
  · exact Or.inr (Or.inr hrule)

theorem exists_successors (h : MidTurn pos c rays p) (hpos : Plain pos) :
    ∃ next, othello.successors p = .ok next ∧
      ∀ q, q ∈ next ↔ ∃ x ∈ othello.allCandidates p, x.apply othello p = .ok q ∧
        ∀ x' ∈ othello.allCandidates p, x'.rule.priority ≤ x.rule.priority := by
  apply RuleSet.exists_successors
  · intro m hm
    obtain ⟨horigin, hread, hpiece⟩ := (RuleSet.mem_boardMovers (by decide)).mp hm
    have hcell : p.cell m.origin = m.piece := by
      rw [cell_eq_read (by rw [Position.onBoard, h.size]; exact horigin), hread]
    have hne : m.piece ≠ 0 := by
      intro h0
      rw [h0, Int.sign_zero] at hpiece
      exact sign_ne_zero _ hpiece.symm
    rcases h.natAbs_cell hpos m.origin with ⟨-, habs⟩ | ⟨-, hle⟩
    · rw [pieceType?_helper (by rw [← hcell, habs])]
      rfl
    · rw [hcell] at hle
      rw [pieceType?_plain (by omega)]
      rfl
  · intro x hx
    rcases h.rule_cases hx with ⟨-, hok⟩ | hrule | hrule
    · exact hok
    · obtain ⟨d, n, hd0, hout, rfl⟩ := (h.mem_turning hpos).mp ⟨hx, hrule⟩
      exact ⟨_, h.apply_turnOf hpos hd0 hout⟩
    · rw [(h.mem_settling hpos).mp ⟨hx, hrule⟩]
      exact ⟨_, h.apply_settlement hpos⟩

theorem successors_of_left (h : MidTurn pos c rays p) (hpos : Plain pos) {d : Square} {n : Nat}
    (hd0 : d ∉ rays) (hout : Outflanks pos c d n) :
    ∃ next, othello.successors p = .ok next ∧ next ≠ [] ∧
      ∀ q ∈ next, ∃ e ∈ outflankedRays pos c, e ∉ rays ∧ MidTurn pos c (insert e rays) q := by
  obtain ⟨next, hnext, hmem⟩ := h.exists_successors hpos
  have hturn : turnOf pos c d n ∈ othello.allCandidates p :=
    ((h.mem_turning hpos).mpr ⟨d, n, hd0, hout, rfl⟩).1
  refine ⟨next, hnext, ?_, ?_⟩
  · have hfirst := (hmem _).mpr ⟨turnOf pos c d n, hturn, h.apply_turnOf hpos hd0 hout, by
      intro x hx
      change x.rule.priority ≤ turning.priority
      rcases h.rule_cases hx with ⟨hrule, -⟩ | hrule | hrule <;> rw [hrule] <;> decide⟩
    exact List.ne_nil_of_mem hfirst
  · intro q hq
    obtain ⟨x, hx, happly, htop⟩ := (hmem q).mp hq
    have hbest : turning.priority ≤ x.rule.priority := htop _ hturn
    have hrule : x.rule = turning := by
      rcases h.rule_cases hx with ⟨hrule, -⟩ | hrule | hrule
      · rw [hrule] at hbest
        exact absurd hbest (by decide)
      · exact hrule
      · rw [hrule] at hbest
        exact absurd hbest (by decide)
    obtain ⟨e, m, he0, hout', rfl⟩ := (h.mem_turning hpos).mp ⟨hx, hrule⟩
    rw [h.apply_turnOf hpos he0 hout', Except.ok.injEq] at happly
    have hmem' := mem_outflankedRays.mpr ⟨m, hout'⟩
    have hsubset : insert e rays ⊆ outflankedRays pos c := Finset.insert_subset hmem' h.subset
    refine ⟨e, hmem', he0, ?_⟩
    rw [← happly]
    exact ⟨by rw [Position.successor_size, h.size], by rw [Position.successor_mover, h.mover],
      Position.successor_board _ _ _ _, h.onBoard, hsubset⟩

theorem successors_of_done (h : MidTurn pos c rays p) (hpos : Plain pos)
    (hdone : rays = outflankedRays pos c) :
    ∃ next, othello.successors p = .ok next ∧ next ≠ [] ∧
      ∀ q ∈ next, q.size = 8 ∧ q.mover = pos.mover.opponent ∧
        q.board = turnedBoard pos c rays pos.mover.sign := by
  obtain ⟨next, hnext, hmem⟩ := h.exists_successors hpos
  have hsettle : settlement pos c ∈ othello.allCandidates p := ((h.mem_settling hpos).mpr rfl).1
  have hnone : ∀ x ∈ othello.allCandidates p, x.rule ≠ turning := by
    intro x hx hrule
    obtain ⟨d, n, hd0, hout, -⟩ := (h.mem_turning hpos).mp ⟨hx, hrule⟩
    exact hd0 (hdone ▸ mem_outflankedRays.mpr ⟨n, hout⟩)
  refine ⟨next, hnext, ?_, ?_⟩
  · have hfirst := (hmem _).mpr ⟨settlement pos c, hsettle, h.apply_settlement hpos, by
      intro x hx
      change x.rule.priority ≤ settling.priority
      rcases h.rule_cases hx with ⟨hrule, -⟩ | hrule | hrule
      · rw [hrule]; decide
      · exact absurd hrule (hnone x hx)
      · rw [hrule]⟩
    exact List.ne_nil_of_mem hfirst
  · intro q hq
    obtain ⟨x, hx, happly, htop⟩ := (hmem q).mp hq
    have hbest : settling.priority ≤ x.rule.priority := htop _ hsettle
    have hrule : x.rule = settling := by
      rcases h.rule_cases hx with ⟨hrule, -⟩ | hrule | hrule
      · rw [hrule] at hbest
        exact absurd hbest (by decide)
      · exact absurd hrule (hnone x hx)
      · exact hrule
    rw [(h.mem_settling hpos).mp ⟨hx, hrule⟩, h.apply_settlement hpos, Except.ok.injEq] at happly
    rw [← happly]
    exact ⟨by rw [Position.successor_size, h.size], by rw [Position.successor_mover, h.mover],
      Position.successor_board _ _ _ _⟩

end MidTurn

/-! ## Whole turns -/

/-- Positions that a turn on `c` reaches in a number of plies. A ply after the first is
played as long as the side to move is the one that began the turn. -/
inductive Turn (pos : Position) (c : Square) : Nat → Position → Prop
  | start {next : List Position} {q : Position} : othello.successors pos = .ok next → q ∈ next →
      q.last.target = c → Turn pos c 1 q
  | ply {n : Nat} {p q : Position} {next : List Position} : Turn pos c n p → p.mover = pos.mover →
      othello.successors p = .ok next → q ∈ next → Turn pos c (n + 1) q

/-- The turn on `c` is over: the side to move has changed, and the outflanked opponents
of `c` have changed sides. -/
structure Finished (pos : Position) (c : Square) (q : Position) : Prop where
  size : q.size = 8
  mover : q.mover = pos.mover.opponent
  board : q.board = turnedBoard pos c (outflankedRays pos c) pos.mover.sign

theorem Plain.midTurn_of_mem {pos : Position} (h : Plain pos) {next : List Position} {q : Position}
    (hnext : othello.successors pos = .ok next) (hq : q ∈ next) :
    Playable pos q.last.target ∧
      ∃ d ∈ outflankedRays pos q.last.target, MidTurn pos q.last.target {d} q := by
  obtain ⟨next', hnext', hmem⟩ := h.successors
  rw [hnext, Except.ok.injEq] at hnext'
  subst hnext'
  obtain ⟨c, d, n, hc, hempty, hout, rfl⟩ := (hmem q).mp hq
  rw [Position.successor_last]
  have hd : d ∈ outflankedRays pos c := mem_outflankedRays.mpr ⟨n, hout⟩
  refine ⟨⟨hc, hempty, d, hd⟩, d, hd, ?_⟩
  rw [Position.onBoard, h.size] at hc
  exact ⟨by rw [Position.successor_size, h.size], Position.successor_mover _ _ _ _,
    Position.successor_board _ _ _ _, hc, Finset.singleton_subset_iff.mpr hd⟩

/-- What is reached within a turn: as many rays have been turned as plies were played, or
the turn is over. -/
theorem Turn.progress {pos : Position} (h : Plain pos) {c : Square} {n : Nat} {q : Position}
    (hturn : Turn pos c n q) :
    (∃ rays, rays.card = n ∧ MidTurn pos c rays q) ∨
      (n = (outflankedRays pos c).card + 1 ∧ Finished pos c q) := by
  induction hturn with
  | start hnext hq htarget =>
      obtain ⟨-, d, -, hmid⟩ := h.midTurn_of_mem hnext hq
      rw [htarget] at hmid
      exact Or.inl ⟨{d}, Finset.card_singleton d, hmid⟩
  | @ply n p q next _ hmover hnext hq ih =>
      rcases ih with ⟨rays, hcard, hmid⟩ | ⟨-, hfin⟩
      · by_cases hdone : rays = outflankedRays pos c
        · obtain ⟨next', hnext', -, hall⟩ := hmid.successors_of_done h hdone
          rw [hnext, Except.ok.injEq] at hnext'
          subst hnext'
          obtain ⟨hsize, hmover', hboard⟩ := hall q hq
          rw [hdone] at hboard hcard
          exact Or.inr ⟨by rw [hcard], hsize, hmover', hboard⟩
        · obtain ⟨d, hd, hd0⟩ := Finset.exists_of_ssubset (hmid.subset.ssubset_of_ne hdone)
          obtain ⟨m, hm⟩ := mem_outflankedRays.mp hd
          obtain ⟨next', hnext', -, hall⟩ := hmid.successors_of_left h hd0 hm
          rw [hnext, Except.ok.injEq] at hnext'
          subst hnext'
          obtain ⟨e, -, he0, hmid'⟩ := hall q hq
          exact Or.inl ⟨insert e rays, by rw [Finset.card_insert_of_notMem he0, hcard], hmid'⟩
      · rw [hfin.mover] at hmover
        exact absurd hmover (Side.opponent_ne _)

theorem MidTurn.exists_ply {pos p : Position} {c : Square} {rays : Finset Square}
    (hmid : MidTurn pos c rays p) (h : Plain pos) :
    ∃ next, othello.successors p = .ok next ∧ next ≠ [] := by
  by_cases hdone : rays = outflankedRays pos c
  · obtain ⟨next, hnext, hne, -⟩ := hmid.successors_of_done h hdone
    exact ⟨next, hnext, hne⟩
  · obtain ⟨d, hd, hd0⟩ := Finset.exists_of_ssubset (hmid.subset.ssubset_of_ne hdone)
    obtain ⟨m, hm⟩ := mem_outflankedRays.mp hd
    obtain ⟨next, hnext, hne, -⟩ := hmid.successors_of_left h hd0 hm
    exact ⟨next, hnext, hne⟩

theorem Finished.plain {pos q : Position} {c : Square} (h : Plain pos)
    (hfin : Finished pos c q) : Plain q := by
  refine ⟨hfin.size, by rw [hfin.board, size_turnedBoard], fun code hcode => ?_⟩
  rw [hfin.board] at hcode
  obtain ⟨i, hi, rfl⟩ := Array.mem_iff_getElem.mp hcode
  simp only [turnedBoard, Board.ofSquares, Array.getElem_ofFn]
  have hsign := Side.sign_cases pos.mover
  split
  · omega
  · split
    · next hturned =>
      rw [hturned.cell_eq]
      omega
    · exact h.cell _

/-- From a board of plain pieces the side to move plays on exactly the squares from
which it outflanks. A turn on `c` takes one ply more than there are outflanked rays,
however its plies are chosen, and none of them lacks a next one; until the last ply the
only helper is the mover's on `c`, and after it the opponents on the outflanked rays of
`c` have changed sides. -/
theorem turn_outflanks (pos : Position) (h : Plain pos) :
    (∃ next, othello.successors pos = .ok next ∧
      ∀ c, (∃ q ∈ next, q.last.target = c) ↔ Playable pos c) ∧
    ∀ c n q, Turn pos c n q →
      n ≤ (outflankedRays pos c).card + 1 ∧
      (n ≤ (outflankedRays pos c).card →
        q.mover = pos.mover ∧ q.cell c = 2 * q.mover.sign ∧
          (∀ s, (q.cell s).natAbs = 2 ↔ s = c) ∧
          ∃ next, othello.successors q = .ok next ∧ next ≠ []) ∧
      (n = (outflankedRays pos c).card + 1 →
        q.mover = pos.mover.opponent ∧ Plain q ∧
          q.board = turnedBoard pos c (outflankedRays pos c) pos.mover.sign) := by
  refine ⟨?_, fun c n q hturn => ?_⟩
  · obtain ⟨next, hnext, hmem⟩ := h.successors
    refine ⟨next, hnext, fun c => ⟨?_, ?_⟩⟩
    · rintro ⟨q, hq, rfl⟩
      exact (h.midTurn_of_mem hnext hq).1
    · rintro ⟨hc, hempty, d, hd⟩
      obtain ⟨n, hout⟩ := mem_outflankedRays.mp hd
      exact ⟨_, (hmem _).mpr ⟨c, d, n, hc, hempty, hout, rfl⟩, by rw [Position.successor_last]⟩
  · rcases hturn.progress h with ⟨rays, hcard, hmid⟩ | ⟨hn, hfin⟩
    · have hle := Finset.card_le_card hmid.subset
      refine ⟨by omega, fun _ => ?_, fun hn => by omega⟩
      refine ⟨hmid.mover, by rw [hmid.cell_self h, hmid.mover], fun s => ?_, hmid.exists_ply h⟩
      rcases hmid.natAbs_cell h s with ⟨hs, habs⟩ | ⟨hs, hle⟩
      · exact ⟨fun _ => hs, fun _ => habs⟩
      · exact ⟨fun habs => by omega, fun heq => absurd heq hs⟩
    · exact ⟨by omega, fun hle => by omega, fun _ => ⟨hfin.mover, hfin.plain h, hfin.board⟩⟩

/-- White outflanks from c3 along the file and along the rank. -/
def twoRays : Position :=
  .ofBoard 8 (Board.ofSquares 8 fun s =>
    if s = ⟨2, 0⟩ ∨ s = ⟨0, 2⟩ then 1 else if s = ⟨2, 1⟩ ∨ s = ⟨1, 2⟩ then -1 else 0)
    .white .absent 0

theorem plain_twoRays : Plain twoRays :=
  ⟨rfl, Board.size_ofSquares _, by decide +kernel⟩

theorem card_outflankedRays_twoRays : (outflankedRays twoRays ⟨2, 2⟩).card = 2 := by
  decide +kernel

theorem turn_outflanks_twoRays :
    Plain twoRays ∧ (outflankedRays twoRays ⟨2, 2⟩).card = 2 ∧
      ∀ n q, Turn twoRays ⟨2, 2⟩ n q →
        n ≤ 3 ∧ (q.mover = .black → n = 3 ∧ q.cell ⟨2, 1⟩ = 1 ∧ q.cell ⟨1, 2⟩ = 1) := by
  refine ⟨plain_twoRays, card_outflankedRays_twoRays, fun n q hturn => ?_⟩
  obtain ⟨hle, hwithin, hover⟩ := (turn_outflanks twoRays plain_twoRays).2 ⟨2, 2⟩ n q hturn
  rw [card_outflankedRays_twoRays] at hle hwithin hover
  refine ⟨hle, fun hblack => ?_⟩
  have hn : n = 3 := by
    by_contra hne
    have hwhite := (hwithin (by omega)).1
    rw [hblack] at hwhite
    cases hwhite
  obtain ⟨-, hplain, hboard⟩ := hover hn
  refine ⟨hn, ?_, ?_⟩ <;>
    rw [Position.cell, Position.onBoard, hplain.size, Position.read, hboard, hplain.size] <;>
    decide +kernel

end BoardGame.Othello
