import BoardGame.Proofs.Ending.Drops
import BoardGame.Proofs.Othello.Turn
/-!
# Othello ends

The side to move stays the same while a turn goes on, so plies are counted on two levels:
a turn fills one square of the board and takes at most nine plies, one for each outflanked
ray and one to settle.
-/

namespace BoardGame

theorem Board.emptyCells_congr {n : Nat} {a b : Board} (ha : a.size = n * n) (hb : b.size = n * n)
    (h : ∀ s : Square, s.onBoard n = true → (a.read n s = 0 ↔ b.read n s = 0)) :
    a.emptyCells = b.emptyCells := by
  have hcells : a.map (· == 0) = b.map (· == 0) := by
    apply Array.ext (by rw [Array.size_map, Array.size_map, ha, hb])
    intro i hia hib
    rw [Array.size_map] at hia hib
    have hi : i < n * n := ha ▸ hia
    have hread := h _ (Square.onBoard_ofCell hi)
    rw [read_of_lt (by rwa [Square.index_ofCell hi]), read_of_lt (by rwa [Square.index_ofCell hi])]
      at hread
    simp only [Square.index_ofCell hi] at hread
    rw [Array.getElem_map, Array.getElem_map, Bool.eq_iff_iff, beq_iff_eq, beq_iff_eq]
    exact hread
  have hcount (board : Board) : board.emptyCells = (board.map (· == 0)).countP id := by
    rw [Array.countP_map]
    rfl
  rw [hcount, hcount, hcells]

namespace RuleSet

variable {rules : RuleSet} {p : Position} {next : List Position}

theorem ne_nil_of_noLegalMove
    (hending : ∃ ending ∈ rules.endings, ending.condition = .noLegalMove)
    (hnext : rules.successors p = .ok next)
    (hopen : Game.outcome ⟨rules, .template⟩ p = .ok .undetermined) : next ≠ [] := by
  rintro rfl
  obtain ⟨ending, hmem, hcondition⟩ := hending
  have hnone := endOutcome_eq_none hopen ending hmem
  have hstuck : Game.stuck ⟨rules, .template⟩ p = .ok true := by
    rw [Game.stuck_eq_isEmpty, Game.successors_template.mpr hnext]
    rfl
  unfold endOutcome at hnone
  rw [hcondition, hstuck] at hnone
  cases Except.ok.inj hnone

end RuleSet

namespace Othello

open BuiltIn Square

variable {pos p q : Position} {c : Square} {rays : Finset Square} {next : List Position} {n : Nat}

theorem card_outflankedRays_le (pos : Position) (c : Square) :
    (outflankedRays pos c).card ≤ 8 :=
  Nat.le_trans (Finset.card_filter_le _ _) (by decide)

/-- Turning pieces fills no square, and the piece put down fills one. -/
theorem emptyCells_turnedBoard (h : Plain pos) (hc : c.onBoard 8 = true) (hempty : pos.cell c = 0)
    (rays : Finset Square) {code : Int} (hcode : code ≠ 0) :
    (turnedBoard pos c rays code).emptyCells + 1 = pos.board.emptyCells := by
  have hcell (s : Square) (hs : s.onBoard 8 = true) : pos.cell s = pos.board.read 8 s := by
    rw [cell_eq_read (by rwa [Position.onBoard, h.size]), Position.read, h.size]
  have hboard : pos.board.size = 8 * 8 := h.cells
  have hwritten : (turnedBoard pos c rays code).emptyCells =
      (pos.board.write 8 c code).emptyCells := by
    apply Board.emptyCells_congr (n := 8) size_turnedBoard (Board.size_write.trans hboard)
    intro s hs
    rw [read_turnedBoard hs, Board.read_write hboard hc hs, hcell s hs]
    by_cases hsc : s = c
    · rw [if_pos hsc, if_pos hsc]
    rw [if_neg hsc, if_neg hsc]
    split
    · exact Int.neg_eq_zero
    · rfl
  rw [hwritten]
  exact Board.emptyCells_write hboard hc (hcell c hc ▸ hempty) hcode

/-- Plies that are left: nine for each empty square between turns, and within a turn one
for each ray that is left and one to settle. -/
def Left (n : Nat) (p : Position) : Prop :=
  (Plain p ∧ 9 * p.board.emptyCells ≤ n) ∨
    ∃ pos c rays, Plain pos ∧ pos.cell c = 0 ∧ MidTurn pos c rays p ∧
      9 * (pos.board.emptyCells - 1) + ((outflankedRays pos c).card - rays.card) + 1 ≤ n

theorem left_of_plain (h : Plain p) (hn : 9 * p.board.emptyCells ≤ n)
    (hnext : othello.successors p = .ok next) (hq : q ∈ next) : Left (n - 1) q := by
  obtain ⟨⟨-, hempty, -⟩, d, hd, hmid⟩ := h.midTurn_of_mem hnext hq
  refine Or.inr ⟨p, q.last.target, {d}, h, hempty, hmid, ?_⟩
  have hcard := card_outflankedRays_le p q.last.target
  have hpos := emptyCells_turnedBoard h hmid.onBoard hempty {d}
    (sign_ne_zero p.mover)
  rw [Finset.card_singleton]
  omega

theorem left_of_midTurn (h : Plain pos) (hempty : pos.cell c = 0) (hmid : MidTurn pos c rays p)
    (hn : 9 * (pos.board.emptyCells - 1) + ((outflankedRays pos c).card - rays.card) + 1 ≤ n)
    (hnext : othello.successors p = .ok next) (hq : q ∈ next) : Left (n - 1) q := by
  by_cases hdone : rays = outflankedRays pos c
  · obtain ⟨next', hnext', -, hall⟩ := hmid.successors_of_done h hdone
    rw [hnext] at hnext'
    obtain rfl := Except.ok.inj hnext'
    obtain ⟨hsize, hmover, hboard⟩ := hall q hq
    have hfinished : Finished pos c q := ⟨hsize, hmover, hdone ▸ hboard⟩
    have hfilled := emptyCells_turnedBoard h hmid.onBoard hempty rays
      (sign_ne_zero pos.mover)
    refine Or.inl ⟨hfinished.plain h, ?_⟩
    rw [hboard]
    omega
  · obtain ⟨d, hd, hd0⟩ := Finset.exists_of_ssubset (hmid.subset.ssubset_of_ne hdone)
    obtain ⟨m, hm⟩ := mem_outflankedRays.mp hd
    obtain ⟨next', hnext', -, hall⟩ := hmid.successors_of_left h hd0 hm
    rw [hnext] at hnext'
    obtain rfl := Except.ok.inj hnext'
    obtain ⟨e, -, he0, hmid'⟩ := hall q hq
    have hcard := Finset.card_le_card hmid'.subset
    refine Or.inr ⟨pos, c, insert e rays, h, hempty, hmid', ?_⟩
    rw [Finset.card_insert_of_notMem he0] at hcard ⊢
    omega

theorem measure {bound : Nat}
    (hstart : ∀ p, Position.initial othello = .ok p → Plain p ∧ 9 * p.board.emptyCells ≤ bound) :
    Game.Measure ⟨othello, .template⟩ bound Left where
  initial p hp := by
    have hp := Game.initial_of_eq_ok hp
    exact Or.inl (hstart p hp)
  successors n p hleft := by
    rcases hleft with ⟨h, hn⟩ | ⟨pos, c, rays, h, hempty, hmid, hn⟩
    · obtain ⟨next, hnext, -⟩ := h.successors
      exact ⟨next, Game.successors_template.mpr hnext, fun q hq => left_of_plain h hn hnext hq⟩
    · obtain ⟨next, hnext, -⟩ := hmid.exists_ply h
      exact ⟨next, Game.successors_template.mpr hnext,
        fun q hq => left_of_midTurn h hempty hmid hn hnext hq⟩
  onward n p next hleft hnext hopen := by
    have hnext' := Game.successors_template.mp hnext
    have hne := RuleSet.ne_nil_of_noLegalMove
      ⟨⟨.noLegalMove, 0, .countLivePieces⟩, List.mem_singleton_self _, rfl⟩ hnext' hopen
    refine ⟨hne, ?_⟩
    rcases hleft with ⟨h, hn⟩ | ⟨pos, c, rays, -, -, -, hn⟩
    · obtain ⟨q, hq⟩ := List.exists_mem_of_ne_nil next hne
      obtain ⟨⟨-, hempty, -⟩, d, -, hmid⟩ := h.midTurn_of_mem hnext' hq
      have hfilled := emptyCells_turnedBoard h hmid.onBoard hempty {d}
        (sign_ne_zero p.mover)
      omega
    · omega

end Othello

end BoardGame
