import BoardGame.Proofs.Ending.Lines
import BoardGame.Proofs.Failure
/-!
# Endings

What the conditions of a rule set come to: some leave the decision to the ending, and those
about pieces and lines find a side that has won. An ending that applies always decides the
game, so where the game goes on none of them applies.
-/

namespace BoardGame

variable {rules : RuleSet} {pos : Position} {ending : EndRule} {o : Outcome}

namespace RuleSet

/-! ## Winners -/

theorem ofWinner_ne_undetermined (winner mover : Side) :
    Outcome.ofWinner winner mover ≠ .undetermined := by
  unfold Outcome.ofWinner
  split <;> decide

theorem ofWinner_eq_win_iff {winner mover : Side} :
    Outcome.ofWinner winner mover = .win ↔ winner = mover := by
  cases winner <;> cases mover <;> decide

theorem decide_ne_undetermined (rules : RuleSet) (pos : Position) (decision : Decision) :
    rules.decide pos decision ≠ .undetermined := by
  cases decision with
  | countLivePieces =>
      unfold RuleSet.decide
      dsimp only
      split
      · decide
      · exact ofWinner_ne_undetermined _ _
      · exact ofWinner_ne_undetermined _ _
  | _ => exact Outcome.noConfusion

theorem lineOutcome_eq_none_iff {n : Int} :
    lineOutcome pos n = none ↔ ∀ side, ¬ n ≤ pos.longestRun side n := by
  unfold lineOutcome
  dsimp only
  constructor
  · intro h side
    split at h
    · cases h
    · split at h
      · cases h
      · cases side <;> assumption
  · intro h
    exact (if_neg (h .white)).trans (if_neg (h .black))

theorem exists_winner_of_lineOutcome {n : Int} (h : lineOutcome pos n = some o) :
    ∃ side, o = .ofWinner side pos.mover ∧ n ≤ pos.longestRun side n := by
  unfold lineOutcome at h
  dsimp only at h
  split at h
  next hwhite => exact ⟨.white, (Option.some.inj h).symm, hwhite⟩
  next =>
    obtain ⟨hblack, h⟩ := Option.ite_none_right_eq_some.mp h
    exact ⟨.black, (Option.some.inj h).symm, hblack⟩

theorem keyPiecesOutcome_eq_none {pieces : List (PieceType × Nat)}
    (h : keyPiecesOutcome pos pieces = none) (side : Side) :
    ∀ entry ∈ pieces, ¬ pos.board.countOf side (entry.2 + 1) < entry.1.min := by
  induction pieces with
  | nil => simp
  | cons entry rest ih =>
      unfold keyPiecesOutcome at h
      split at h
      · cases h
      split at h
      · cases h
      next hwhite hblack =>
        refine List.forall_mem_cons.mpr ⟨?_, ih h⟩
        cases side with
        | white => exact hwhite
        | black => exact hblack

theorem exists_winner_of_keyPiecesOutcome {pieces : List (PieceType × Nat)}
    (h : keyPiecesOutcome pos pieces = some o) :
    ∃ side, o = .ofWinner side pos.mover ∧
      ∃ entry ∈ pieces, pos.board.countOf side.opponent (entry.2 + 1) < entry.1.min := by
  induction pieces with
  | nil => cases h
  | cons entry rest ih =>
      unfold keyPiecesOutcome at h
      split at h
      next hwhite => exact ⟨.black, (Option.some.inj h).symm, entry, List.mem_cons_self, hwhite⟩
      split at h
      next hblack => exact ⟨.white, (Option.some.inj h).symm, entry, List.mem_cons_self, hblack⟩
      next =>
        obtain ⟨side, ho, key, hkey, hfew⟩ := ih h
        exact ⟨side, ho, key, List.mem_cons_of_mem entry hkey, hfew⟩

theorem exists_winner_of_noPiecesOutcome (h : rules.noPiecesOutcome pos = some o) :
    ∃ side, o = .ofWinner side pos.mover ∧ pos.liveCount rules side.opponent = 0 := by
  unfold noPiecesOutcome at h
  split at h
  next hwhite => exact ⟨.black, (Option.some.inj h).symm, hwhite⟩
  next =>
    obtain ⟨hblack, h⟩ := Option.ite_none_right_eq_some.mp h
    exact ⟨.white, (Option.some.inj h).symm, hblack⟩

/-! ## What an ending comes to -/

section

variable {ε : Type} {noMoves : Except ε Bool}

theorem endOutcome_cases (h : rules.endOutcome pos noMoves ending = .ok (some o)) :
    ((ending.condition = .noLegalMove ∨ ending.condition = .moveLimit ∨
        ending.condition = .boardFull) ∧ o = rules.decide pos ending.decision) ∨
      (ending.condition = .repeatedPosition ∧ o = .draw) ∨
      (ending.condition = .keyPiecesCaptured ∧
        keyPiecesOutcome pos rules.pieces.zipIdx = some o) ∨
      (ending.condition = .noPiecesOnBoard ∧ rules.noPiecesOutcome pos = some o) ∨
      (ending.condition = .nInARow ∧
        lineOutcome pos (Int.bmod ending.param 0x100000000) = some o) := by
  unfold endOutcome at h
  cases hcondition : ending.condition with
  | noLegalMove =>
      rw [hcondition] at h
      obtain ⟨stuck, -, h⟩ := bind_eq_ok.mp h
      cases stuck with
      | false => cases h
      | true => exact .inl ⟨.inl rfl, (Option.some.inj (Except.ok.inj h)).symm⟩
  | moveLimit =>
      rw [hcondition] at h
      obtain ⟨-, h⟩ := Option.ite_none_right_eq_some.mp (Except.ok.inj h)
      exact .inl ⟨.inr (.inl rfl), (Option.some.inj h).symm⟩
  | boardFull =>
      rw [hcondition] at h
      obtain ⟨-, h⟩ := Option.ite_none_right_eq_some.mp (Except.ok.inj h)
      exact .inl ⟨.inr (.inr rfl), (Option.some.inj h).symm⟩
  | repeatedPosition =>
      rw [hcondition] at h
      obtain ⟨-, h⟩ := Option.ite_none_right_eq_some.mp (Except.ok.inj h)
      exact .inr (.inl ⟨rfl, (Option.some.inj h).symm⟩)
  | keyPiecesCaptured =>
      rw [hcondition] at h
      exact .inr (.inr (.inl ⟨rfl, Except.ok.inj h⟩))
  | noPiecesOnBoard =>
      rw [hcondition] at h
      exact .inr (.inr (.inr (.inl ⟨rfl, Except.ok.inj h⟩)))
  | nInARow =>
      rw [hcondition] at h
      exact .inr (.inr (.inr (.inr ⟨rfl, Except.ok.inj h⟩)))

theorem endOutcome_ne_undetermined (h : rules.endOutcome pos noMoves ending = .ok (some o)) :
    o ≠ .undetermined := by
  rcases endOutcome_cases h with ⟨-, rfl⟩ | ⟨-, rfl⟩ | ⟨-, ho⟩ | ⟨-, ho⟩ | ⟨-, ho⟩
  · exact decide_ne_undetermined rules pos _
  · exact Outcome.noConfusion
  · obtain ⟨side, rfl, -⟩ := exists_winner_of_keyPiecesOutcome ho
    exact ofWinner_ne_undetermined _ _
  · obtain ⟨side, rfl, -⟩ := exists_winner_of_noPiecesOutcome ho
    exact ofWinner_ne_undetermined _ _
  · obtain ⟨side, rfl, -⟩ := exists_winner_of_lineOutcome ho
    exact ofWinner_ne_undetermined _ _

theorem endOutcome_eq_none (h : rules.outcome pos noMoves = .ok .undetermined) :
    ∀ ending ∈ rules.endings, rules.endOutcome pos noMoves ending = .ok none := by
  unfold outcome at h
  generalize rules.endings = endings at h
  induction endings with
  | nil => simp
  | cons first rest ih =>
      obtain ⟨found, hfound, h⟩ := bind_eq_ok.mp h
      cases found with
      | none => exact List.forall_mem_cons.mpr ⟨hfound, ih h⟩
      | some o => exact absurd (Except.ok.inj h) (endOutcome_ne_undetermined hfound)

theorem exists_endOutcome (h : rules.outcome pos noMoves = .ok o) (hover : o ≠ .undetermined) :
    ∃ ending ∈ rules.endings, rules.endOutcome pos noMoves ending = .ok (some o) := by
  unfold outcome at h
  generalize rules.endings = endings at h
  induction endings with
  | nil => exact absurd (Except.ok.inj h).symm hover
  | cons first rest ih =>
      obtain ⟨found, hfound, h⟩ := bind_eq_ok.mp h
      cases found with
      | none =>
          obtain ⟨ending, hmem, hending⟩ := ih h
          exact ⟨ending, List.mem_cons_of_mem first hmem, hending⟩
      | some o' =>
          obtain rfl : o' = o := Except.ok.inj h
          exact ⟨first, List.mem_cons_self, hfound⟩

end

end RuleSet

end BoardGame
