import BoardGame.Proofs.Chess.Fen.Retirement
/-!
# Positions that play alike

Where the boards are the same but for kings that castle no more, the same side moves and
the same captures en passant are open, each man has the same steps and each king the same
castling moves, and what they lead to is again the same but for those kings.
-/

namespace BoardGame.Chess

open Laws

variable {lost : Side → Bool} {code : Int} {side : Side} {pos p q : Position} {g : State}
  {s t : Square}

/-! ## What the engine tries -/

theorem exists_arrivalCode (kind : Kind) (side : Side) (s t : Square) :
    ∃ j : Kind, arrivalCode kind side s t = j.code * side.sign ∧ j ≠ .unmovedKing := by
  cases kind
  case pawn =>
    unfold arrivalCode promoted
    dsimp only
    split
    · exact ⟨.queen, rfl, by decide⟩
    · exact ⟨.pawn, rfl, by decide⟩
  case unmovedRook => exact ⟨.rook, rfl, by decide⟩
  case unmovedKing => exact ⟨.king, rfl, by decide⟩
  all_goals exact ⟨_, rfl, by decide⟩

/-- Whether the squares between a king and the rook of a wing are free. -/
def wayFree (board : Board) (side : Side) (w : Wing) : Bool :=
  (List.range boardSize).all fun (x : Nat) =>
    let between := if w.direction < 0 then 1 ≤ (x : Int) ∧ x < (kingHome side).x
      else (kingHome side).x < x ∧ (x : Int) < 7
    !decide between || look board ⟨x, (kingHome side).y⟩ == 0

theorem castle?_eq (hking : look pos.board (kingHome side) = Kind.unmovedKing.code * side.sign)
    (w : Wing) :
    castle? pos (kingHome side) (w.corner side).x w.direction =
      if ((look pos.board (w.corner side)).natAbs : Int) ≠ Kind.unmovedRook.code ∨
          !wayFree pos.board side w ∨ attacked pos.board (kingHome side) then none
      else if attacked (passingBoard pos.board side w) (w.transit side) then none
      else if attacked (castledBoard pos.board side w) (w.arrival side) then none
      else some (pos.successor (castledBoard pos.board side w) pos.mover.opponent
        ⟨Kind.king.code * side.sign, kingHome side, w.arrival side⟩) := by
  have hcorner : (⟨(w.corner side).x, (kingHome side).y⟩ : Square) = w.corner side := by
    cases w <;> rfl
  have hother : (⟨7 - (w.corner side).x, (kingHome side).y⟩ : Square) = w.other.corner side := by
    cases w <;> rfl
  unfold castle?
  dsimp only
  rw [hking, sign_code_mul, hcorner, hother]
  rfl

/-! ## Positions -/

/-- Positions that show the same board but for kings that castle no more, after a move of the
same name. -/
structure Continues (lost : Side → Bool) (p q : Position) : Prop where
  board : Retired lost p.board q.board
  moveName : moveName p = moveName q

/-- Two positions in which the same side moves, on boards that are the same but for kings that
castle no more, and with the same captures en passant. -/
structure Alike (lost : Side → Bool) (p q : Position) : Prop where
  size : p.size = boardSize
  size' : q.size = boardSize
  mover : q.mover = p.mover
  board : Retired lost p.board q.board
  enPassant : ∀ s, enPassantTarget? q s = enPassantTarget? p s

namespace Alike

theorem continues_successor (h : Alike lost p q) {a b : Board} (hboard : Retired lost a b)
    (mover : Side) (code : Int) (s t : Square) :
    Continues lost (p.successor a mover ⟨code, s, t⟩)
      (q.successor b mover ⟨retire lost code, s, t⟩) := by
  refine ⟨hboard, ?_⟩
  have hcell : ∀ (r : Position), r.size = boardSize → ∀ board last,
      (r.successor board mover last).cell t = look board t := by
    intro r hr board last
    unfold Position.cell Position.onBoard Position.read look
    rw [Position.successor_size, hr]
    rfl
  have hpromoted : ((retire lost code).natAbs = Kind.pawn.code ∧
        look b t ≠ retire lost code) ↔ (code.natAbs = Kind.pawn.code ∧ look a t ≠ code) := by
    rw [natAbs_retire_eq (by decide) (by decide)]
    apply and_congr_right
    intro hpawn
    obtain ⟨side, rfl⟩ := exists_side hpawn
    rw [retire_eq_self fun _ => by decide, ne_eq, hboard.look_eq_iff (by decide) (by decide)]
  unfold Chess.moveName
  dsimp only [Position.successor_last]
  simp only [hcell p h.size, hcell q h.size', hpromoted]

theorem move? (h : Alike lost p q) (hp : Agrees p g) (hlost : Forfeited lost p.board)
    (king : Option Square) (hs : OnBoard s) (hle : code.natAbs ≤ 8)
    (hcode : retire lost code = code) :
    Option.Rel (Continues lost) (move? p king s t code) (Chess.move? q king s t code) := by
  unfold Chess.move?
  by_cases hon : t.onBoard boardSize = true
  · have hafter := h.board.boardAfter hp hlost hs (onBoard_iff_laws.mp hon) hle hcode
    dsimp only
    rw [hon, h.board.look, sign_retire, h.board.look, hafter.inCheck_eq, h.mover]
    split
    · exact .none
    split
    · exact .none
    split
    · exact .none
    · exact .some (h.continues_successor hafter _ _ s t)
  · rw [Bool.not_eq_true] at hon
    rw [hon]
    exact .none

/-! ## Steps -/

theorem targets_eq (h : Alike lost p q) (s : Square) (k : Kind) :
    targets q s k = targets p s k := by
  have hslide : ∀ dirs n, slideTargets q.board s dirs n = slideTargets p.board s dirs n :=
    fun dirs n => congrArg (dirs.flatMap ·) (funext fun d => h.board.reach_eq)
  have hpawn : pawnTargets q s = pawnTargets p s := by
    have hsteps : pawnSteps q s = pawnSteps p s := by
      unfold pawnSteps
      simp only [h.mover, h.board.look_eq_zero]
    have hcaptures : pawnCaptures q s = pawnCaptures p s := by
      unfold pawnCaptures
      simp only [h.mover, h.board.look_eq_zero, ne_eq]
    rw [pawnTargets_eq, pawnTargets_eq, hsteps, hcaptures, h.enPassant]
  cases k <;> simp only [targets, hslide, hpawn]

theorem steps (h : Alike lost p q) (hp : Agrees p g) (hlost : Forfeited lost p.board)
    (king : Option Square) (hs : OnBoard s) (k : Kind) :
    List.Forall₂ (Continues lost) (steps p king s k) (Chess.steps q king s k) := by
  unfold Chess.steps
  rw [h.targets_eq, h.mover]
  refine List.rel_filterMap ?_ (List.forall₂_same.mpr fun t _ => rfl)
  rintro t _ rfl
  obtain ⟨j, hj, hunmoved⟩ := exists_arrivalCode k p.mover s t
  dsimp only
  rw [hj]
  exact h.move? hp hlost _ hs (natAbs_code_mul_le _ _) (retire_eq_self fun _ => hunmoved)

/-- The king that has moved takes the steps of the one that has not. -/
theorem steps_king (pos : Position) (king : Option Square) (s : Square) :
    Chess.steps pos king s .king = Chess.steps pos king s .unmovedKing :=
  rfl

/-! ## Castling -/

theorem wayFree_eq (h : Alike lost p q) (side : Side) (w : Wing) :
    wayFree q.board side w = wayFree p.board side w := by
  have hempty : ∀ s, (look q.board s == 0) = (look p.board s == 0) := fun s => by
    rw [Bool.eq_iff_iff, beq_iff_eq, beq_iff_eq, h.board.look_eq_zero]
  unfold wayFree
  simp only [hempty]

theorem castle? (h : Alike lost p q) (hmover : ¬ lost p.mover = true)
    (hking : look p.board (kingHome p.mover) = Kind.unmovedKing.code * p.mover.sign) (w : Wing) :
    Option.Rel (Continues lost) (castle? p (kingHome p.mover) (w.corner p.mover).x w.direction)
      (Chess.castle? q (kingHome p.mover) (w.corner p.mover).x w.direction) := by
  have hking' : look q.board (kingHome p.mover) = Kind.unmovedKing.code * p.mover.sign := by
    rw [h.board.look, hking, retire_eq_self fun hgone => absurd hgone hmover]
  have hpassing := h.board.passingBoard p.mover w
  have hcastled := h.board.castledBoard p.mover w
  rw [castle?_eq hking, castle?_eq hking', h.board.attacked_eq, h.wayFree_eq, hpassing.attacked_eq,
    hcastled.attacked_eq, h.mover]
  simp only [ne_eq, h.board.natAbs_look_eq (k := .unmovedRook) (by decide) (by decide)]
  split
  · exact .none
  split
  · exact .none
  split
  · exact .none
  · have hnext := h.continues_successor hcastled p.mover.opponent
      (Kind.king.code * p.mover.sign) (kingHome p.mover) (w.arrival p.mover)
    rw [retire_eq_self fun _ => by decide] at hnext
    exact .some hnext

theorem castlings (h : Alike lost p q) (hmover : ¬ lost p.mover = true)
    (hking : look p.board (kingHome p.mover) = Kind.unmovedKing.code * p.mover.sign) :
    List.Forall₂ (Continues lost) (castlings p (kingHome p.mover) .unmovedKing)
      (Chess.castlings q (kingHome p.mover) .unmovedKing) := by
  have htoList : ∀ {a b : Option Position}, Option.Rel (Continues lost) a b →
      List.Forall₂ (Continues lost) a.toList b.toList := by
    rintro a b (hab | -)
    · exact .cons hab .nil
    · exact .nil
  exact List.rel_append (htoList (h.castle? hmover hking .queenside))
    (htoList (h.castle? hmover hking .kingside))

theorem castlings_eq_nil (hlost : Forfeited lost p.board) (hp : Agrees p g)
    (hmover : lost p.mover = true)
    (hking : look p.board (kingHome p.mover) = Kind.unmovedKing.code * p.mover.sign) :
    Chess.castlings p (kingHome p.mover) .unmovedKing = [] := by
  have hnone : ∀ w : Wing,
      Chess.castle? p (kingHome p.mover) (w.corner p.mover).x w.direction = none := by
    intro w
    rw [castle?_eq hking, if_pos]
    exact .inl (mt (hp.natAbs_look_corner w p.mover).mp (hlost p.mover hmover w))
  have hqueenside : Chess.castle? p (kingHome p.mover) 0 (-1) = none := hnone .queenside
  have hkingside : Chess.castle? p (kingHome p.mover) 7 1 = none := hnone .kingside
  unfold Chess.castlings
  dsimp only
  rw [hqueenside, hkingside]
  rfl

/-! ## Moves -/

theorem movesFrom (h : Alike lost p q) (hp : Agrees p g) (hlost : Forfeited lost p.board)
    (king : Option Square) (hs : OnBoard s) :
    List.Forall₂ (Continues lost) (movesFrom p king s) (Chess.movesFrom q king s) := by
  by_cases hown : ∃ k : Kind, look p.board s = k.code * p.mover.sign
  · obtain ⟨k, hk⟩ := hown
    have hk' := h.board.look s
    rw [hk, retire_code] at hk'
    by_cases hretired : k = .unmovedKing ∧ lost p.mover = true
    · obtain ⟨rfl, hmover⟩ := hretired
      rw [if_pos ⟨rfl, hmover⟩, ← h.mover] at hk'
      obtain rfl := hp.unmovedKing _ _ hk
      rw [movesFrom_eq hk, movesFrom_eq hk', castlings_eq_nil hlost hp hmover hk, steps_king]
      exact List.rel_append (h.steps hp hlost king hs .unmovedKing) .nil
    · rw [if_neg hretired, ← h.mover] at hk'
      rw [movesFrom_eq hk, movesFrom_eq hk']
      refine List.rel_append (h.steps hp hlost king hs k) ?_
      by_cases hking : k = .unmovedKing
      · subst hking
        obtain rfl := hp.unmovedKing _ _ hk
        exact h.castlings (fun hmover => hretired ⟨rfl, hmover⟩) hk
      · cases k
        case unmovedKing => exact absurd rfl hking
        all_goals exact .nil
  · have hown' : ∀ k : Kind, look q.board s ≠ k.code * q.mover.sign := by
      intro k hk
      rw [h.board.look, h.mover] at hk
      rcases retire_cases lost (look p.board s) with heq | ⟨owner, hking, heq⟩
      · exact hown ⟨k, heq ▸ hk⟩
      · rw [heq] at hk
        exact hown ⟨.unmovedKing, (code_mul_inj hk).2 ▸ hking⟩
    rw [movesFrom_of_ne hs (not_exists.mp hown), movesFrom_of_ne hs hown']
    exact .nil

/-- Positions that are alike have the same moves in the same order. -/
theorem successors (h : Alike lost p q) (hp : Agrees p g) (hg : Sound g)
    (hlost : Forfeited lost p.board) :
    List.Forall₂ (Continues lost) (successors p) (Chess.successors q) := by
  have hking : kingSquare? q.board q.mover = kingSquare? p.board p.mover := by
    obtain ⟨k, hk⟩ := hg.king p.mover
    rw [← hp.placement] at hk
    rw [h.mover, kingSquare?_eq hp.board hk, kingSquare?_eq h.board.right]
    rw [h.board.placement]
    exact hk
  unfold Chess.successors
  dsimp only
  rw [hking]
  refine List.rel_flatMap (R := fun i j => i = j ∧ i < boardSize * boardSize) ?_ ?_
  · exact List.forall₂_same.mpr fun i hi => ⟨rfl, List.mem_range.mp hi⟩
  · rintro i _ ⟨rfl, hlt⟩
    dsimp only
    rw [Square.ofIndex_eq_ofCell (by decide) hlt]
    exact h.movesFrom hp hlost _ (onBoard_iff_laws.mp (Square.onBoard_ofCell hlt))

end Alike

end BoardGame.Chess
