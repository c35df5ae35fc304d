import BoardGame.Proofs.Chess.Castling.Rights
import BoardGame.Proofs.Chess.Fen.Likeness
import BoardGame.Proofs.Chess.Fen.Record
import BoardGame.Proofs.Games
/-!
# Play goes on from a record

A record leaves out how a position came about. What it leaves out decides no move: a king
without rights castles as little as one that has moved, and the last move matters only if it
was a pawn's double step, which is written.
-/

namespace BoardGame.Chess

open Laws Fen

variable {p next : Position} {moves : List Move} {g : State}

/-! ## The last move -/

/-- A pawn has moved two ranks. -/
def DoubleStep (last : LastMove) : Prop :=
  (last.piece.natAbs : Int) = Kind.pawn.code ∧ (last.target.y - last.origin.y).natAbs = 2

instance (last : LastMove) : Decidable (DoubleStep last) :=
  inferInstanceAs (Decidable (_ ∧ _))

theorem Agrees.piece_of_mem_successors (h : Agrees p g) (hg : Sound g)
    (hnext : next ∈ successors p) :
    ∃ k : Kind, next.last.piece = k.code * g.turn.sign ∧
      g.placement next.last.origin = some ⟨g.turn, k.piece⟩ := by
  obtain ⟨s, hon, hmem⟩ := mem_successors.mp hnext
  obtain ⟨k, hk, hstep | hcastle⟩ := exists_kind_of_mem hon hmem
  · rw [h.mover] at hk
    obtain ⟨t, -, -, -, hmove⟩ := moveOf_of_mem_steps hstep
    obtain ⟨-, -, -, rfl⟩ := move?_eq_some.mp hmove
    exact ⟨k, hk, h.placement_of_look hk⟩
  · obtain ⟨rfl, -⟩ := mem_castlings_cases hcastle
    rw [h.mover] at hk
    obtain ⟨w, -, rfl⟩ := (h.mem_castlings hg hk).mp hcastle
    have hman := h.placement_of_look hk
    rw [h.unmovedKing _ _ hk] at hman
    exact ⟨.king, rfl, hman⟩

theorem arriving_of_two_ranks {m : Move} (hm : g.Moves m)
    (hpawn : g.placement m.origin = some ⟨g.turn, .pawn⟩)
    (htwo : (m.target.y - m.origin.y).natAbs = 2) : g.arriving m = some ⟨g.turn, .pawn⟩ := by
  have hhome := home_cases g.turn
  rw [State.arriving, if_neg, hpawn]
  rintro ⟨-, hlast⟩
  rw [home_opponent] at hlast
  rcases Sound.pawn_ahead (hm.pawnMoves hpawn) with hone | ⟨horigin, -⟩
  · omega
  · omega

/-- A double step as the position shows it. -/
structure Stepped (p : Position) (side : Side) (x : Int) : Prop where
  mover : p.mover = side.opponent
  last : p.last = ⟨Kind.pawn.code * side.sign, ⟨x, home side + side.sign⟩,
    ⟨x, home side + 3 * side.sign⟩⟩
  pawn : look p.board ⟨x, home side + 3 * side.sign⟩ = Kind.pawn.code * side.sign

theorem stepped_of_doubleStep (h : Played p moves) (hstep : DoubleStep p.last) :
    ∃ side x, Stepped p side x := by
  obtain ⟨hafter, hsound'⟩ := agrees_of_played h
  obtain ⟨hpawn, htwo⟩ := hstep
  cases h with
  | initial h =>
      rw [initial_eq] at h
      cases h
      exact absurd hpawn (by decide)
  | @step before _ moves _ h hs hmem =>
      obtain ⟨hagrees, hsound⟩ := agrees_of_played h
      rw [hagrees.successors_eq] at hs
      cases hs
      obtain ⟨hlegal, -⟩ := hagrees.of_mem_successors hsound hmem
      obtain ⟨k, hk, hman⟩ := hagrees.piece_of_mem_successors hsound hmem
      rw [hk, natAbs_code_mul] at hpawn
      obtain rfl := Kind.code_injective hpawn
      have harrived : (replay (moveOf p :: moves)).placement p.last.target =
          some ⟨(replay moves).turn, .pawn⟩ :=
        hlegal.1.placementAfter_target.trans (arriving_of_two_ranks hlegal.1 hman htwo)
      obtain ⟨-, htarget, horigin, -⟩ := hsound'.doubleStep _ rfl _ harrived htwo
      have hlook := look_eq_of_natAbs hafter.board ((hafter.natAbs_look_eq_pawn harrived).mpr rfl)
        (hafter.placement ▸ harrived) rfl
      have horigin' : p.last.origin = ⟨p.last.origin.x,
          home (replay moves).turn + (replay moves).turn.sign⟩ := square_eq_iff.mpr ⟨rfl, horigin⟩
      have htarget' : p.last.target = ⟨p.last.origin.x,
          home (replay moves).turn + 3 * (replay moves).turn.sign⟩ := by
        refine (htarget : p.last.target = _).trans (Square.mk.injEq .. ▸ ⟨rfl, ?_⟩)
        rw [horigin]
        omega
      refine ⟨_, p.last.origin.x, hafter.mover, ?_, htarget' ▸ hlook⟩
      rw [← hk, ← horigin', ← htarget']

/-- The pawn that may be captured en passant has just made a double step. -/
theorem doubleStep_of_pawn (h : Played p moves)
    (hranks : (p.last.origin.y = 1 ∧ p.last.target.y = 3) ∨
      (p.last.origin.y = 6 ∧ p.last.target.y = 4))
    (hpawn : ((look p.board p.last.target).natAbs : Int) = Kind.pawn.code) :
    DoubleStep p.last := by
  refine ⟨?_, by omega⟩
  obtain ⟨hafter, -⟩ := agrees_of_played h
  cases h with
  | initial h =>
      rw [initial_eq] at h
      cases h
      exact absurd hranks (by decide)
  | @step before _ moves _ h hs hmem =>
      obtain ⟨hagrees, hsound⟩ := agrees_of_played h
      rw [hagrees.successors_eq] at hs
      cases hs
      obtain ⟨hlegal, -⟩ := hagrees.of_mem_successors hsound hmem
      obtain ⟨k, hk, hman⟩ := hagrees.piece_of_mem_successors hsound hmem
      obtain ⟨side, hlook⟩ := exists_side hpawn
      have harrived : (replay moves).arriving (moveOf p) = some ⟨side, .pawn⟩ :=
        hlegal.1.placementAfter_target.symm.trans (hafter.placement_of_look hlook)
      obtain ⟨-, horigin, -⟩ := Sound.pawnMoves_of_arriving hlegal.1 harrived
      have hpiece : k.piece = .pawn :=
        congrArg Man.piece (Option.some.inj (hman.symm.trans horigin))
      rw [hk, natAbs_code_mul]
      cases k
      case pawn => rfl
      all_goals cases hpiece

/-! ## Rights -/

/-- Whether a side has no castling right left. -/
def rightless (board : Board) (side : Side) : Bool :=
  !Right.all.any fun r => r.side == side && r.held board

theorem rightless_eq_false {board : Board} {side : Side} :
    rightless board side = false ↔ ∃ r ∈ Right.all, r.side = side ∧ r.held board = true := by
  simp [rightless]

namespace Agrees

theorem exists_held (h : Agrees p g) {s : Square} {side : Side}
    (hs : look p.board s = Kind.unmovedRook.code * side.sign) :
    ∃ r ∈ Right.all, r.side = side ∧ r.held p.board = true ∧ s = r.rookHome := by
  obtain ⟨hking, w, rfl⟩ := h.unmovedRook _ _ hs
  obtain ⟨r, hr, rfl, hrook⟩ := Right.exists_right side w
  exact ⟨r, hr, rfl, Right.held_iff.mpr ⟨hrook ▸ hs, r.kingHome_eq ▸ hking⟩, hrook.symm⟩

theorem forfeited (h : Agrees p g) : Forfeited (rightless p.board) p.board := by
  intro side hside w hrook
  obtain ⟨r, hr, hr', hheld, -⟩ := h.exists_held hrook
  rw [rightless_eq_false.mpr ⟨r, hr, hr', hheld⟩] at hside
  cases hside

/-- The board of the record has kings that castle no more as ones that have moved. -/
theorem retired_heldBoard (h : Agrees p g) :
    Retired (rightless p.board) p.board (heldBoard p.board) where
  left := h.board
  right := valid_withRights h.board _
  look s := by
    rw [heldBoard, look_withRights]
    by_cases hzero : look p.board s = 0
    · rw [hzero, demote_zero, ite_self, retire_zero]
    obtain ⟨k, side, hk⟩ := exists_kind hzero (h.board.code_le s)
    by_cases hhome : ∃ r ∈ Right.all.filter fun r => r.held p.board, s ∈ r.homes
    · rw [if_pos hhome, hk, retire_eq_self]
      rintro hlost rfl
      obtain ⟨r, hr, hs⟩ := hhome
      obtain ⟨hmem, hheld⟩ := List.mem_filter.mp hr
      obtain ⟨hrook, hking⟩ := Right.held_iff.mp hheld
      have hside : r.side = side := by
        rcases Right.mem_homes.mp hs with rfl | rfl
        · exact (code_mul_inj (hking.symm.trans hk)).2
        · cases (code_mul_inj (hrook.symm.trans hk)).1
      rw [rightless_eq_false.mpr ⟨r, hmem, hside, hheld⟩] at hlost
      cases hlost
    · rw [if_neg hhome, hk, demote_code, retire_code]
      cases k
      case unmovedRook =>
        obtain ⟨r, hr, -, hheld, rfl⟩ := h.exists_held hk
        exact absurd ⟨r, List.mem_filter.mpr ⟨hr, hheld⟩, Right.mem_homes.mpr (.inr rfl)⟩ hhome
      case unmovedKing =>
        have hlost : rightless p.board side = true := by
          rw [← Bool.not_eq_false, rightless_eq_false]
          rintro ⟨r, hr, rfl, hheld⟩
          refine hhome ⟨r, List.mem_filter.mpr ⟨hr, hheld⟩, Right.mem_homes.mpr (.inl ?_)⟩
          rw [h.unmovedKing _ _ hk, r.kingHome_eq]
        exact (if_pos ⟨rfl, hlost⟩).symm
      all_goals rfl

end Agrees

/-! ## The square passed over -/

theorem Stepped.square {side : Side} {x : Int} (h : Stepped p side x) :
    ∃ passed : Square, OnBoard passed ∧ enPassantText p.last = passed.name ∧
      passed = ⟨x, home side + 2 * side.sign⟩ := by
  have hon := onBoard_of_look_eq h.pawn
  refine ⟨⟨x, home side + 2 * side.sign⟩, ?_, ?_, rfl⟩
  · have hhome := home_cases side
    unfold OnBoard at hon ⊢
    dsimp only at hon ⊢
    omega
  · rw [h.last]
    cases side <;> rfl

theorem enPassantText_eq_dash {last : LastMove} (h : ¬ DoubleStep last) :
    enPassantText last = "-" :=
  if_neg h

theorem isWord_enPassantText_of_played (h : Played p moves) :
    Text.IsWord (enPassantText p.last).toList := by
  by_cases hstep : DoubleStep p.last
  · obtain ⟨side, x, hstepped⟩ := stepped_of_doubleStep h hstep
    obtain ⟨passed, hon, htext, -⟩ := hstepped.square
    rw [htext]
    exact Square.isWord_name hon.1.1 hon.2.1 (by have := hon.1.2; omega)
  · rw [enPassantText_eq_dash hstep]
    exact Text.isWord_singleton (by decide)

/-- A double step is read again, and no other move is. -/
theorem lastMove_enPassantText_of_played (h : Played p moves) {board : Board}
    (hboard : Retired (rightless p.board) p.board board) :
    lastMove (enPassantText p.last).toList p.mover board =
      if DoubleStep p.last then p.last else .absent := by
  by_cases hstep : DoubleStep p.last
  · obtain ⟨side, x, hstepped⟩ := stepped_of_doubleStep h hstep
    obtain ⟨passed, hon, htext, hpassed⟩ := hstepped.square
    obtain ⟨hx, hy⟩ := hon
    have hpawn := (hboard.look_eq_iff (k := .pawn) (by decide) (by decide)).mpr hstepped.pawn
    rw [if_pos hstep, htext, hstepped.mover, hstepped.last]
    unfold lastMove
    rw [Square.parse?_name (by omega) (by omega), hpassed]
    cases side
    · exact if_pos ⟨rfl, hpawn⟩
    · exact if_pos ⟨rfl, hpawn⟩
  · rw [if_neg hstep, enPassantText_eq_dash hstep]
    rfl

/-! ## The position that is read -/

theorem depth_of_played (h : Played p moves) (hlt : moves.length ≤ maxDepth) :
    p.depth = moves.length ∧ p.mover = if moves.length % 2 = 0 then .white else .black := by
  induction h with
  | initial h =>
      rw [initial_eq] at h
      cases h
      exact ⟨rfl, rfl⟩
  | @step before next moves _ h hs hmem ih =>
      rw [List.length_cons] at hlt ⊢
      obtain ⟨hdepth, hmover⟩ := ih (by omega)
      obtain ⟨hagrees, hsound⟩ := agrees_of_played h
      rw [hagrees.successors_eq] at hs
      cases hs
      obtain ⟨-, hafter⟩ := hagrees.of_mem_successors hsound hmem
      refine ⟨?_, ?_⟩
      · rw [(follows_of_mem_successors hmem).depth_eq, hdepth]
        omega
      · rw [hafter.mover]
        show (replay moves).turn.opponent = _
        rw [← hagrees.mover, hmover]
        by_cases heven : moves.length % 2 = 0
        · rw [if_pos heven, if_neg (by omega)]
          rfl
        · rw [if_neg heven, if_pos (by omega)]
          rfl

theorem exists_depthOf (h : Played p moves) (hle : moves.length ≤ maxDepth) :
    ∃ number, depthOf number p.mover = .ok p.depth := by
  obtain ⟨hdepth, hmover⟩ := depth_of_played h hle
  refine ⟨moves.length / 2 + 1, depthOf_eq_ok.mpr ⟨?_, hdepth ▸ hle⟩⟩
  rw [hdepth, hmover]
  by_cases heven : moves.length % 2 = 0
  · rw [if_pos heven, if_pos rfl]
    omega
  · rw [if_neg heven, if_neg (by decide)]
    omega

theorem transcript_last (h : Played p moves) :
    (transcript p).last = if DoubleStep p.last then p.last else .absent :=
  lastMove_enPassantText_of_played h (agrees_of_played h).1.retired_heldBoard

theorem alike_transcript (h : Played p moves) :
    Alike (rightless p.board) p (transcript p) := by
  obtain ⟨hagrees, -⟩ := agrees_of_played h
  have hboard := hagrees.retired_heldBoard
  have hlast := transcript_last h
  refine ⟨hagrees.size, rfl, transcript_mover p, hboard, fun s => ?_⟩
  by_cases hstep : DoubleStep p.last
  · rw [if_pos hstep] at hlast
    unfold enPassantTarget?
    rw [hlast, transcript_mover, transcript_board]
    simp only [hboard.natAbs_look_eq (k := .pawn) (by decide) (by decide)]
  · rw [if_neg hstep] at hlast
    have hnone : enPassantTarget? p s = none := if_neg fun hopen =>
      hstep (doubleStep_of_pawn h hopen.1 hopen.2.1)
    rw [hnone]
    refine if_neg fun hopen => ?_
    rw [hlast] at hopen
    exact absurd hopen.1 (by decide)

/-- A record preserves play. It is read as the position that was written, but for kings that
castle no more and a last move that was no double step, and play goes on with the same moves
in the same order. -/
theorem play_goes_on (h : Played p moves) (hle : moves.length ≤ maxDepth) :
    ∃ t q, game.positionText p = some t ∧ game.readPosition t = .ok q ∧
      q.mover = p.mover ∧ q.depth = p.depth ∧
      q.board = p.board.map (retire (rightless p.board)) ∧
      q.last = (if DoubleStep p.last then p.last else .absent) ∧
      ∃ ps qs, game.successors p = .ok ps ∧ game.successors q = .ok qs ∧
        List.Forall₂ (fun r r' => game.moveName r' = game.moveName r ∧
          r'.board = r.board.map (retire (rightless p.board))) ps qs := by
  obtain ⟨hagrees, hsound⟩ := agrees_of_played h
  obtain ⟨number, hdepth⟩ := exists_depthOf h hle
  have hread : read (text p) = .ok (transcript p) :=
    read_text hagrees.board (isWord_enPassantText_of_played h) hdepth
  have halike := alike_transcript h
  have hsuccessors := halike.successors hagrees hsound hagrees.forfeited
  refine ⟨text p, transcript p, if_pos hagrees.size, Game.readPosition_chess hread,
    halike.mover, transcript_depth p, halike.board.eq_map, transcript_last h, successors p,
    successors (transcript p), hagrees.successors_eq, ?_, ?_⟩
  · exact Game.successors_chess halike.size'
  · exact hsuccessors.imp fun r r' hcontinues =>
      ⟨hcontinues.moveName.symm, hcontinues.board.eq_map⟩

theorem play_goes_on_opened :
    ∃ t q, game.positionText opened = some t ∧ game.readPosition t = .ok q ∧
      q.last = ⟨1, ⟨4, 1⟩, ⟨4, 3⟩⟩ ∧
      ∃ ps qs, game.successors opened = .ok ps ∧ game.successors q = .ok qs ∧
        List.Forall₂ (fun r r' => game.moveName r' = game.moveName r ∧
          r'.board = r.board.map (retire (rightless opened.board))) ps qs := by
  obtain ⟨t, q, ht, hq, -, -, -, hlast, hnext⟩ := play_goes_on played_opened (by decide)
  rw [if_pos (by decide)] at hlast
  exact ⟨t, q, ht, hq, hlast, hnext⟩

end BoardGame.Chess
