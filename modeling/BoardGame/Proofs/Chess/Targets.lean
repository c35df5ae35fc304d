import Mathlib.Data.List.Nodup
import BoardGame.Proofs.Chess.Effect
import BoardGame.Proofs.Chess.Lines
/-!
# Targets

The squares that the engine tries for a man are those to which the laws let it move,
each listed once.
-/

namespace BoardGame.Chess

open Laws Square

/-! ## Pieces that are not pawns -/

section

variable {s t : Square} {side : Side}

theorem rook_reaches_iff :
    Piece.rook.Reaches side (t - s) ↔ ∃ d ∈ orthogonals, ∃ n, 0 < n ∧ t = ray s d n := by
  constructor
  · intro h
    obtain ⟨d, hd, n, hn, rfl⟩ := exists_ray_of_reaches (by decide) h
    exact ⟨d, (rook_reaches_ray hd hn).mp h, n, hn, rfl⟩
  · rintro ⟨d, hd, n, hn, rfl⟩
    exact (rook_reaches_ray (orthogonals_subset hd) hn).mpr hd

theorem bishop_reaches_iff :
    Piece.bishop.Reaches side (t - s) ↔ ∃ d ∈ diagonals, ∃ n, 0 < n ∧ t = ray s d n := by
  constructor
  · intro h
    obtain ⟨d, hd, n, hn, rfl⟩ := exists_ray_of_reaches (by decide) h
    exact ⟨d, (bishop_reaches_ray hd hn).mp h, n, hn, rfl⟩
  · rintro ⟨d, hd, n, hn, rfl⟩
    exact (bishop_reaches_ray (diagonals_subset hd) hn).mpr hd

theorem king_reaches_iff :
    Piece.king.Reaches side (t - s) ↔ ∃ d ∈ Square.directions, t = ray s d 1 := by
  constructor
  · intro h
    obtain ⟨d, hd, n, hn, rfl⟩ := exists_ray_of_reaches (by decide) h
    rw [king_reaches_ray hd] at h
    exact ⟨d, hd, by rw [h]⟩
  · rintro ⟨d, hd, rfl⟩
    exact (king_reaches_ray hd).mpr rfl

end

variable {board : Board} {s t : Square} {side : Side} {dirs : List Square} {n : Nat}

theorem mem_slideTargets (hboard : Valid board) (hs : OnBoard s)
    (hdirs : ∀ d ∈ dirs, d ∈ Square.directions) :
    t ∈ slideTargets board s dirs n ↔
      OnBoard t ∧ ∃ d ∈ dirs, ∃ k, (0 < k ∧ k ≤ n) ∧ t = ray s d k ∧
        Clear (placement board) s t := by
  have hfree : ∀ d ∈ dirs, ∀ k, 0 < k → OnBoard (ray s d k) →
      (Free board s d k ↔ Clear (placement board) s (ray s d k)) := by
    intro d hd k hk ht
    rw [clear_ray (hdirs d hd) hk]
    constructor
    · intro h i hi hik
      exact hboard.placement_eq_none.mpr (h i hi hik).2
    · intro h i hi hik
      refine ⟨?_, hboard.placement_eq_none.mp (h i hi hik)⟩
      rw [← onBoard_iff_laws] at hs ht ⊢
      exact onBoard_ray_of_le (hdirs d hd) hs ht (Nat.le_of_lt hik)
  unfold slideTargets
  rw [List.mem_flatMap]
  constructor
  · rintro ⟨d, hd, h⟩
    obtain ⟨k, hk, rfl, ht, hpath⟩ := mem_reach.mp h
    exact ⟨ht, d, hd, k, hk, rfl, (hfree d hd k hk.1 ht).mp hpath⟩
  · rintro ⟨ht, d, hd, k, hk, rfl, hclear⟩
    exact ⟨d, hd, mem_reach.mpr ⟨k, hk, rfl, ht, (hfree d hd k hk.1 ht).mpr hclear⟩⟩

theorem mem_slideTargets_seven (hboard : Valid board) (hs : OnBoard s)
    (hdirs : ∀ d ∈ dirs, d ∈ Square.directions) (ht : OnBoard t) :
    t ∈ slideTargets board s dirs 7 ↔
      (∃ d ∈ dirs, ∃ k, 0 < k ∧ t = ray s d k) ∧ Clear (placement board) s t := by
  rw [mem_slideTargets hboard hs hdirs]
  constructor
  · rintro ⟨-, d, hd, k, hk, heq, hclear⟩
    exact ⟨⟨d, hd, k, hk.1, heq⟩, hclear⟩
  · rintro ⟨⟨d, hd, k, hk, heq⟩, hclear⟩
    have hlt : k < boardSize := by
      rw [heq, ← onBoard_iff_laws] at ht
      exact lt_of_onBoard_ray (hdirs d hd) (onBoard_iff_laws.mpr hs) ht
    exact ⟨ht, d, hd, k, ⟨hk, Nat.le_of_lt_succ hlt⟩, heq, hclear⟩

theorem slideTargets_append (board : Board) (s : Square) (dirs dirs' : List Square) (n : Nat) :
    slideTargets board s dirs n ++ slideTargets board s dirs' n =
      slideTargets board s (dirs ++ dirs') n :=
  List.flatMap_append.symm

/-- The squares that the engine tries for a man, castling apart. -/
def targets (pos : Position) (s : Square) : Kind → List Square
  | .pawn => pawnTargets pos s
  | .knight => knightJumps.map (s + ·)
  | .bishop => slideTargets pos.board s diagonals 7
  | .rook | .unmovedRook => slideTargets pos.board s orthogonals 7
  | .queen => slideTargets pos.board s orthogonals 7 ++ slideTargets pos.board s diagonals 7
  | .king | .unmovedKing =>
    slideTargets pos.board s orthogonals 1 ++ slideTargets pos.board s diagonals 1

theorem mem_targets {pos : Position} (hboard : Valid pos.board) (hs : OnBoard s) (ht : OnBoard t)
    {k : Kind} (hk : k ≠ .pawn) :
    t ∈ targets pos s k ↔
      k.piece.Reaches side (t - s) ∧ Clear (placement pos.board) s t := by
  have hrook : t ∈ slideTargets pos.board s orthogonals 7 ↔
      Piece.rook.Reaches side (t - s) ∧ Clear (placement pos.board) s t := by
    rw [mem_slideTargets_seven hboard hs (fun d => orthogonals_subset) ht, rook_reaches_iff]
  have hbishop : t ∈ slideTargets pos.board s diagonals 7 ↔
      Piece.bishop.Reaches side (t - s) ∧ Clear (placement pos.board) s t := by
    rw [mem_slideTargets_seven hboard hs (fun d => diagonals_subset) ht, bishop_reaches_iff]
  have hking : t ∈ slideTargets pos.board s orthogonals 1 ++ slideTargets pos.board s diagonals 1 ↔
      Piece.king.Reaches side (t - s) ∧ Clear (placement pos.board) s t := by
    rw [slideTargets_append, ← directions_eq, mem_slideTargets hboard hs fun d hd => hd,
      king_reaches_iff]
    constructor
    · rintro ⟨-, d, hd, j, hj, heq, hclear⟩
      have hone : j = 1 := by omega
      exact ⟨⟨d, hd, hone ▸ heq⟩, hclear⟩
    · rintro ⟨⟨d, hd, heq⟩, hclear⟩
      exact ⟨ht, d, hd, 1, by omega, heq, hclear⟩
  cases k
  case pawn => exact absurd rfl hk
  case knight =>
    show t ∈ knightJumps.map (s + ·) ↔ Piece.knight.Reaches side (t - s) ∧ _
    rw [and_iff_left_of_imp clear_of_knight, knight_reaches_iff, List.mem_map]
    constructor
    · rintro ⟨j, hj, rfl⟩
      exact ⟨j, hj, rfl⟩
    · rintro ⟨j, hj, rfl⟩
      exact ⟨j, hj, rfl⟩
  case bishop => exact hbishop
  case rook => exact hrook
  case unmovedRook => exact hrook
  case queen =>
    show t ∈ _ ++ _ ↔ Piece.queen.Reaches side (t - s) ∧ _
    rw [List.mem_append, hrook, hbishop, queen_reaches_iff, or_and_right]
  case king => exact hking
  case unmovedKing => exact hking

/-! ## Pawns -/

def pawnSteps (pos : Position) (s : Square) : List Square :=
  let sign := pos.mover.sign
  let ahead : Square := ⟨s.x, s.y + sign⟩
  let twoAhead : Square := ⟨s.x, s.y + 2 * sign⟩
  if ahead.onBoard boardSize ∧ look pos.board ahead = 0 then
    if (s.y = sign ∨ s.y = 7 + sign) ∧ look pos.board twoAhead = 0 then [twoAhead, ahead]
    else [ahead]
  else []

def pawnCaptures (pos : Position) (s : Square) : List Square :=
  [-1, 1].filterMap fun (dx : Int) =>
    let target : Square := ⟨s.x + dx, s.y + pos.mover.sign⟩
    if look pos.board target ≠ 0 then some target else none

theorem pawnTargets_eq (pos : Position) (s : Square) :
    pawnTargets pos s = pawnSteps pos s ++ pawnCaptures pos s ++ (enPassantTarget? pos s).toList :=
  rfl

variable {pos : Position} {g : State}

theorem square_eq_iff {x y : Int} : t = ⟨x, y⟩ ↔ t.x = x ∧ t.y = y := by
  obtain ⟨tx, ty⟩ := t
  rw [Square.mk.injEq]

theorem mem_pawnSteps_iff (hs : OnBoard s) (ht : OnBoard t) :
    t ∈ pawnSteps pos s ↔
      (t = ⟨s.x, s.y + pos.mover.sign⟩ ∧ look pos.board t = 0) ∨
      (s.y = home pos.mover + pos.mover.sign ∧ t = ⟨s.x, s.y + 2 * pos.mover.sign⟩ ∧
        look pos.board ⟨s.x, s.y + pos.mover.sign⟩ = 0 ∧ look pos.board t = 0) := by
  have hside := home_cases pos.mover
  have hrank : (s.y = pos.mover.sign ∨ s.y = 7 + pos.mover.sign) ↔
      s.y = home pos.mover + pos.mover.sign := by
    unfold OnBoard at hs
    omega
  unfold pawnSteps
  dsimp only
  simp only [hrank, onBoard_iff_laws]
  by_cases hahead : OnBoard ⟨s.x, s.y + pos.mover.sign⟩ ∧
      look pos.board ⟨s.x, s.y + pos.mover.sign⟩ = 0
  · rw [if_pos hahead]
    by_cases htwo : s.y = home pos.mover + pos.mover.sign ∧
        look pos.board ⟨s.x, s.y + 2 * pos.mover.sign⟩ = 0
    · rw [if_pos htwo, List.mem_cons, List.mem_singleton]
      constructor
      · rintro (rfl | rfl)
        · exact .inr ⟨htwo.1, rfl, hahead.2, htwo.2⟩
        · exact .inl ⟨rfl, hahead.2⟩
      · rintro (⟨rfl, -⟩ | ⟨-, rfl, -⟩)
        · exact .inr rfl
        · exact .inl rfl
    · rw [if_neg htwo, List.mem_singleton]
      constructor
      · rintro rfl
        exact .inl ⟨rfl, hahead.2⟩
      · rintro (⟨rfl, -⟩ | ⟨hhome, rfl, -, hnone⟩)
        · rfl
        · exact absurd ⟨hhome, hnone⟩ htwo
  · rw [if_neg hahead]
    simp only [List.not_mem_nil, false_iff]
    rintro (⟨rfl, hnone⟩ | ⟨-, rfl, hnone, -⟩)
    · exact hahead ⟨ht, hnone⟩
    · refine hahead ⟨?_, hnone⟩
      unfold OnBoard at hs ht ⊢
      simp only at ht ⊢
      omega

theorem mem_pawnSteps (h : Agrees pos g) (hs : OnBoard s) (ht : OnBoard t) :
    t ∈ pawnSteps pos s ↔
      (t = ⟨s.x, s.y + g.turn.sign⟩ ∧ g.placement t = none) ∨
      (s.y = home g.turn + g.turn.sign ∧ t = ⟨s.x, s.y + 2 * g.turn.sign⟩ ∧
        g.placement ⟨s.x, s.y + g.turn.sign⟩ = none ∧ g.placement t = none) := by
  rw [mem_pawnSteps_iff hs ht, h.mover]
  simp only [h.look_eq_zero]

theorem mem_pawnCaptures_iff :
    t ∈ pawnCaptures pos s ↔ Piece.pawn.Reaches pos.mover (t - s) ∧ look pos.board t ≠ 0 := by
  have hreaches : Piece.pawn.Reaches pos.mover (t - s) ↔
      ∃ dx ∈ ([-1, 1] : List Int), t = ⟨s.x + dx, s.y + pos.mover.sign⟩ := by
    simp only [List.mem_cons, List.not_mem_nil, or_false, exists_eq_or_imp, exists_eq_left,
      square_eq_iff, Piece.Reaches, sub_x, sub_y]
    omega
  unfold pawnCaptures
  simp only [List.mem_filterMap, hreaches, Option.ite_none_right_eq_some, Option.some.injEq, ne_eq]
  constructor
  · rintro ⟨dx, hdx, hocc, rfl⟩
    exact ⟨⟨dx, hdx, rfl⟩, hocc⟩
  · rintro ⟨⟨dx, hdx, rfl⟩, hocc⟩
    exact ⟨dx, hdx, hocc, rfl⟩

theorem mem_pawnCaptures (h : Agrees pos g) :
    t ∈ pawnCaptures pos s ↔ Piece.pawn.Reaches g.turn (t - s) ∧ g.placement t ≠ none := by
  rw [mem_pawnCaptures_iff, h.mover, ne_eq, h.look_eq_zero]

/-- What a pawn that stands where the latest move led can only have done. -/
theorem doubleStep_of_last (h : Agrees pos g) (hg : Sound g)
    (hdouble : (pos.last.origin.y = 1 ∧ pos.last.target.y = 3) ∨
      (pos.last.origin.y = 6 ∧ pos.last.target.y = 4))
    (hpawn : ((look pos.board pos.last.target).natAbs : Int) = Kind.pawn.code) :
    g.record.head? = some ⟨pos.last.origin, pos.last.target⟩ ∧
      g.placement pos.last.target = some ⟨g.turn.opponent, .pawn⟩ ∧
      pos.last.target = ⟨pos.last.origin.x, pos.last.origin.y - 2 * g.turn.sign⟩ ∧
      g.placement ⟨pos.last.origin.x, pos.last.origin.y - g.turn.sign⟩ = none := by
  cases hrecord : g.record.head? with
  | none =>
      -- no move has been played, and no step leads from nowhere
      rw [h.no_last (List.head?_eq_none_iff.mp hrecord)] at hdouble
      exfalso
      revert hdouble
      decide
  | some m =>
      obtain rfl := h.last m hrecord
      obtain ⟨side, hk⟩ := exists_side hpawn
      have hman : g.placement pos.last.target = some ⟨side, .pawn⟩ := h.placement_of_look hk
      have htwo : (pos.last.target.y - pos.last.origin.y).natAbs = 2 := by omega
      obtain ⟨rfl, hmove, -, -, hpassed⟩ := hg.doubleStep _ hrecord side hman htwo
      rw [Side.sign_opponent] at hmove hpassed
      refine ⟨rfl, hman, ?_, ?_⟩
      · rw [Int.sub_eq_add_neg, ← Int.mul_neg]
        exact hmove
      · rw [Int.sub_eq_add_neg]
        exact hpassed

theorem enPassantTarget?_eq_some (h : Agrees pos g) (hg : Sound g) :
    enPassantTarget? pos s = some t ↔
      Piece.pawn.Reaches g.turn (t - s) ∧ g.placement t = none ∧
      g.record.head? = some ⟨⟨t.x, s.y + 2 * g.turn.sign⟩, ⟨t.x, s.y⟩⟩ ∧
      g.placement ⟨t.x, s.y⟩ = some ⟨g.turn.opponent, .pawn⟩ := by
  unfold enPassantTarget?
  simp only [h.mover, Option.ite_none_right_eq_some, Option.some.injEq]
  constructor
  · rintro ⟨⟨hdouble, hpawn, hy, hx⟩, rfl⟩
    obtain ⟨hrecord, hman, htarget, hpassed⟩ := doubleStep_of_last h hg hdouble hpawn
    have hsign := Side.sign_cases g.turn
    obtain ⟨htx, hty⟩ := square_eq_iff.mp htarget
    have hbehind : (⟨pos.last.target.x, s.y + g.turn.sign⟩ : Square) =
        ⟨pos.last.origin.x, pos.last.origin.y - g.turn.sign⟩ := by
      rw [Square.mk.injEq]
      omega
    have hbeside : (⟨pos.last.target.x, s.y⟩ : Square) = pos.last.target := by rw [hy]
    have horigin : (⟨pos.last.target.x, s.y + 2 * g.turn.sign⟩ : Square) = pos.last.origin := by
      symm
      rw [square_eq_iff]
      omega
    simp only
    rw [hbeside, horigin, hbehind]
    refine ⟨?_, hpassed, hrecord, hman⟩
    simp only [Piece.Reaches, sub_x, sub_y]
    omega
  · rintro ⟨hreach, hnone, hrecord, hpawn⟩
    have hlast := h.last _ hrecord
    have horigin : pos.last.origin = ⟨t.x, s.y + 2 * g.turn.sign⟩ := congrArg Move.origin hlast
    have htarget : pos.last.target = ⟨t.x, s.y⟩ := congrArg Move.target hlast
    have hsign := home_cases g.turn
    have htwo : (s.y - (s.y + 2 * g.turn.sign)).natAbs = 2 := by omega
    obtain ⟨-, -, hhome, -⟩ := hg.doubleStep _ hrecord _ hpawn htwo
    rw [home_opponent, Side.sign_opponent] at hhome
    simp only [Piece.Reaches, sub_x, sub_y] at hreach
    rw [horigin, htarget]
    simp only at hhome ⊢
    refine ⟨⟨?_, (h.natAbs_look_eq_pawn hpawn).mpr rfl, trivial, ?_⟩, ?_⟩
    · omega
    · omega
    · symm
      rw [square_eq_iff]
      exact ⟨rfl, by omega⟩

/-- The engine and the laws agree on the moves of a pawn. -/
theorem mem_pawnTargets (h : Agrees pos g) (hg : Sound g) (hs : OnBoard s) (ht : OnBoard t) :
    t ∈ pawnTargets pos s ↔ g.PawnMoves ⟨s, t⟩ := by
  rw [pawnTargets_eq, List.mem_append, List.mem_append, mem_pawnSteps h hs ht, mem_pawnCaptures h,
    Option.mem_toList, enPassantTarget?_eq_some h hg, or_assoc, or_assoc]
  rfl

/-! ## Every target once -/

theorem nodup_reach (board : Board) {d : Square} (hd : d ∈ Square.directions) (s : Square)
    (n : Nat) : (reach board s d n).Nodup := by
  induction n generalizing s with
  | zero => exact List.nodup_nil
  | succ n ih =>
      unfold reach
      dsimp only
      split
      · exact List.nodup_nil
      · split
        · exact List.nodup_singleton _
        · refine List.nodup_cons.mpr ⟨?_, ih (s + d)⟩
          intro hmem
          obtain ⟨k, hk, heq, -⟩ := mem_reach.mp hmem
          exact ray_ne_self hd hk.1 heq.symm

theorem nodup_slideTargets (board : Board) (s : Square) {dirs : List Square}
    (hdirs : ∀ d ∈ dirs, d ∈ Square.directions) (hnodup : dirs.Nodup) (n : Nat) :
    (slideTargets board s dirs n).Nodup := by
  unfold slideTargets
  rw [List.nodup_flatMap]
  refine ⟨fun d hd => nodup_reach board (hdirs d hd) s n, ?_⟩
  apply hnodup.imp_of_mem
  intro d e hd he hne t htd hte
  obtain ⟨i, hi, hti, -⟩ := mem_reach.mp htd
  obtain ⟨j, hj, htj, -⟩ := mem_reach.mp hte
  exact hne (ray_inj (hdirs d hd) (hdirs e he) hi.1 hj.1 (hti.symm.trans htj)).1

theorem nodup_directions : Square.directions.Nodup := by
  decide

theorem x_of_mem_pawnSteps (h : t ∈ pawnSteps pos s) : t.x = s.x := by
  unfold pawnSteps at h
  dsimp only at h
  split at h
  · split at h
    · rcases List.mem_cons.mp h with rfl | h
      · rfl
      · rw [List.mem_singleton.mp h]
    · rw [List.mem_singleton.mp h]
  · cases h

theorem nodup_pawnSteps_append (pos : Position) (s : Square) :
    (pawnSteps pos s ++ pawnCaptures pos s).Nodup := by
  have hsteps : (pawnSteps pos s).Nodup := by
    have hsign := Side.sign_cases pos.mover
    unfold pawnSteps
    dsimp only
    split
    · split
      · refine List.nodup_cons.mpr ⟨?_, List.nodup_singleton _⟩
        rw [List.mem_singleton, Square.mk.injEq]
        omega
      · exact List.nodup_singleton _
    · exact List.nodup_nil
  have hcaptures : (pawnCaptures pos s).Nodup := by
    unfold pawnCaptures
    apply List.Nodup.filterMap
    · intro a b t ha hb
      simp only [Option.mem_def, Option.ite_none_right_eq_some, Option.some.injEq] at ha hb
      have hx := congrArg Square.x (ha.2.trans hb.2.symm)
      simp only at hx
      omega
    · decide
  refine List.nodup_append.mpr ⟨hsteps, hcaptures, ?_⟩
  intro a ha b hb hab
  have hax := x_of_mem_pawnSteps ha
  have hbx := (mem_pawnCaptures_iff.mp hb).1.1
  rw [← hab, sub_x] at hbx
  omega

theorem reaches_of_enPassantTarget? (h : enPassantTarget? pos s = some t) :
    Piece.pawn.Reaches pos.mover (t - s) := by
  unfold enPassantTarget? at h
  simp only [Option.ite_none_right_eq_some, Option.some.injEq] at h
  obtain ⟨⟨-, -, -, hx⟩, rfl⟩ := h
  simp only [Piece.Reaches, sub_x, sub_y]
  omega

/-- The square of an en passant capture is tried for another move as well if it is occupied. -/
theorem mem_pawnSteps_append_iff (h : enPassantTarget? pos s = some t) :
    t ∈ pawnSteps pos s ++ pawnCaptures pos s ↔ look pos.board t ≠ 0 := by
  have hreach := reaches_of_enPassantTarget? h
  have hahead : t ∉ pawnSteps pos s := by
    intro hmem
    have hx := x_of_mem_pawnSteps hmem
    have hbeside := hreach.1
    rw [sub_x] at hbeside
    omega
  rw [List.mem_append, or_iff_right hahead, mem_pawnCaptures_iff, and_iff_right hreach]

theorem nodup_targets {k : Kind} (hk : k ≠ .pawn) : (targets pos s k).Nodup := by
  have horthogonals : orthogonals.Nodup := by decide
  have hdiagonals : diagonals.Nodup := by decide
  cases k <;> unfold targets
  case pawn => exact absurd rfl hk
  case knight =>
    have hjumps : knightJumps.Nodup := by decide
    apply hjumps.map
    intro a b hab
    obtain ⟨x, y⟩ := a
    obtain ⟨x', y'⟩ := b
    have hx := congrArg Square.x hab
    have hy := congrArg Square.y hab
    simp only [add_x, add_y] at hx hy
    rw [Square.mk.injEq]
    omega
  case bishop => exact nodup_slideTargets _ s (fun d => diagonals_subset) hdiagonals 7
  case rook => exact nodup_slideTargets _ s (fun d => orthogonals_subset) horthogonals 7
  case unmovedRook => exact nodup_slideTargets _ s (fun d => orthogonals_subset) horthogonals 7
  all_goals
    dsimp only
    rw [slideTargets_append, ← directions_eq]
    exact nodup_slideTargets _ s (fun d hd => hd) nodup_directions _

end BoardGame.Chess
