import BoardGame.Proofs.Chess.Names
import BoardGame.Proofs.Chess.Templates
/-!
# Two engines for chess

Without castling and en passant the two engines for chess play the same game, but for
check: the moves that the engine of its own finds are those of the template rules that
leave no king in check.
-/

namespace BoardGame.Chess

open Laws BuiltIn RuleSet

variable {pos next : Position} {kind : Kind} {side : Side} {s t : Square} {rule : MoveRule}
  {c : Candidate} {board : Board} {code code' : Int}

/-! ## Writes of the template rules -/

theorem jumpWrites_eq_nil (h : c.rule.jump = slide ∨ c.rule.jump = leap ∨ c.rule.jump = {}) :
    c.jumpWrites pos = [] := by
  have hnone (code : Int) : c.jumpedCode? code = none := by
    unfold Candidate.jumpedCode?
    cases Occupant.classify code c.piece <;> rcases h with h | h | h <;> rw [h] <;> rfl
  refine List.filterMap_eq_nil_iff.mpr fun s _ => ?_
  rw [hnone]
  exact ite_self none

theorem landWrites_eq (h : c.rule.land = quiet ∨ c.rule.land = take ∨ c.rule.land = quietOrTake)
    (hland : c.mayLand pos = true) (horigin : pos.onBoard c.origin = true) (name : String) :
    c.landWrites pos name (pos.read c.target) = .ok [⟨c.target, c.piece⟩, ⟨c.origin, 0⟩] := by
  have hdeparture : c.departure pos = [⟨c.origin, 0⟩] := if_pos horigin
  rw [Candidate.mayLand] at hland
  unfold Candidate.landWrites
  rw [hdeparture]
  generalize Occupant.classify (pos.read c.target) c.piece = occupant at hland ⊢
  revert hland
  rcases h with h | h | h <;> rw [h] <;> cases occupant <;>
    first
      | exact fun _ => rfl
      | exact fun hland => absurd hland (by decide)

theorem exchangeWrites_eq (h : rule.exchange = none ∨ rule.exchange = some "Q")
    (hrule : c.rule = rule) :
    c.exchangeWrites BuiltIn.chess side = .ok (if rule.exchange = none then []
      else [⟨c.target, Kind.queen.code * side.sign⟩]) := by
  unfold Candidate.exchangeWrites
  rw [hrule]
  rcases h with h | h <;> rw [h] <;> rfl

theorem writeAll_exchanged (hboard : Valid board) (hs : OnBoard s) (ht : OnBoard t) (hne : s ≠ t)
    (hcode : code.natAbs ≤ 8) (hcode' : code'.natAbs ≤ 8) :
    board.writeAll boardSize [⟨t, code⟩, ⟨s, 0⟩, ⟨t, code'⟩] = write (write board t code') s 0 := by
  have hzero : (0 : Int).natAbs ≤ 8 := by decide
  have hleft := ((hboard.write ht hcode).write hs hzero).write ht hcode'
  have hright := (hboard.write ht hcode').write hs hzero
  apply eq_of_look hleft hright
  intro u
  rw [((hboard.write ht hcode).write hs hzero).look_write ht, (hboard.write ht hcode).look_write hs,
    hboard.look_write ht, (hboard.write ht hcode').look_write hs, hboard.look_write ht]
  by_cases htarget : u = t
  · rw [if_pos htarget, if_pos htarget, if_neg fun h => hne (h.symm.trans htarget)]
  · rw [if_neg htarget, if_neg htarget, if_neg htarget]

/-! ## How pieces arrive -/

section Fits

variable (h : BuiltIn.chess.Fits pos)

include h

theorem apply_of_fits (hs : look pos.board s = kind.code * pos.mover.sign)
    (hrule : rule ∈ rulesOf kind)
    (hadm : (Candidate.mk (look pos.board s) s t rule).admissible pos = true) :
    (Candidate.mk (look pos.board s) s t rule).apply BuiltIn.chess pos =
      .ok (pos.successor (write (write pos.board t (if rule.exchange = none
          then look pos.board s else Kind.queen.code * pos.mover.sign)) s 0)
        pos.mover.opponent ⟨look pos.board s, s, t⟩) := by
  have hon : OnBoard s := onBoard_of_look_eq hs
  obtain ⟨ht, hland, -⟩ := (admissible_iff h.size).mp hadm
  have hne : s ≠ t := by
    rintro rfl
    exact free_of_admissible h hs hrule hadm (by rw [hs, sign_code_mul])
  obtain ⟨⟨hcontinues, -⟩, hexchange, hlands, hjumps⟩ := policies_of_mem hrule
  obtain ⟨type, htype, -⟩ := exists_pieceType (kind_le_of_fits h hs) pos.mover
  have hpiece : BuiltIn.chess.pieceType (look pos.board s) = .ok type := by
    rw [hs, pieceType, htype]
  have horigin : pos.onBoard s = true := by
    rw [Position.onBoard, h.size]
    exact onBoard_iff_laws.mpr hon
  rw [Candidate.apply_eq (c := ⟨look pos.board s, s, t, rule⟩) hpiece
    (landWrites_eq hlands hland horigin type.name) (exchangeWrites_eq hexchange rfl),
    jumpWrites_eq_nil hjumps]
  dsimp only
  rw [hcontinues, if_neg Bool.false_ne_true, List.nil_append]
  by_cases hplain : rule.exchange = none
  · rw [if_pos hplain, if_pos hplain, List.append_nil]
    rfl
  -- the exchange overwrites the pawn that has just arrived
  · rw [if_neg hplain, if_neg hplain]
    have hboard := valid_of_fits h
    have hexchanged := writeAll_exchanged hboard hon ht hne (hboard.code_le s)
      (natAbs_code_mul_le .queen pos.mover)
    exact congrArg (fun b => Except.ok (pos.successor b _ _)) hexchanged

theorem mem_movers_of_fits {m : Mover} : m ∈ BuiltIn.chess.movers pos ↔
    ∃ kind : Kind, look pos.board m.origin = kind.code * pos.mover.sign ∧
      m.piece = look pos.board m.origin := by
  have hmem : m ∈ BuiltIn.chess.movers pos ↔ m.origin.onBoard boardSize = true ∧
      pos.read m.origin = m.piece ∧ m.piece.sign = pos.mover.sign :=
    mem_boardMovers (by decide)
  rw [hmem, onBoard_iff_laws]
  constructor
  · rintro ⟨hon, hread, hsign⟩
    rw [read_eq_look h.size hon] at hread
    rw [← hread, sign_eq_iff ((valid_of_fits h).code_le _)] at hsign
    obtain ⟨kind, hkind⟩ := hsign
    exact ⟨kind, hkind, hread.symm⟩
  · rintro ⟨kind, hkind, hpiece⟩
    have hon : OnBoard m.origin := onBoard_of_look_eq hkind
    refine ⟨hon, (read_eq_look h.size hon).trans hpiece.symm, ?_⟩
    rw [hpiece, hkind, sign_code_mul]

theorem mem_allCandidates_of_fits : c ∈ BuiltIn.chess.allCandidates pos ↔ ∃ kind s t,
    look pos.board s = kind.code * pos.mover.sign ∧ ∃ rule ∈ rulesOf kind,
      t ∈ BuiltIn.chess.targetSquares pos.mover s rule ∧
      (Candidate.mk (look pos.board s) s t rule).admissible pos = true ∧
      c = ⟨look pos.board s, s, t, rule⟩ := by
  unfold allCandidates
  rw [List.mem_flatMap]
  constructor
  · rintro ⟨⟨piece, s⟩, hm, hmem⟩
    obtain ⟨kind, hs, hpiece⟩ := (mem_movers_of_fits h).mp hm
    obtain ⟨type, htype, hrule, htarget, hcpiece, hcorigin, hadm⟩ := mem_candidatesAt.mp hmem
    dsimp only at hs hpiece htype htarget hcpiece hcorigin
    obtain ⟨cpiece, origin, t, rule⟩ := c
    dsimp only at hrule htarget hcpiece hcorigin
    subst hcpiece hcorigin hpiece
    obtain ⟨type', htype', hmoves⟩ := exists_pieceType (kind_le_of_fits h hs) pos.mover
    rw [hs, htype', Option.some.injEq] at htype
    rw [← htype, hmoves] at hrule
    exact ⟨kind, origin, t, hs, rule, hrule, htarget, hadm, rfl⟩
  · rintro ⟨kind, s, t, hs, rule, hrule, htarget, hadm, rfl⟩
    obtain ⟨type, htype, hmoves⟩ := exists_pieceType (kind_le_of_fits h hs) pos.mover
    refine ⟨⟨look pos.board s, s⟩, (mem_movers_of_fits h).mpr ⟨kind, hs, rfl⟩,
      mem_candidatesAt.mpr ⟨type, ?_, hmoves ▸ hrule, htarget, rfl, rfl, hadm⟩⟩
    rw [hs]
    exact htype

end Fits

theorem giveUpCastling_eq (hs : look board s = kind.code * side.sign) (hcode : kind.code ≤ 6)
    (after : Board) : giveUpCastling board after s = after := by
  have habs : ((look board s).natAbs : Int) = kind.code := by rw [hs, natAbs_code_mul]
  have hking : ¬ ((look board s).natAbs : Int) = Kind.unmovedKing.code := by
    rw [habs]
    cases kind <;> revert hcode <;> decide
  have hrook : ¬ ((look board s).natAbs : Int) = Kind.unmovedRook.code := by
    rw [habs]
    cases kind <;> revert hcode <;> decide
  unfold giveUpCastling
  dsimp only
  rw [if_neg hking]
  split
  · rfl
  · exact if_neg fun h => hrook h.1

theorem captureEnPassant_eq (hs : look board s = kind.code * side.sign)
    (hcapture : kind = .pawn → s.x ≠ t.x → look board t ≠ 0) (after : Board) :
    captureEnPassant board after s t = after := by
  refine if_neg ?_
  rintro ⟨hpawn, hx, hempty⟩
  rw [hs, natAbs_code_mul] at hpawn
  exact hcapture (Kind.code_injective hpawn) hx hempty

/-- A pawn changes its column only to capture. -/
theorem look_ne_zero_of_pawn (h : Plain pos) (htried : Tried pos .pawn s t) (hx : s.x ≠ t.x) :
    look pos.board t ≠ 0 := by
  rcases h.mem_pawnTargets.mp htried.target with hstep | hcapture
  · exact absurd (x_of_mem_pawnSteps hstep).symm hx
  · exact (mem_pawnCaptures_iff.mp hcapture).2

theorem arrivalCode_eq (hon : OnBoard s) (hrule : rule ∈ rulesOf kind) (ht : OnBoard t)
    (htarget : t ∈ BuiltIn.chess.targetSquares side s rule) :
    arrivalCode kind side s t =
      if rule.exchange = none then kind.code * side.sign else Kind.queen.code * side.sign := by
  by_cases hkind : kind = .pawn
  · subst hkind
    have hside := home_cases side
    have hopponent := home_opponent side
    -- the rule tells the last rank by the edge, the engine by the step that leads to it
    obtain ⟨hexchange, hreach⟩ := (mem_targetSquares_pawn hrule ht).mp htarget
    have hlast : (rule.exchange = none) ↔ ¬ t.y = home side.opponent := by
      rw [← hexchange]
      rcases (policies_of_mem hrule).2.1 with h | h <;> rw [h] <;> decide
    have hpromoted : ((s.y + side.sign = 0 ∨ s.y + side.sign = 7) ∧ t.y = s.y + side.sign) ↔
        t.y = home side.opponent := by
      unfold PawnReaches at hreach
      unfold OnBoard at hon
      split at hreach
      · simp only [Piece.Reaches, Square.sub_x, Square.sub_y] at hreach
        omega
      · split at hreach <;> rw [square_eq_iff] at hreach <;> omega
    unfold arrivalCode promoted
    dsimp only
    simp only [hpromoted, hlast]
    by_cases hy : t.y = home side.opponent
    · rw [if_pos hy, if_neg (not_not.mpr hy)]
    · rw [if_neg hy, if_pos hy]
  · rw [if_pos (policies_of_mem_of_ne hrule hkind).1]
    cases kind
    case pawn => exact absurd rfl hkind
    case unmovedRook => cases hrule
    case unmovedKing => cases hrule
    all_goals rfl

section Pieces

variable (h : Plain pos) (hs : look pos.board s = kind.code * pos.mover.sign)

include h hs

theorem boardAfter_eq (htried : Tried pos kind s t) (piece : Int) :
    boardAfter pos.board s t piece = write (write pos.board t piece) s 0 := by
  unfold boardAfter
  dsimp only
  rw [giveUpCastling_eq hs (h.kind_le hs), captureEnPassant_eq hs]
  rintro rfl hx
  exact look_ne_zero_of_pawn h htried hx

/-- The template rules lead where the engine leads. -/
theorem apply_eq (hrule : rule ∈ rulesOf kind)
    (htarget : t ∈ BuiltIn.chess.targetSquares pos.mover s rule)
    (hadm : (Candidate.mk (look pos.board s) s t rule).admissible pos = true) :
    (Candidate.mk (look pos.board s) s t rule).apply BuiltIn.chess pos =
      .ok (pos.successor (boardAfter pos.board s t (arrivalCode kind pos.mover s t))
        pos.mover.opponent ⟨look pos.board s, s, t⟩) := by
  have htried : Tried pos kind s t :=
    (exists_rule_iff h hs).mp ⟨rule, hrule, htarget, hadm⟩
  have hon : OnBoard s := onBoard_of_look_eq hs
  rw [apply_of_fits h.fits hs hrule hadm, boardAfter_eq h hs htried,
    arrivalCode_eq hon hrule htried.onBoard htarget, hs]

end Pieces

/-! ## Kings -/

theorem exists_arrivalKind (hcode : kind.code ≤ 6) (side : Side) (s t : Square) :
    ∃ j : Kind, arrivalCode kind side s t = j.code * side.sign ∧
      (j.piece = .king ↔ kind = .king) := by
  cases kind
  case pawn =>
    unfold arrivalCode promoted
    dsimp only
    split
    · exact ⟨.queen, rfl, by decide⟩
    · exact ⟨.pawn, rfl, by decide⟩
  case unmovedRook => exact absurd hcode (by decide)
  case unmovedKing => exact absurd hcode (by decide)
  all_goals exact ⟨_, rfl, by decide⟩

theorem piece_eq_king (hcode : kind.code ≤ 6) : kind.piece = .king ↔ kind = .king := by
  cases kind <;> revert hcode <;> decide

section Kings

variable (h : Plain pos) (hs : look pos.board s = kind.code * pos.mover.sign)
  (htried : Tried pos kind s t)

include h hs htried

theorem placement_arrived (j : Kind) (u : Square) :
    placement (write (write pos.board t (j.code * pos.mover.sign)) s 0) u =
      if u = s then none else if u = t then some ⟨pos.mover, j.piece⟩
      else placement pos.board u := by
  have hon : OnBoard s := onBoard_of_look_eq hs
  rw [(h.valid.write htried.onBoard (natAbs_code_mul_le j _)).placement_write hon,
    h.valid.placement_write htried.onBoard, man_code, man_zero]

theorem king_after_of_ne (hkind : kind ≠ .king) (u : Square) :
    placement (write (write pos.board t (arrivalCode kind pos.mover s t)) s 0) u =
      some ⟨pos.mover, .king⟩ ↔ placement pos.board u = some ⟨pos.mover, .king⟩ := by
  obtain ⟨j, harrival, hj⟩ := exists_arrivalKind (h.kind_le hs) pos.mover s t
  rw [harrival, placement_arrived h hs htried]
  by_cases hus : u = s
  · rw [if_pos hus, hus]
    refine iff_of_false nofun fun hking => hkind ((piece_eq_king (h.kind_le hs)).mp ?_)
    rw [placement, hs, man_code] at hking
    exact congrArg Man.piece (Option.some.inj hking)
  · rw [if_neg hus]
    by_cases hut : u = t
    · rw [if_pos hut, hut]
      refine iff_of_false (fun hking => hkind (hj.mp ?_)) (htried.not_own h.valid .king)
      exact congrArg Man.piece (Option.some.inj hking)
    · rw [if_neg hut]

theorem king_after_of_eq (hkind : kind = .king) (u : Square) :
    placement (write (write pos.board t (arrivalCode kind pos.mover s t)) s 0) u =
      some ⟨pos.mover, .king⟩ ↔ u = t := by
  obtain ⟨j, harrival, hj⟩ := exists_arrivalKind (h.kind_le hs) pos.mover s t
  have hking : placement pos.board s = some ⟨pos.mover, .king⟩ := by
    rw [placement, hs, man_code, hkind]
    rfl
  rw [harrival, placement_arrived h hs htried, hj.mpr hkind]
  by_cases hus : u = s
  · rw [if_pos hus, hus]
    exact iff_of_false nofun (htried.ne hs)
  · rw [if_neg hus]
    by_cases hut : u = t
    · rw [if_pos hut]
      exact iff_of_true rfl hut
    · rw [if_neg hut]
      exact iff_of_false (fun hu => hus (h.one_king u s hu hking)) hut

theorem steppedKing_eq_kingSquare? :
    let after := write (write pos.board t (arrivalCode kind pos.mover s t)) s 0
    Valid after ∧ (∀ a b, placement after a = some ⟨pos.mover, .king⟩ →
      placement after b = some ⟨pos.mover, .king⟩ → a = b) ∧
    steppedKing kind (kingSquare? pos.board pos.mover) t = kingSquare? after pos.mover := by
  intro after
  have hon : OnBoard s := onBoard_of_look_eq hs
  have hvalid : Valid after := by
    obtain ⟨j, harrival, -⟩ := exists_arrivalKind (h.kind_le hs) pos.mover s t
    refine (h.valid.write htried.onBoard ?_).write hon (by decide)
    rw [harrival]
    exact natAbs_code_mul_le j _
  by_cases hkind : kind = .king
  · have hafter (u : Square) : placement after u = some ⟨pos.mover, .king⟩ ↔ u = t :=
      king_after_of_eq h hs htried hkind u
    refine ⟨hvalid, fun a b ha hb => ((hafter a).mp ha).trans ((hafter b).mp hb).symm, ?_⟩
    rw [kingSquare?_eq hvalid hafter, hkind]
    rfl
  · have hafter (u : Square) : placement after u = some ⟨pos.mover, .king⟩ ↔
        placement pos.board u = some ⟨pos.mover, .king⟩ :=
      king_after_of_ne h hs htried hkind u
    refine ⟨hvalid, fun a b ha hb => h.one_king a b ((hafter a).mp ha) ((hafter b).mp hb), ?_⟩
    have hnotKing : kind.isKing = false := by
      cases kind <;> first | rfl | exact absurd rfl hkind | exact absurd (h.kind_le hs) (by decide)
    rw [steppedKing, hnotKing, if_neg Bool.false_ne_true]
    rcases kingSquare?_cases h.valid h.one_king with ⟨k, hk, hfound⟩ | ⟨hnone, hfound⟩
    · rw [hfound, kingSquare?_eq hvalid fun u => (hafter u).trans (hk u)]
    · rw [hfound, kingSquare?_eq_none hvalid fun u hu => hnone u ((hafter u).mp hu)]

end Kings

/-! ## All moves -/

/-- The position to which a piece goes if it goes to a square. -/
def arrived (pos : Position) (kind : Kind) (s t : Square) : Position :=
  pos.successor (boardAfter pos.board s t (arrivalCode kind pos.mover s t)) pos.mover.opponent
    ⟨look pos.board s, s, t⟩

namespace Plain

/-! ## Moves of the engine -/

theorem mem_successors_iff (h : Plain pos) :
    next ∈ successors pos ↔ ∃ kind s t, look pos.board s = kind.code * pos.mover.sign ∧
      Tried pos kind s t ∧
      ¬ inCheck (arrived pos kind s t).board
        (steppedKing kind (kingSquare? pos.board pos.mover) t) = true ∧
      next = arrived pos kind s t := by
  rw [mem_successors]
  constructor
  · rintro ⟨s, hon, hmem⟩
    obtain ⟨kind, hs, hsteps | hcastles⟩ := exists_kind_of_mem hon hmem
    · obtain ⟨t, htarget, hmoved⟩ := List.mem_filterMap.mp hsteps
      obtain ⟨ht, hfree, hsafe, hnext⟩ := move?_eq_some.mp hmoved
      rw [sign_arrivalCode] at hfree
      exact ⟨kind, s, t, hs, ⟨ht, htarget, hfree.symm⟩, hsafe, hnext⟩
    · obtain ⟨rfl, -⟩ := mem_castlings_cases hcastles
      exact absurd (h.kind_le hs) (by decide)
  · rintro ⟨kind, s, t, hs, htried, hsafe, hnext⟩
    refine ⟨s, onBoard_of_look_eq hs, ?_⟩
    rw [movesFrom_eq hs]
    refine List.mem_append_left _ (List.mem_filterMap.mpr ⟨t, htried.target, ?_⟩)
    refine move?_eq_some.mpr ⟨htried.onBoard, ?_, hsafe, hnext⟩
    rw [sign_arrivalCode]
    exact htried.free.symm

theorem nodup_successors (h : Plain pos) : (successors pos).Nodup := by
  refine List.Nodup.of_map moveOf (nodup_successors_of fun s t q _ hpassed => ?_)
  rw [h.enPassantTarget?_eq_none] at hpassed
  cases hpassed

/-! ## Moves of the template rules -/

/-- The template rules take every piece where the engine tries to take it. -/
theorem exists_template_successors (h : Plain pos) :
    ∃ ts, BuiltIn.chess.successors pos = .ok ts ∧
      ∀ next, next ∈ ts ↔ ∃ kind s t, look pos.board s = kind.code * pos.mover.sign ∧
        Tried pos kind s t ∧ next = arrived pos kind s t := by
  have htypes : ∀ m ∈ BuiltIn.chess.movers pos,
      (BuiltIn.chess.pieceType? m.piece).isSome = true := by
    intro m hm
    obtain ⟨kind, hs, hpiece⟩ := (mem_movers_of_fits h.fits).mp hm
    obtain ⟨type, htype, -⟩ := exists_pieceType (h.kind_le hs) pos.mover
    rw [hpiece, hs, htype]
    rfl
  have hpriority : ∀ c ∈ BuiltIn.chess.allCandidates pos, c.rule.priority = 0 := by
    intro c hc
    obtain ⟨_, _, _, -, rule, hrule, -, -, rfl⟩ := (mem_allCandidates_of_fits h.fits).mp hc
    exact (policies_of_mem hrule).1.2
  have happly {kind : Kind} {s t : Square} {rule : MoveRule}
      (hs : look pos.board s = kind.code * pos.mover.sign) :=
    @apply_eq pos kind s t rule h hs
  obtain ⟨ts, hts, hmem⟩ := exists_successors htypes (by
    intro c hc
    obtain ⟨kind, s, t, hs, rule, hrule, htarget, hadm, rfl⟩ :=
      (mem_allCandidates_of_fits h.fits).mp hc
    exact ⟨_, happly hs hrule htarget hadm⟩)
  refine ⟨ts, hts, fun next => ?_⟩
  rw [hmem]
  constructor
  · rintro ⟨c, hc, hnext, -⟩
    obtain ⟨kind, s, t, hs, rule, hrule, htarget, hadm, rfl⟩ :=
      (mem_allCandidates_of_fits h.fits).mp hc
    rw [happly hs hrule htarget hadm] at hnext
    exact ⟨kind, s, t, hs, (exists_rule_iff h hs).mp
      ⟨rule, hrule, htarget, hadm⟩, (Except.ok.inj hnext).symm⟩
  · rintro ⟨kind, s, t, hs, htried, rfl⟩
    obtain ⟨rule, hrule, htarget, hadm⟩ :=
      (exists_rule_iff h hs).mpr htried
    have hc := (mem_allCandidates_of_fits h.fits).mpr
      ⟨kind, s, t, hs, rule, hrule, htarget, hadm, rfl⟩
    refine ⟨_, hc, happly hs hrule htarget hadm, fun c' hc' => ?_⟩
    -- no rule takes precedence of another
    rw [hpriority c' hc', hpriority _ hc]

/-! ## Check -/

theorem inCheck_arrived_iff (h : Plain pos) (hs : look pos.board s = kind.code * pos.mover.sign)
    (htried : Tried pos kind s t) :
    (inCheck (arrived pos kind s t).board
        (steppedKing kind (kingSquare? pos.board pos.mover) t) = true ↔
      InCheck (placement (arrived pos kind s t).board) pos.mover) ∧
    (inCheck (arrived pos kind s t).board
        (kingSquare? (arrived pos kind s t).board pos.mover) = true ↔
      InCheck (placement (arrived pos kind s t).board) pos.mover) := by
  have hafter : (arrived pos kind s t).board =
      write (write pos.board t (arrivalCode kind pos.mover s t)) s 0 :=
    boardAfter_eq h hs htried _
  obtain ⟨hvalid, hone, hking⟩ :=
    steppedKing_eq_kingSquare? h hs htried
  rw [hafter, hking]
  exact ⟨inCheck_kingSquare?_iff hvalid hone, inCheck_kingSquare?_iff hvalid hone⟩

end Plain

/-! ## Agreement -/

/-- Where nothing can castle or be taken in passing, the moves that the engine finds are
those of the template rules that do not leave the king in check, and neither finds a move
twice. -/
theorem successors_agree (h : Plain pos) :
    ∃ ts, BuiltIn.chess.successors pos = .ok ts ∧ ts.Nodup ∧ (successors pos).Nodup ∧
      (∀ next, next ∈ successors pos ↔
        next ∈ ts ∧ ¬ InCheck (placement next.board) pos.mover) ∧
      ∀ next ∈ ts, (inCheck next.board (kingSquare? next.board pos.mover) = true ↔
        InCheck (placement next.board) pos.mover) := by
  obtain ⟨ts, hts, hmem⟩ := h.exists_template_successors
  have hnodup : ts.Nodup :=
    told_chess.nodup_successors (by decide) (by decide) h.size hts
  refine ⟨ts, hts, hnodup, h.nodup_successors, fun next => ?_, fun next hnext => ?_⟩
  · rw [h.mem_successors_iff, hmem]
    constructor
    · rintro ⟨kind, s, t, hs, htried, hsafe, rfl⟩
      exact ⟨⟨kind, s, t, hs, htried, rfl⟩, mt (h.inCheck_arrived_iff hs htried).1.mpr hsafe⟩
    · rintro ⟨⟨kind, s, t, hs, htried, rfl⟩, hsafe⟩
      exact ⟨kind, s, t, hs, htried, mt (h.inCheck_arrived_iff hs htried).1.mp hsafe, rfl⟩
  · obtain ⟨kind, s, t, hs, htried, rfl⟩ := (hmem next).mp hnext
    exact (h.inCheck_arrived_iff hs htried).2

/-- White's bishop is pinned by a rook, and its pawn is about to become a queen. -/
def pinned : Position := Position.ofBoard boardSize #[
  6, 0, 0, 0, 0, 0, 0, 0,
  3, 0, 0, 0, 0, 0, 0, 0,
  0, 0, 0, 0, 0, 0, 0, 0,
  0, 0, 0, 0, 0, 0, 0, 0,
  0, 0, 0, 0, 0, 0, 0, 0,
  0, 0, 0, 0, 0, 0, 0, 0,
  0, 0, 0, 0, 0, 0, 0, 1,
  -4, 0, 0, 0, 0, 0, -2, 0] .white .absent 0

theorem plain_pinned : Plain pinned where
  size := rfl
  cells := rfl
  code_le := by decide
  king := by
    have hcorner : ∀ s, look pinned.board s = Kind.king.code * pinned.mover.sign → s = ⟨0, 0⟩ := by
      apply forall_square
      · decide
      · intro s hs hking
        rw [look_of_not_onBoard hs] at hking
        cases hking
    intro s t hs ht
    rw [hcorner s hs, hcorner t ht]
  last := by decide

/-- The template rules find eleven moves, of which seven are the bishop's. -/
theorem successors_agree_pinned :
    Plain pinned ∧ (successors pinned).length = 4 ∧
      ∃ ts, BuiltIn.chess.successors pinned = .ok ts ∧ ts.length = 11 ∧
        ∀ next, next ∈ successors pinned ↔
          next ∈ ts ∧ ¬ InCheck (placement next.board) .white := by
  have hlength : ((BuiltIn.chess.successors pinned).toOption.map List.length) = some 11 := by
    decide +kernel
  obtain ⟨ts, hts, -, -, hmem, -⟩ := successors_agree plain_pinned
  rw [hts] at hlength
  exact ⟨plain_pinned, by decide +kernel, ts, hts, Option.some.inj hlength, hmem⟩

end BoardGame.Chess
