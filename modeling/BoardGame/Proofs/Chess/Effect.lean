import BoardGame.Proofs.Chess.Agreement
/-!
# The board after a move of one man

The engine writes the man to its target, clears its origin, takes a pawn that was
passed and gives up castling rights. Each of these steps is matched with the codes
that the move leaves.
-/

namespace BoardGame.Chess

open Laws

variable {pos : Position} {g : State} {m : Move} {code : Int} {s : Square}

theorem demote_eq_self (hle : code.natAbs ≤ 8)
    (h : ∀ side : Side, code ≠ Kind.unmovedRook.code * side.sign ∧
      code ≠ Kind.unmovedKing.code * side.sign) : demote code = code := by
  by_cases hzero : code = 0
  · rw [hzero, demote_zero]
  · obtain ⟨k, side, rfl⟩ := exists_kind hzero hle
    rw [demote_code]
    cases k
    case unmovedRook => exact absurd rfl (h side).1
    case unmovedKing => exact absurd rfl (h side).2
    all_goals rfl

theorem look_eq_of_natAbs {board : Board} {k : Kind} {side : Side} {man' : Man}
    (hboard : Valid board) (habs : ((look board s).natAbs : Int) = k.code)
    (hman : placement board s = some man') (hside : man'.side = side) :
    look board s = k.code * side.sign := by
  obtain ⟨a, piece⟩ := man'
  obtain ⟨j, -, hj⟩ := hboard.placement_eq_some.mp hman
  have hside' : a = side := hside
  rw [hj, natAbs_code_mul] at habs
  rw [hj, Kind.code_injective habs, hside']

namespace Agrees

/-! ## Moving and capturing -/

theorem look_eq_zero (h : Agrees pos g) : look pos.board s = 0 ↔ g.placement s = none := by
  rw [← h.placement]
  exact h.board.placement_eq_none.symm

theorem natAbs_look_eq_pawn (h : Agrees pos g) {side : Side} {piece : Piece}
    (hs : g.placement s = some ⟨side, piece⟩) :
    ((look pos.board s).natAbs : Int) = Kind.pawn.code ↔ piece = .pawn := by
  rw [← h.placement, h.board.placement_eq_some] at hs
  obtain ⟨k, rfl, hk⟩ := hs
  rw [hk, natAbs_code_mul]
  cases k <;> decide

theorem captureEnPassant_eq (h : Agrees pos g) (hm : g.Moves m) (board : Board) :
    captureEnPassant pos.board board m.origin m.target =
      match g.passedPawn? m with
      | none => board
      | some s => write board s 0 := by
  obtain ⟨-, -, piece, hpiece, -⟩ := hm
  have hcond : (((look pos.board m.origin).natAbs : Int) = Kind.pawn.code ∧
      m.origin.x ≠ m.target.x ∧ look pos.board m.target = 0) ↔
      (g.placement m.origin = some ⟨g.turn, .pawn⟩ ∧ m.origin.x ≠ m.target.x ∧
        g.placement m.target = none) := by
    rw [h.natAbs_look_eq_pawn hpiece, h.look_eq_zero, hpiece, Option.some.injEq, Man.mk.injEq]
    simp
  unfold captureEnPassant State.passedPawn?
  by_cases hpassed : g.placement m.origin = some ⟨g.turn, .pawn⟩ ∧ m.origin.x ≠ m.target.x ∧
      g.placement m.target = none
  · rw [if_pos (hcond.mpr hpassed), if_pos hpassed]
  · rw [if_neg (mt hcond.mp hpassed), if_neg hpassed]

theorem look_captured (h : Agrees pos g) (hg : Sound g) (hm : g.Moves m)
    (hw : g.wing? m = none) (hcode : code.natAbs ≤ 8) :
    let board := captureEnPassant pos.board
      (write (write pos.board m.target code) m.origin 0) m.origin m.target
    Valid board ∧ ∀ s, look board s = codeAfter pos.board g m code s := by
  obtain ⟨htarget, -, piece, hpiece, -⟩ := id hm
  have horigin := hg.onBoard _ _ hpiece
  have hfirst := h.board.write htarget hcode
  have hsecond : Valid (write (write pos.board m.target code) m.origin 0) :=
    hfirst.write horigin (by decide)
  have hmoved : ∀ s, look (write (write pos.board m.target code) m.origin 0) s =
      if s = m.origin then 0 else if s = m.target then code else look pos.board s := by
    intro s
    rw [hfirst.look_write horigin, h.board.look_write htarget]
  have hcodeAfter : ∀ s, codeAfter pos.board g m code s =
      if s = m.origin then 0 else if s = m.target then code
      else if g.passedPawn? m = some s then 0 else look pos.board s := by
    intro s
    unfold codeAfter
    rw [hw]
  rw [h.captureEnPassant_eq hm]
  intro board
  cases hpassed : g.passedPawn? m with
  | none =>
      have heq : board = write (write pos.board m.target code) m.origin 0 := by
        show (match g.passedPawn? m with | none => _ | some s => _) = _
        rw [hpassed]
      rw [heq]
      refine ⟨hsecond, fun s => ?_⟩
      rw [hmoved, hcodeAfter, hpassed]
      rfl
  | some t =>
      have hon := hg.onBoard _ _ (hm.passedPawn hpassed).2
      have heq : board = write (write (write pos.board m.target code) m.origin 0) t 0 := by
        show (match g.passedPawn? m with | none => _ | some s => _) = _
        rw [hpassed]
      rw [heq]
      refine ⟨hsecond.write hon (by decide), fun s => ?_⟩
      rw [hsecond.look_write hon, hmoved, hcodeAfter, hpassed]
      by_cases hs : s = t
      · subst hs
        rw [if_pos rfl, if_pos rfl, if_neg (hm.passedPawn_ne_target hpassed)]
        split <;> rfl
      · rw [if_neg hs, if_neg (c := some t = some s) fun heq => hs (Option.some.inj heq).symm]

/-! ## Giving up rights -/

theorem codeAfter_of_own (h : Agrees pos g) (hm : g.Moves m) (hw : g.wing? m = none) {k : Kind}
    (hs : look pos.board s = k.code * g.turn.sign) (hne : s ≠ m.origin) :
    codeAfter pos.board g m code s = k.code * g.turn.sign := by
  have hman := h.placement_of_look hs
  have htarget : s ≠ m.target := by
    rintro rfl
    exact hm.2.1 _ hman rfl
  have hpassed : g.passedPawn? m ≠ some s := by
    intro hpassed
    rw [(hm.passedPawn hpassed).2] at hman
    exact opponent_man_ne g.turn _ _ (Option.some.inj hman)
  unfold codeAfter
  rw [if_neg hne, if_neg htarget, if_neg hpassed, hw]
  exact hs

theorem demote_codeAfter_corner (h : Agrees pos g) (hcode : Arriving g m code) {w : Wing}
    (hs : look pos.board (w.corner g.turn) ≠ Kind.unmovedRook.code * g.turn.sign) :
    demote (codeAfter pos.board g m code (w.corner g.turn)) =
      codeAfter pos.board g m code (w.corner g.turn) := by
  apply demote_eq_self (natAbs_codeAfter_le h.board hcode.le _)
  intro side
  constructor
  · intro heq
    obtain ⟨-, -, hbefore⟩ := of_codeAfter_unmoved hcode (.inl rfl) heq
    obtain ⟨-, v, hv⟩ := h.unmovedRook _ _ hbefore
    exact hs ((Wing.corner_inj hv).2 ▸ hbefore)
  · intro heq
    obtain ⟨-, -, hbefore⟩ := of_codeAfter_unmoved hcode (.inr rfl) heq
    exact w.corner_ne_kingHome g.turn side (h.unmovedKing _ _ hbefore)

theorem natAbs_look_corner (h : Agrees pos g) (w : Wing) (side : Side) :
    ((look pos.board (w.corner side)).natAbs : Int) = Kind.unmovedRook.code ↔
      look pos.board (w.corner side) = Kind.unmovedRook.code * side.sign := by
  constructor
  · intro habs
    obtain ⟨a, hk⟩ := exists_side habs
    obtain ⟨-, v, hv⟩ := h.unmovedRook _ _ hk
    rw [hk, (Wing.corner_inj hv).2]
  · intro hk
    rw [hk, natAbs_code_mul]

theorem releaseRook_spec {board : Board} {w : Wing} (h : Agrees pos g) (hm : g.Moves m)
    (hw : g.wing? m = none) (hcode : Arriving g m code) (hboard : Valid board)
    (hne : w.corner g.turn ≠ m.origin)
    (hlook : look board (w.corner g.turn) = codeAfter pos.board g m code (w.corner g.turn)) :
    let released := releaseRook pos.board g.turn.sign (home g.turn) board (w.corner g.turn).x
    Valid released ∧ ∀ s, look released s =
      if s = w.corner g.turn then demote (codeAfter pos.board g m code s) else look board s := by
  have hcorner : (⟨(w.corner g.turn).x, home g.turn⟩ : Square) = w.corner g.turn := by
    cases w <;> rfl
  have hon : OnBoard (w.corner g.turn) := by
    unfold OnBoard
    cases w <;> cases g.turn <;> decide
  intro released
  by_cases hunmoved : look pos.board (w.corner g.turn) = Kind.unmovedRook.code * g.turn.sign
  · have heq : released = write board (w.corner g.turn) (Kind.rook.code * g.turn.sign) := by
      show releaseRook _ _ _ _ _ = _
      unfold releaseRook
      rw [hcorner, if_pos hunmoved]
    rw [heq]
    refine ⟨hboard.write hon (natAbs_code_mul_le .rook g.turn), fun s => ?_⟩
    rw [hboard.look_write hon]
    by_cases hs : s = w.corner g.turn
    · rw [if_pos hs, if_pos hs, hs, h.codeAfter_of_own hm hw hunmoved hne, demote_code]
    · rw [if_neg hs, if_neg hs]
  · have heq : released = board := by
      show releaseRook _ _ _ _ _ = _
      unfold releaseRook
      rw [hcorner, if_neg hunmoved]
    rw [heq]
    refine ⟨hboard, fun s => ?_⟩
    by_cases hs : s = w.corner g.turn
    · rw [if_pos hs, hs, hlook, h.demote_codeAfter_corner hcode hunmoved]
    · rw [if_neg hs]

theorem isAfter_king (h : Agrees pos g) (hm : g.Moves m) (hw : g.wing? m = none)
    (hcode : Arriving g m code) {board : Board} (hboard : Valid board)
    (hlook : ∀ s, look board s = codeAfter pos.board g m code s)
    (hking : look pos.board m.origin = Kind.unmovedKing.code * g.turn.sign) :
    IsAfter pos.board g m code (giveUpCastling pos.board board m.origin) := by
  have horigin := h.unmovedKing _ _ hking
  have hne (w : Wing) : w.corner g.turn ≠ m.origin := by
    rw [horigin]
    exact w.corner_ne_kingHome g.turn g.turn
  have hy : m.origin.y = home g.turn := by rw [horigin]; rfl
  have hrank : ¬ (m.origin.y ≠ 0 ∧ m.origin.y ≠ 7) := by
    rw [hy]
    cases g.turn <;> decide
  have habs : ((look pos.board m.origin).natAbs : Int) = Kind.unmovedKing.code := by
    rw [hking, natAbs_code_mul]
  have hsign : (look pos.board m.origin).sign = g.turn.sign := by rw [hking, sign_code_mul]
  -- both corners give up their rook, the second on the board that the first has left
  obtain ⟨hvalid, hfirst⟩ := h.releaseRook_spec (w := .queenside) hm hw hcode hboard (hne _)
    (hlook _)
  have hsecond := h.releaseRook_spec (w := .kingside) hm hw hcode hvalid (hne _) (by
    rw [hfirst, if_neg, hlook]
    cases g.turn <;> decide)
  have heq : giveUpCastling pos.board board m.origin =
      releaseRook pos.board g.turn.sign (home g.turn)
        (releaseRook pos.board g.turn.sign (home g.turn) board (Wing.queenside.corner g.turn).x)
        (Wing.kingside.corner g.turn).x := by
    unfold giveUpCastling
    dsimp only
    rw [if_neg hrank, if_pos habs, hsign, hy]
    rfl
  have hdemoted : ∀ s, Demoted pos.board g.turn m.origin s ↔ ∃ w : Wing, s = w.corner g.turn := by
    intro s
    constructor
    · rintro (⟨-, hs⟩ | ⟨w, hw', -⟩)
      · exact hs
      · exact absurd hw'.symm (hne w)
    · exact fun hs => .inl ⟨hking, hs⟩
  rw [heq]
  refine ⟨hsecond.1, fun s hs => ?_, fun s hs => ?_⟩
  · obtain ⟨w, rfl⟩ := (hdemoted s).mp hs
    rw [hsecond.2, hfirst]
    cases w with
    | queenside =>
        rw [if_neg, if_pos rfl]
        cases g.turn <;> decide
    | kingside => rw [if_pos rfl]
  · rw [hdemoted] at hs
    rw [hsecond.2, hfirst, if_neg fun heq => hs ⟨_, heq⟩, if_neg fun heq => hs ⟨_, heq⟩, hlook]

/-- A rook that has not moved takes the right of its king along unless the other rook
keeps it. -/
theorem giveUpCastling_corner (h : Agrees pos g) {w : Wing} (board : Board)
    (hrook : look pos.board (w.corner g.turn) = Kind.unmovedRook.code * g.turn.sign) :
    giveUpCastling pos.board board (w.corner g.turn) =
      if look pos.board (w.other.corner g.turn) = Kind.unmovedRook.code * g.turn.sign then board
      else write board (kingHome g.turn) (Kind.king.code * g.turn.sign) := by
  have hking := (h.unmovedRook _ _ hrook).1
  have hother : (⟨7 - (w.corner g.turn).x, (w.corner g.turn).y⟩ : Square) =
      w.other.corner g.turn := by
    cases w <;> rfl
  have hhome : (⟨4, (w.corner g.turn).y⟩ : Square) = kingHome g.turn := by
    cases w <;> rfl
  have hrank : ¬ ((w.corner g.turn).y ≠ 0 ∧ (w.corner g.turn).y ≠ 7) := by
    cases w <;> cases g.turn <;> decide
  have habs := (h.natAbs_look_corner w g.turn).mpr hrook
  have habsking : ((look pos.board (kingHome g.turn)).natAbs : Int) = Kind.unmovedKing.code := by
    rw [hking, natAbs_code_mul]
  have hne : ((look pos.board (w.corner g.turn)).natAbs : Int) ≠ Kind.unmovedKing.code := by
    rw [habs]
    decide
  unfold giveUpCastling
  dsimp only
  rw [if_neg hrank, if_neg hne, hother, hhome]
  by_cases hlast : look pos.board (w.other.corner g.turn) = Kind.unmovedRook.code * g.turn.sign
  · have hkeeps := (h.natAbs_look_corner w.other g.turn).mpr hlast
    rw [if_neg fun hc => hc.2.1 hkeeps, if_pos hlast]
  · have hlost := mt (h.natAbs_look_corner w.other g.turn).mp hlast
    rw [if_pos ⟨habs, hlost, habsking⟩, if_neg hlast, hrook, sign_code_mul]

theorem isAfter_rook (h : Agrees pos g) (hm : g.Moves m) (hw : g.wing? m = none)
    {board : Board} (hboard : Valid board)
    (hlook : ∀ s, look board s = codeAfter pos.board g m code s)
    (hrook : look pos.board m.origin = Kind.unmovedRook.code * g.turn.sign) :
    IsAfter pos.board g m code (giveUpCastling pos.board board m.origin) := by
  obtain ⟨hking, w, horigin⟩ := h.unmovedRook _ _ hrook
  have hne : kingHome g.turn ≠ m.origin := by
    rw [horigin]
    exact (w.corner_ne_kingHome g.turn g.turn).symm
  have hdemoted : ∀ s, Demoted pos.board g.turn m.origin s ↔
      look pos.board (w.other.corner g.turn) ≠ Kind.unmovedRook.code * g.turn.sign ∧
        s = kingHome g.turn := by
    intro s
    constructor
    · rintro (⟨hking', -⟩ | ⟨v, hv, -, hlast, hs⟩)
      · rw [hrook] at hking'
        cases (code_mul_inj hking').1
      · rw [horigin] at hv
        rw [(Wing.corner_inj hv).1]
        exact ⟨hlast, hs⟩
    · rintro ⟨hlast, rfl⟩
      exact .inr ⟨w, horigin, hrook, hlast, rfl⟩
  have hgiven := h.giveUpCastling_corner board (horigin ▸ hrook)
  rw [← horigin] at hgiven
  rw [hgiven]
  by_cases hlast : look pos.board (w.other.corner g.turn) = Kind.unmovedRook.code * g.turn.sign
  · rw [if_pos hlast]
    exact ⟨hboard, fun s hs => absurd hlast ((hdemoted s).mp hs).1, fun s _ => hlook s⟩
  · have hon : OnBoard (kingHome g.turn) := by
      cases g.turn <;> decide
    rw [if_neg hlast]
    refine ⟨hboard.write hon (natAbs_code_mul_le .king g.turn), fun s hs => ?_, fun s hs => ?_⟩
    · have hs' := ((hdemoted s).mp hs).2
      rw [hboard.look_write hon, if_pos hs', hs', h.codeAfter_of_own hm hw hking hne, demote_code]
    · have hs' : s ≠ kingHome g.turn := fun heq => hs ((hdemoted s).mpr ⟨hlast, heq⟩)
      rw [hboard.look_write hon, if_neg hs', hlook]

theorem isAfter_other (h : Agrees pos g) {board : Board} (hboard : Valid board)
    (hlook : ∀ s, look board s = codeAfter pos.board g m code s)
    (hown : ∃ man, g.placement m.origin = some man ∧ man.side = g.turn)
    (hking : look pos.board m.origin ≠ Kind.unmovedKing.code * g.turn.sign)
    (hrook : look pos.board m.origin ≠ Kind.unmovedRook.code * g.turn.sign) :
    IsAfter pos.board g m code (giveUpCastling pos.board board m.origin) := by
  obtain ⟨man, hman, hside⟩ := hown
  rw [← h.placement] at hman
  have heq : giveUpCastling pos.board board m.origin = board := by
    unfold giveUpCastling
    dsimp only
    split
    · rfl
    · rw [if_neg fun habs => hking (look_eq_of_natAbs h.board habs hman hside),
        if_neg fun hc => hrook (look_eq_of_natAbs h.board hc.1 hman hside)]
  rw [heq]
  refine ⟨hboard, fun s hs => ?_, fun s _ => hlook s⟩
  rcases hs with ⟨hking', -⟩ | ⟨w, -, hrook', -⟩
  · exact absurd hking' hking
  · exact absurd hrook' hrook

theorem isAfter_boardAfter (h : Agrees pos g) (hg : Sound g) (hm : g.Moves m)
    (hw : g.wing? m = none) (hcode : Arriving g m code) :
    IsAfter pos.board g m code (boardAfter pos.board m.origin m.target code) := by
  obtain ⟨hvalid, hlook⟩ := h.look_captured hg hm hw hcode.le
  unfold boardAfter
  by_cases hking : look pos.board m.origin = Kind.unmovedKing.code * g.turn.sign
  · exact h.isAfter_king hm hw hcode hvalid hlook hking
  · by_cases hrook : look pos.board m.origin = Kind.unmovedRook.code * g.turn.sign
    · exact h.isAfter_rook hm hw hvalid hlook hrook
    · obtain ⟨-, -, piece, hpiece, -⟩ := hm
      exact h.isAfter_other hvalid hlook ⟨_, hpiece, rfl⟩ hking hrook

end Agrees

end BoardGame.Chess
