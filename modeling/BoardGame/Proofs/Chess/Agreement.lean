import BoardGame.Proofs.Chess.Board
import BoardGame.Proofs.Chess.Invariants
/-!
# Positions and games

A position agrees with a game by the laws if its board shows what the game has on
the board and its unmoved codes are the castling rights of the record. The codes
after a move follow one rule for all moves: the codes move with the men, and the
rights that the move gives up are taken from what is left.
-/

namespace BoardGame.Chess

open Laws

/-- The move that led to a position. -/
def moveOf (pos : Position) : Move := ⟨pos.last.origin, pos.last.target⟩

structure Agrees (pos : Position) (g : State) : Prop where
  size : pos.size = boardSize
  board : Valid pos.board
  placement : placement pos.board = g.placement
  mover : pos.mover = g.turn
  last : ∀ m, g.record.head? = some m → moveOf pos = m
  no_last : g.record = [] → pos.last = .absent
  unmovedKing : ∀ s side, look pos.board s = Kind.unmovedKing.code * side.sign →
    s = kingHome side
  unmovedRook : ∀ s side, look pos.board s = Kind.unmovedRook.code * side.sign →
    look pos.board (kingHome side) = Kind.unmovedKing.code * side.sign ∧
      ∃ w : Wing, s = w.corner side
  /-- A rook is an unmoved one as long as neither it nor its king has moved. -/
  rights : ∀ side w, look pos.board (w.corner side) = Kind.unmovedRook.code * side.sign ↔
    g.Unmoved side w

/-! ## Rights that are given up -/

/-- A code without its castling right. -/
def demote (code : Int) : Int :=
  if code.natAbs = 7 then Kind.rook.code * code.sign
  else if code.natAbs = 8 then Kind.king.code * code.sign
  else code

theorem demote_code (k : Kind) (side : Side) :
    demote (k.code * side.sign) =
      match k with
      | .unmovedRook => Kind.rook.code * side.sign
      | .unmovedKing => Kind.king.code * side.sign
      | k => k.code * side.sign := by
  cases k <;> cases side <;> rfl

@[simp] theorem demote_zero : demote 0 = 0 := rfl

theorem man_demote {code : Int} (h : code.natAbs ≤ 8) : man (demote code) = man code := by
  by_cases hzero : code = 0
  · rw [hzero, demote_zero]
  · obtain ⟨k, side, rfl⟩ := exists_kind hzero h
    cases k <;> cases side <;> rfl

theorem demote_ne_unmoved {code : Int} (h : code.natAbs ≤ 8) (side : Side) :
    demote code ≠ Kind.unmovedRook.code * side.sign ∧
      demote code ≠ Kind.unmovedKing.code * side.sign := by
  by_cases hzero : code = 0
  · rw [hzero]
    cases side <;> decide
  · obtain ⟨k, side', rfl⟩ := exists_kind hzero h
    cases k <;> cases side' <;> cases side <;> decide

namespace Laws.Wing

def other : Wing → Wing
  | queenside => kingside
  | kingside => queenside

theorem eq_or_eq_other (v w : Wing) : v = w ∨ v = w.other := by
  cases v <;> cases w <;> decide

theorem corner_inj {v w : Wing} {a b : Side} (h : v.corner a = w.corner b) : v = w ∧ a = b := by
  cases v <;> cases w <;> cases a <;> cases b <;> revert h <;> decide

theorem corner_ne_kingHome (w : Wing) (a b : Side) : w.corner a ≠ kingHome b := by
  cases w <;> cases a <;> cases b <;> decide

end Laws.Wing

/-- The squares whose codes lose their right when the man on `origin` moves: the rooks
of a king, and the king of a rook that leaves no unmoved rook behind. -/
def Demoted (board : Board) (side : Side) (origin s : Square) : Prop :=
  (look board origin = Kind.unmovedKing.code * side.sign ∧ ∃ w : Wing, s = w.corner side) ∨
  ∃ w : Wing, origin = w.corner side ∧
    look board origin = Kind.unmovedRook.code * side.sign ∧
    look board (w.other.corner side) ≠ Kind.unmovedRook.code * side.sign ∧ s = kingHome side

/-! ## Codes after a move -/

/-- The codes after a move, as they would be without rights to give up. -/
def codeAfter (board : Board) (g : State) (m : Move) (code : Int) (s : Square) : Int :=
  if s = m.origin then 0
  else if s = m.target then code
  else if g.passedPawn? m = some s then 0
  else
    match g.wing? m with
    | none => look board s
    | some w =>
      if s = w.corner g.turn then 0
      else if s = w.transit g.turn then Kind.rook.code * g.turn.sign
      else look board s

/-- A code with which the man that moves may arrive. -/
structure Arriving (g : State) (m : Move) (code : Int) : Prop where
  le : code.natAbs ≤ 8
  man : man code = g.arriving m
  moved : ∀ side : Side,
    code ≠ Kind.unmovedRook.code * side.sign ∧ code ≠ Kind.unmovedKing.code * side.sign

/-- `after` is a board after a move. -/
structure IsAfter (board : Board) (g : State) (m : Move) (code : Int) (after : Board) : Prop where
  valid : Valid after
  demoted : ∀ s, Demoted board g.turn m.origin s →
    look after s = demote (codeAfter board g m code s)
  kept : ∀ s, ¬ Demoted board g.turn m.origin s → look after s = codeAfter board g m code s

variable {pos : Position} {g : State} {m : Move} {code : Int} {after : Board} {s : Square}

theorem natAbs_codeAfter_le (hboard : Valid pos.board) (hcode : code.natAbs ≤ 8) (s : Square) :
    (codeAfter pos.board g m code s).natAbs ≤ 8 := by
  unfold codeAfter
  split
  · decide
  · split
    · exact hcode
    · split
      · decide
      · split
        · exact hboard.code_le s
        · split
          · decide
          · split
            · exact natAbs_code_mul_le .rook g.turn
            · exact hboard.code_le s

namespace Agrees

theorem man_look (h : Agrees pos g) (s : Square) : man (look pos.board s) = g.placement s :=
  congrFun h.placement s

theorem placement_of_look (h : Agrees pos g) {k : Kind} {side : Side}
    (hs : look pos.board s = k.code * side.sign) : g.placement s = some ⟨side, k.piece⟩ := by
  rw [← h.man_look, hs, man_code]

theorem man_codeAfter (h : Agrees pos g) (hcode : Arriving g m code) (s : Square) :
    man (codeAfter pos.board g m code s) = g.placementAfter m s := by
  unfold codeAfter State.placementAfter
  by_cases horigin : s = m.origin
  · rw [if_pos horigin, if_pos horigin, man_zero]
  · rw [if_neg horigin, if_neg horigin]
    by_cases htarget : s = m.target
    · rw [if_pos htarget, if_pos htarget, hcode.man]
    · rw [if_neg htarget, if_neg htarget]
      by_cases hpassed : g.passedPawn? m = some s
      · rw [if_pos hpassed, if_pos hpassed, man_zero]
      · rw [if_neg hpassed, if_neg hpassed]
        cases g.wing? m with
        | none => exact h.man_look s
        | some w =>
            dsimp only
            by_cases hcorner : s = w.corner g.turn
            · rw [if_pos hcorner, if_pos hcorner, man_zero]
            · rw [if_neg hcorner, if_neg hcorner]
              by_cases htransit : s = w.transit g.turn
              · rw [if_pos htransit, if_pos htransit]
                exact man_code .rook g.turn
              · rw [if_neg htransit, if_neg htransit]
                exact h.man_look s

theorem placement_after (h : Agrees pos g) (hcode : Arriving g m code)
    (hafter : IsAfter pos.board g m code after) :
    Chess.placement after = g.placementAfter m := by
  funext s
  show man (look after s) = _
  by_cases hs : Demoted pos.board g.turn m.origin s
  · rw [hafter.demoted s hs, man_demote (natAbs_codeAfter_le h.board hcode.le s),
      h.man_codeAfter hcode]
  · rw [hafter.kept s hs, h.man_codeAfter hcode]

theorem of_codeAfter_unmoved (hcode : Arriving g m code) {k : Kind} {side : Side}
    (hk : k = .unmovedRook ∨ k = .unmovedKing)
    (hs : codeAfter pos.board g m code s = k.code * side.sign) :
    s ≠ m.origin ∧ s ≠ m.target ∧ look pos.board s = k.code * side.sign := by
  have hrook : Kind.rook.code * g.turn.sign ≠ k.code * side.sign := by
    intro heq
    have hj := (code_mul_inj heq).1
    rcases hk with rfl | rfl <;> cases hj
  have hzero : (0 : Int) ≠ k.code * side.sign := by
    rcases hk with rfl | rfl <;> cases side <;> decide
  have hcode' : code ≠ k.code * side.sign := by
    rcases hk with rfl | rfl
    · exact (hcode.moved side).1
    · exact (hcode.moved side).2
  unfold codeAfter at hs
  split at hs
  next => exact absurd hs hzero
  next horigin =>
    split at hs
    next => exact absurd hs hcode'
    next htarget =>
      refine ⟨horigin, htarget, ?_⟩
      split at hs
      next => exact absurd hs hzero
      next =>
        split at hs
        next => exact hs
        next =>
          split at hs
          next => exact absurd hs hzero
          next =>
            split at hs
            next => exact absurd hs hrook
            next => exact hs

theorem unmoved_before (h : Agrees pos g) (hcode : Arriving g m code)
    (hafter : IsAfter pos.board g m code after) {k : Kind} {side : Side}
    (hk : k = .unmovedRook ∨ k = .unmovedKing) (hs : look after s = k.code * side.sign) :
    ¬ Demoted pos.board g.turn m.origin s ∧ s ≠ m.origin ∧ s ≠ m.target ∧
      look pos.board s = k.code * side.sign := by
  have hdemoted : ¬ Demoted pos.board g.turn m.origin s := by
    intro hd
    rw [hafter.demoted s hd] at hs
    have hplain := demote_ne_unmoved (natAbs_codeAfter_le (g := g) (m := m) h.board hcode.le s) side
    rcases hk with rfl | rfl
    · exact hplain.1 hs
    · exact hplain.2 hs
  rw [hafter.kept s hdemoted] at hs
  exact ⟨hdemoted, of_codeAfter_unmoved hcode hk hs⟩

/-- A code that carries a right keeps it through a move that neither moves nor captures
its man and takes no right from it. -/
theorem unmoved_after (h : Agrees pos g) (hm : g.Moves m)
    (hafter : IsAfter pos.board g m code after) {k : Kind} {side : Side}
    (hk : k = .unmovedRook ∨ k = .unmovedKing) (hs : look pos.board s = k.code * side.sign)
    (hdemoted : ¬ Demoted pos.board g.turn m.origin s) (horigin : s ≠ m.origin)
    (htarget : s ≠ m.target) (hcorner : ∀ w, g.wing? m = some w → s ≠ w.corner g.turn) :
    look after s = k.code * side.sign := by
  have hman := h.placement_of_look hs
  rw [hafter.kept s hdemoted]
  unfold codeAfter
  rw [if_neg horigin, if_neg htarget, if_neg]
  · cases hw : g.wing? m with
    | none => exact hs
    | some w =>
        dsimp only
        have htransit : s ≠ w.transit g.turn := by
          rintro rfl
          rw [(hm.castles hw).transit_empty] at hman
          cases hman
        rw [if_neg (hcorner w hw), if_neg htransit, hs]
  · intro hpassed
    rw [(hm.passedPawn hpassed).2] at hman
    rcases hk with rfl | rfl <;> cases hman

theorem look_kingHome_after (h : Agrees pos g) (hg : Sound g) (hm : g.Moves m)
    (hafter : IsAfter pos.board g m code after) {side : Side}
    (hking : look pos.board (kingHome side) = Kind.unmovedKing.code * side.sign)
    (horigin : kingHome side ≠ m.origin)
    (hdemoted : ¬ Demoted pos.board g.turn m.origin (kingHome side)) :
    look after (kingHome side) = Kind.unmovedKing.code * side.sign := by
  refine h.unmoved_after hm hafter (.inr rfl) hking hdemoted horigin ?_ ?_
  · intro htarget
    have hman : g.placement m.target = some ⟨side, .king⟩ :=
      htarget ▸ h.placement_of_look hking
    have hside := Side.eq_opponent_of_ne (hm.2.1 _ hman)
    exact hg.target_ne_king hm (hside ▸ hman)
  · intro w _
    exact (w.corner_ne_kingHome g.turn side).symm

theorem unmovedRook_after (h : Agrees pos g) (hg : Sound g) (hm : g.Moves m)
    (hcode : Arriving g m code) (hafter : IsAfter pos.board g m code after) {side : Side}
    (hs : look after s = Kind.unmovedRook.code * side.sign) :
    look after (kingHome side) = Kind.unmovedKing.code * side.sign ∧
      ∃ w : Wing, s = w.corner side := by
  obtain ⟨hdemoted, horigin, -, hbefore⟩ := h.unmoved_before hcode hafter (.inl rfl) hs
  obtain ⟨hking, w, rfl⟩ := h.unmovedRook s side hbefore
  refine ⟨h.look_kingHome_after hg hm hafter hking ?_ ?_, w, rfl⟩
  · intro heq
    -- a king that leaves takes the right of its rooks with it
    obtain ⟨-, -, piece, hpiece, -⟩ := hm
    rw [← heq, h.placement_of_look hking] at hpiece
    have hside : side = g.turn := congrArg Man.side (Option.some.inj hpiece)
    subst hside
    exact hdemoted (.inl ⟨heq ▸ hking, w, rfl⟩)
  · rintro (⟨-, v, hv⟩ | ⟨v, hv, -, hother, hhome⟩)
    · exact v.corner_ne_kingHome g.turn side hv.symm
    · have hside : side = g.turn := by
        revert hhome
        cases side <;> cases g.turn <;> decide
      subst hside
      rcases w.eq_or_eq_other v with rfl | rfl
      · exact horigin hv.symm
      · exact hother hbefore

theorem rights_after (h : Agrees pos g) (hg : Sound g) (hm : g.Moves m)
    (hcode : Arriving g m code) (hafter : IsAfter pos.board g m code after) (side : Side)
    (w : Wing) :
    look after (w.corner side) = Kind.unmovedRook.code * side.sign ↔
      (g.play m).Unmoved side w := by
  have hplay : (g.play m).Unmoved side w ↔ g.Unmoved side w ∧ m.origin ≠ kingHome side ∧
      m.origin ≠ w.corner side ∧ m.target ≠ w.corner side := by
    show (∀ k ∈ m :: g.record, _) ∧ (∀ k ∈ m :: g.record, _) ↔ _
    unfold State.Unmoved
    simp only [List.forall_mem_cons]
    constructor
    · rintro ⟨⟨h₁, h₂⟩, ⟨h₃, h₄⟩, h₅⟩
      exact ⟨⟨h₂, h₅⟩, h₁, h₃, h₄⟩
    · rintro ⟨⟨h₂, h₅⟩, h₁, h₃, h₄⟩
      exact ⟨⟨h₁, h₂⟩, ⟨h₃, h₄⟩, h₅⟩
  rw [hplay, ← h.rights]
  constructor
  · intro hs
    obtain ⟨-, horigin, htarget, hbefore⟩ := h.unmoved_before hcode hafter (.inl rfl) hs
    refine ⟨hbefore, ?_, horigin.symm, htarget.symm⟩
    intro heq
    have hking := (h.unmovedRook_after hg hm hcode hafter hs).1
    obtain ⟨-, hne, -⟩ := h.unmoved_before hcode hafter (.inr rfl) hking
    exact hne heq.symm
  · rintro ⟨hbefore, hking, horigin, htarget⟩
    refine h.unmoved_after hm hafter (.inl rfl) hbefore ?_ horigin.symm htarget.symm ?_
    · rintro (⟨hcodeking, v, hv⟩ | ⟨v, -, -, -, hhome⟩)
      · have hhome := h.unmovedKing _ _ hcodeking
        rw [(Wing.corner_inj hv).2] at hking
        exact hking hhome
      · exact w.corner_ne_kingHome side g.turn hhome
    · intro v hv heq
      have hcastle := hm.castles hv
      rw [(Wing.corner_inj heq).2, hcastle.1] at hking
      exact hking rfl

/-- A move leads from a position that agrees with a game to one that agrees with the
game after the move. -/
theorem play (h : Agrees pos g) (hg : Sound g) (hm : g.Moves m) (hcode : Arriving g m code)
    (hafter : IsAfter pos.board g m code after) (piece : Int) :
    Agrees (pos.successor after pos.mover.opponent ⟨piece, m.origin, m.target⟩) (g.play m) where
  size := h.size
  board := hafter.valid
  placement := h.placement_after hcode hafter
  mover := congrArg Side.opponent h.mover
  last m' hm' := by
    cases hm'
    rfl
  no_last hrecord := by
    cases hrecord
  unmovedKing s side hs := by
    obtain ⟨-, -, -, hbefore⟩ := h.unmoved_before hcode hafter (.inr rfl) hs
    exact h.unmovedKing s side hbefore
  unmovedRook s side hs := h.unmovedRook_after hg hm hcode hafter hs
  rights side w := h.rights_after hg hm hcode hafter side w

end Agrees

end BoardGame.Chess
