import BoardGame.Proofs.Chess.Castling.Way
import BoardGame.Proofs.Chess.Effect
/-!
# Castling by the engine

The board that castling leaves, and the engine's test for it. Both rooks lose their
rights, the one that stays behind as well.
-/

namespace BoardGame.Chess

open Laws Square

variable {pos next : Position} {g : State} {w : Wing} {s : Square}

def passingBoard (board : Board) (side : Side) (w : Wing) : Board :=
  write (write board (kingHome side) 0) (w.transit side) (Kind.king.code * side.sign)

def castledBoard (board : Board) (side : Side) (w : Wing) : Board :=
  let castled := write (write (write (passingBoard board side w) (w.transit side)
    (Kind.rook.code * side.sign)) (w.arrival side) (Kind.king.code * side.sign)) (w.corner side) 0
  if (look board (w.other.corner side)).natAbs = Kind.unmovedRook.code then
    write castled (w.other.corner side) (Kind.rook.code * side.sign)
  else castled

theorem codeAfter_castling (hman : g.placement (kingHome g.turn) = some ⟨g.turn, .king⟩)
    (board : Board) (w : Wing) (code : Int) (s : Square) :
    codeAfter board g (castling g.turn w) code s =
      if s = kingHome g.turn then 0 else if s = w.arrival g.turn then code
      else if s = w.corner g.turn then 0
      else if s = w.transit g.turn then Kind.rook.code * g.turn.sign
      else look board s := by
  unfold codeAfter
  rw [passedPawn?_castling hman, wing?_castling hman, if_neg (c := none = some s) (by simp)]
  rfl

theorem demoted_castling {board : Board}
    (hking : look board (kingHome g.turn) = Kind.unmovedKing.code * g.turn.sign) (w : Wing) :
    Demoted board g.turn (castling g.turn w).origin s ↔
      s = w.corner g.turn ∨ s = w.other.corner g.turn := by
  constructor
  · rintro (⟨-, v, rfl⟩ | ⟨v, -, hrook, -⟩)
    · rcases v.eq_or_eq_other w with rfl | rfl
      · exact .inl rfl
      · exact .inr rfl
    · rw [show (castling g.turn w).origin = kingHome g.turn from rfl, hking] at hrook
      cases (code_mul_inj hrook).1
  · rintro (rfl | rfl)
    · exact .inl ⟨hking, w, rfl⟩
    · exact .inl ⟨hking, w.other, rfl⟩

namespace Agrees

theorem look_castledBoard (h : Agrees pos g) (w : Wing) :
    Valid (castledBoard pos.board g.turn w) ∧ ∀ s, look (castledBoard pos.board g.turn w) s =
      if s = w.other.corner g.turn ∧
          ((look pos.board (w.other.corner g.turn)).natAbs : Int) = Kind.unmovedRook.code then
        Kind.rook.code * g.turn.sign
      else if s = w.corner g.turn then 0
      else if s = w.arrival g.turn then Kind.king.code * g.turn.sign
      else if s = w.transit g.turn then Kind.rook.code * g.turn.sign
      else if s = kingHome g.turn then 0
      else look pos.board s := by
  have hhome : OnBoard (kingHome g.turn) := by cases g.turn <;> decide
  have htransit : OnBoard (w.transit g.turn) := by cases w <;> cases g.turn <;> decide
  have harrival : OnBoard (w.arrival g.turn) := by cases w <;> cases g.turn <;> decide
  have hcorner : OnBoard (w.corner g.turn) := by cases w <;> cases g.turn <;> decide
  have hother : OnBoard (w.other.corner g.turn) := by cases w <;> cases g.turn <;> decide
  -- the five writes in turn: the king passes its transit, where the rook then stands
  have h₁ : Valid (write pos.board (kingHome g.turn) 0) := h.board.write hhome (by decide)
  have h₂ := h₁.write htransit (natAbs_code_mul_le .king g.turn)
  have h₃ := h₂.write htransit (natAbs_code_mul_le .rook g.turn)
  have h₄ := h₃.write harrival (natAbs_code_mul_le .king g.turn)
  have h₅ : Valid (write (write (write (write (write pos.board (kingHome g.turn) 0)
      (w.transit g.turn) (Kind.king.code * g.turn.sign)) (w.transit g.turn)
      (Kind.rook.code * g.turn.sign)) (w.arrival g.turn) (Kind.king.code * g.turn.sign))
      (w.corner g.turn) 0) := h₄.write hcorner (by decide)
  have hlook : ∀ s, look (write (write (write (write (write pos.board (kingHome g.turn) 0)
      (w.transit g.turn) (Kind.king.code * g.turn.sign)) (w.transit g.turn)
      (Kind.rook.code * g.turn.sign)) (w.arrival g.turn) (Kind.king.code * g.turn.sign))
      (w.corner g.turn) 0) s =
      if s = w.corner g.turn then 0
      else if s = w.arrival g.turn then Kind.king.code * g.turn.sign
      else if s = w.transit g.turn then Kind.rook.code * g.turn.sign
      else if s = kingHome g.turn then 0
      else look pos.board s := by
    intro s
    rw [h₄.look_write hcorner, h₃.look_write harrival, h₂.look_write htransit,
      h₁.look_write htransit, h.board.look_write hhome]
    by_cases hs : s = w.transit g.turn
    · simp only [if_pos hs]
    · simp only [if_neg hs]
  unfold castledBoard passingBoard
  dsimp only
  by_cases hunmoved : ((look pos.board (w.other.corner g.turn)).natAbs : Int) =
      Kind.unmovedRook.code
  · rw [if_pos hunmoved]
    refine ⟨h₅.write hother (natAbs_code_mul_le .rook g.turn), fun s => ?_⟩
    rw [h₅.look_write hother, hlook]
    simp only [hunmoved, and_true]
  · rw [if_neg hunmoved]
    refine ⟨h₅, fun s => ?_⟩
    rw [hlook, if_neg (c := s = w.other.corner g.turn ∧ _) fun hc => hunmoved hc.2]

theorem arriving_castling (h : Agrees pos g)
    (hking : look pos.board (kingHome g.turn) = Kind.unmovedKing.code * g.turn.sign) (w : Wing) :
    Arriving g (castling g.turn w) (Kind.king.code * g.turn.sign) where
  le := natAbs_code_mul_le .king g.turn
  man := by
    have hman := h.placement_of_look hking
    rw [man_code]
    unfold State.arriving
    rw [if_neg]
    · exact hman.symm
    · rintro ⟨hpawn, -⟩
      rw [show (castling g.turn w).origin = kingHome g.turn from rfl, hman] at hpawn
      cases hpawn
  moved side := by
    constructor <;> intro heq <;> cases (code_mul_inj heq).1

theorem isAfter_castledBoard (h : Agrees pos g)
    (hking : look pos.board (kingHome g.turn) = Kind.unmovedKing.code * g.turn.sign) (w : Wing) :
    IsAfter pos.board g (castling g.turn w) (Kind.king.code * g.turn.sign)
      (castledBoard pos.board g.turn w) := by
  obtain ⟨hvalid, hlook⟩ := h.look_castledBoard w
  have hcode := h.arriving_castling hking w
  have hcodeAfter := codeAfter_castling (h.placement_of_look hking) pos.board w
    (Kind.king.code * g.turn.sign)
  have hdistinct : w.corner g.turn ≠ kingHome g.turn ∧ w.corner g.turn ≠ w.arrival g.turn ∧
      w.corner g.turn ≠ w.transit g.turn ∧ w.other.corner g.turn ≠ kingHome g.turn ∧
      w.other.corner g.turn ≠ w.arrival g.turn ∧ w.other.corner g.turn ≠ w.transit g.turn ∧
      w.other.corner g.turn ≠ w.corner g.turn ∧ kingHome g.turn ≠ w.arrival g.turn ∧
      kingHome g.turn ≠ w.transit g.turn := by
    cases w <;> cases g.turn <;> decide
  obtain ⟨hch, hca, hct, hoh, hoa, hot, hoc, hha, hht⟩ := hdistinct
  refine ⟨hvalid, fun s hs => ?_, fun s hs => ?_⟩
  · rcases (demoted_castling hking w).mp hs with rfl | rfl
    · rw [hlook, hcodeAfter, if_neg fun hc => hoc hc.1.symm, if_pos rfl, if_neg hch, if_neg hca,
        if_pos rfl, demote_zero]
    · rw [hlook]
      by_cases hunmoved : look pos.board (w.other.corner g.turn) =
          Kind.unmovedRook.code * g.turn.sign
      · have habs := (h.natAbs_look_corner w.other g.turn).mpr hunmoved
        rw [if_pos ⟨rfl, habs⟩, hcodeAfter, if_neg hoh, if_neg hoa, if_neg hoc, if_neg hot,
          hunmoved, demote_code]
      · have habs := mt (h.natAbs_look_corner w.other g.turn).mp hunmoved
        rw [h.demote_codeAfter_corner hcode hunmoved, if_neg fun hc => habs hc.2, hcodeAfter,
          if_neg hoc, if_neg hoa, if_neg hot, if_neg hoh, if_neg hoh, if_neg hoa, if_neg hoc,
          if_neg hot]
  · rw [demoted_castling hking w] at hs
    rw [hlook, hcodeAfter, if_neg fun hc => hs (.inr hc.1), if_neg fun hc => hs (.inl hc),
      if_neg fun hc => hs (.inl hc)]
    by_cases hhome : s = kingHome g.turn
    · subst hhome
      rw [if_neg hha, if_neg hht, if_pos rfl, if_pos rfl]
    · rw [if_neg hhome, if_neg hhome]

/-! ## The engine's test -/

theorem placement_passingBoard (h : Agrees pos g) (w : Wing) :
    Valid (passingBoard pos.board g.turn w) ∧
      Chess.placement (passingBoard pos.board g.turn w) = passing g.placement g.turn w := by
  have hhome : OnBoard (kingHome g.turn) := by cases g.turn <;> decide
  have htransit : OnBoard (w.transit g.turn) := by cases w <;> cases g.turn <;> decide
  have hleft : Valid (write pos.board (kingHome g.turn) 0) := h.board.write hhome (by decide)
  refine ⟨hleft.write htransit (natAbs_code_mul_le .king g.turn), funext fun s => ?_⟩
  unfold passingBoard passing
  rw [hleft.placement_write htransit, h.board.placement_write hhome, h.placement, man_zero,
    man_code]
  rfl

theorem free_iff (h : Agrees pos g) (w : Wing) :
    ((List.range boardSize).all fun (x : Nat) =>
      let between := if w.direction < 0 then 1 ≤ (x : Int) ∧ x < (kingHome g.turn).x
        else (kingHome g.turn).x < x ∧ (x : Int) < 7
      !decide between || look pos.board ⟨x, (kingHome g.turn).y⟩ == 0) = true ↔
      Clear g.placement (kingHome g.turn) (w.corner g.turn) := by
  have hrow : (kingHome g.turn).y = (w.corner g.turn).y := by cases w <;> rfl
  have hx : (kingHome g.turn).x = 4 := rfl
  have hside : (w.direction < 0 ∧ (w.corner g.turn).x = 0) ∨
      (¬ w.direction < 0 ∧ (w.corner g.turn).x = 7) := by
    cases w
    · exact .inl ⟨by decide, rfl⟩
    · exact .inr ⟨by decide, rfl⟩
  rw [List.all_eq_true]
  simp only [Bool.or_eq_true, Bool.not_eq_true', decide_eq_false_iff_not, beq_iff_eq,
    List.mem_range, h.look_eq_zero, hx]
  constructor
  · intro hfree u hu
    have huy := y_of_mem_between hu hrow
    have hux := row_of_mem_between hu huy
    have hu' : u = ⟨(u.x.toNat : Int), (kingHome g.turn).y⟩ := by
      obtain ⟨ux, uy⟩ := u
      simp only at huy hux ⊢
      rw [Square.mk.injEq]
      omega
    rw [hu']
    refine (hfree u.x.toNat (by unfold boardSize; omega)).resolve_left fun hnot => hnot ?_
    rcases hside with ⟨hdir, hcorner⟩ | ⟨hdir, hcorner⟩
    · rw [if_pos hdir]
      omega
    · rw [if_neg hdir]
      omega
  · intro hclear x hlt
    by_cases hbetween : if w.direction < 0 then 1 ≤ (x : Int) ∧ (x : Int) < 4
        else 4 < (x : Int) ∧ (x : Int) < 7
    · right
      apply hclear
      refine mem_between_of_row (u := ⟨x, (kingHome g.turn).y⟩) hrow hrow ?_
      dsimp only
      rcases hside with ⟨hdir, hcorner⟩ | ⟨hdir, hcorner⟩
      · rw [if_pos hdir] at hbetween
        omega
      · rw [if_neg hdir] at hbetween
        omega
    · exact .inl hbetween

theorem ready (h : Agrees pos g)
    (hking : look pos.board (kingHome g.turn) = Kind.unmovedKing.code * g.turn.sign)
    (hunmoved : g.Unmoved g.turn w)
    (hclear : Clear g.placement (kingHome g.turn) (w.corner g.turn)) : Ready g w := by
  exact ⟨h.placement_of_look hking, h.placement_of_look ((h.rights _ _).mpr hunmoved), hclear⟩

theorem attacked_passingBoard_iff (h : Agrees pos g) (hready : Ready g w)
    (hsafe : ¬ Attacked g.placement g.turn.opponent (kingHome g.turn)) :
    attacked (passingBoard pos.board g.turn w) (w.transit g.turn) = true ↔
      Attacked g.placement g.turn.opponent (w.transit g.turn) := by
  obtain ⟨hvalid, hpassing⟩ := h.placement_passingBoard w
  have hman : Chess.placement (passingBoard pos.board g.turn w) (w.transit g.turn) =
      some ⟨g.turn, .king⟩ := by
    rw [hpassing]
    unfold passing
    rw [if_pos rfl]
  rw [attacked_king_iff hvalid hman, hpassing]
  exact ⟨attacked_of_passing hready.king hready.transit_empty hsafe,
    attacked_passing hready.king hready.transit_empty⟩

theorem attacked_castledBoard_iff (h : Agrees pos g) (hg : Sound g)
    (hking : look pos.board (kingHome g.turn) = Kind.unmovedKing.code * g.turn.sign)
    (hready : Ready g w) :
    attacked (castledBoard pos.board g.turn w) (w.arrival g.turn) = true ↔
      Attacked g.placement g.turn.opponent (w.arrival g.turn) := by
  have hafter := h.isAfter_castledBoard hking w
  have hcastled := h.placement_after (h.arriving_castling hking w) hafter
  rw [← hready.attacked_arrival_iff hg, ← hcastled]
  apply attacked_king_iff hafter.valid
  rw [hcastled]
  exact (hready.king_after hg _).mpr rfl

/-- What keeps the engine from looking any further: a rook that has moved, a man on the way, or
a king in check. -/
theorem barred_iff (h : Agrees pos g)
    (hking : look pos.board (kingHome g.turn) = Kind.unmovedKing.code * g.turn.sign) (w : Wing)
    {free : Bool} (hfree : free = true ↔ Clear g.placement (kingHome g.turn) (w.corner g.turn)) :
    ((look pos.board (w.corner g.turn)).natAbs ≠ Kind.unmovedRook.code ∨ (!free) = true ∨
      attacked pos.board (kingHome g.turn) = true) ↔
      ¬ (g.Unmoved g.turn w ∧ Clear g.placement (kingHome g.turn) (w.corner g.turn) ∧
        ¬ Attacked g.placement g.turn.opponent (kingHome g.turn)) := by
  have hrook := (h.natAbs_look_corner w g.turn).trans (h.rights g.turn w)
  have hstart : attacked pos.board (kingHome g.turn) = true ↔
      Attacked g.placement g.turn.opponent (kingHome g.turn) := by
    rw [← h.placement]
    exact attacked_king_iff h.board (by rw [h.placement]; exact h.placement_of_look hking)
  rw [Ne, hrook, hstart, Bool.not_eq_true', ← Bool.not_eq_true, hfree,
    Classical.not_and_iff_not_or_not, Classical.not_and_iff_not_or_not, Classical.not_not]

/-- The engine castles exactly where the laws let it. -/
theorem castle?_eq_some (h : Agrees pos g) (hg : Sound g)
    (hking : look pos.board (kingHome g.turn) = Kind.unmovedKing.code * g.turn.sign) (w : Wing) :
    castle? pos (kingHome g.turn) (w.corner g.turn).x w.direction = some next ↔
      g.Legal (castling g.turn w) ∧ next = pos.successor (castledBoard pos.board g.turn w)
        pos.mover.opponent ⟨Kind.king.code * g.turn.sign, kingHome g.turn, w.arrival g.turn⟩ := by
  have hsign : (look pos.board (kingHome g.turn)).sign = g.turn.sign := by
    rw [hking, sign_code_mul]
  have hcorner : (⟨(w.corner g.turn).x, (kingHome g.turn).y⟩ : Square) = w.corner g.turn := by
    cases w <;> rfl
  have hother : (⟨7 - (w.corner g.turn).x, (kingHome g.turn).y⟩ : Square) =
      w.other.corner g.turn := by
    cases w <;> rfl
  have hbarred := h.barred_iff hking w (h.free_iff w)
  dsimp only at hbarred
  unfold castle?
  dsimp only
  rw [hsign, hcorner, hother]
  by_cases hway : g.Unmoved g.turn w ∧ Clear g.placement (kingHome g.turn) (w.corner g.turn) ∧
      ¬ Attacked g.placement g.turn.opponent (kingHome g.turn)
  · rw [if_neg fun hbar => hbarred.mp hbar hway]
    obtain ⟨hunmoved, hclear, hsafe⟩ := hway
    have hready := h.ready hking hunmoved hclear
    show (if attacked (passingBoard pos.board g.turn w) (w.transit g.turn) = true then none
      else if attacked (castledBoard pos.board g.turn w) (w.arrival g.turn) = true then none
      else some _) = some next ↔ _
    rw [hready.legal_iff hg, ← h.attacked_passingBoard_iff hready hsafe,
      ← h.attacked_castledBoard_iff hg hking hready, Option.ite_none_left_eq_some,
      Option.ite_none_left_eq_some, Option.some.injEq]
    constructor
    · rintro ⟨hnot, hnot', rfl⟩
      exact ⟨⟨hunmoved, hsafe, hnot, hnot'⟩, rfl⟩
    · rintro ⟨⟨-, -, hnot, hnot'⟩, rfl⟩
      exact ⟨hnot, hnot', rfl⟩
  · rw [if_pos (hbarred.mpr hway)]
    refine iff_of_false nofun ?_
    rintro ⟨hlegal, -⟩
    have hcastles := hlegal.1.castles (wing?_castling (h.placement_of_look hking) w)
    exact hway ⟨hcastles.2.2.2.1, hcastles.2.2.2.2.1, hcastles.2.2.2.2.2.1⟩

end Agrees

end BoardGame.Chess
