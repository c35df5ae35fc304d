import BoardGame.Proofs.Chess.Games
/-!
# Kings that castle no more

A king keeps the code of an unmoved one when its rooks are gone. It may as well have that
of any other king: the same squares are attacked, and the same moves are found, in the same
order.
-/

namespace BoardGame.Chess

open Laws

/-- A code, with the king of a side that has lost its rights as one that has moved. -/
def retire (lost : Side → Bool) (code : Int) : Int :=
  if code = Kind.unmovedKing.code ∧ lost .white = true then Kind.king.code
  else if code = -Kind.unmovedKing.code ∧ lost .black = true then -Kind.king.code
  else code

variable {lost : Side → Bool} {code : Int} {k : Kind} {side : Side}

@[simp] theorem retire_zero : retire lost 0 = 0 := by
  simp [retire, Kind.code]

theorem retire_code (lost : Side → Bool) (k : Kind) (side : Side) :
    retire lost (k.code * side.sign) =
      if k = .unmovedKing ∧ lost side = true then Kind.king.code * side.sign
      else k.code * side.sign := by
  cases k <;> cases side <;> simp [retire, Kind.code, Side.sign]

theorem retire_eq_self (hlost : lost side = true → k ≠ .unmovedKing) :
    retire lost (k.code * side.sign) = k.code * side.sign := by
  rw [retire_code, if_neg]
  rintro ⟨hk, hside⟩
  exact hlost hside hk

theorem retire_cases (lost : Side → Bool) (code : Int) :
    retire lost code = code ∨ ∃ side : Side, code = Kind.unmovedKing.code * side.sign ∧
      retire lost code = Kind.king.code * side.sign := by
  unfold retire
  by_cases hwhite : code = Kind.unmovedKing.code ∧ lost .white = true
  · rw [if_pos hwhite]
    exact .inr ⟨.white, hwhite.1, rfl⟩
  rw [if_neg hwhite]
  by_cases hblack : code = -Kind.unmovedKing.code ∧ lost .black = true
  · rw [if_pos hblack]
    exact .inr ⟨.black, hblack.1, rfl⟩
  · rw [if_neg hblack]
    exact .inl rfl

theorem retire_eq_iff (hking : k ≠ .king) (hunmoved : k ≠ .unmovedKing) :
    retire lost code = k.code * side.sign ↔ code = k.code * side.sign := by
  rcases retire_cases lost code with heq | ⟨owner, hcode, heq⟩
  · rw [heq]
  · rw [heq, hcode]
    exact ⟨fun h => absurd (code_mul_inj h).1.symm hking,
      fun h => absurd (code_mul_inj h).1.symm hunmoved⟩

theorem natAbs_retire_eq (hking : k ≠ .king) (hunmoved : k ≠ .unmovedKing) :
    ((retire lost code).natAbs : Int) = k.code ↔ (code.natAbs : Int) = k.code := by
  rcases retire_cases lost code with heq | ⟨owner, hcode, heq⟩
  · rw [heq]
  · rw [heq, hcode, natAbs_code_mul, natAbs_code_mul]
    exact ⟨fun h => absurd (Kind.code_injective h).symm hking,
      fun h => absurd (Kind.code_injective h).symm hunmoved⟩

theorem sign_retire : (retire lost code).sign = code.sign := by
  rcases retire_cases lost code with heq | ⟨owner, hcode, heq⟩
  · rw [heq]
  · rw [heq, hcode, sign_code_mul, sign_code_mul]

theorem retire_eq_zero : retire lost code = 0 ↔ code = 0 := by
  rw [← Int.sign_eq_zero_iff_zero, sign_retire, Int.sign_eq_zero_iff_zero]

theorem man_retire (hle : code.natAbs ≤ 8) : man (retire lost code) = man code := by
  by_cases hzero : code = 0
  · rw [hzero, retire_zero]
  · obtain ⟨k, side, rfl⟩ := exists_kind hzero hle
    rw [retire_code]
    split
    next h => rw [h.1, man_code, man_code]; rfl
    next => rfl

/-! ## Boards -/

/-- The boards are the same but for kings that castle no more. -/
structure Retired (lost : Side → Bool) (a b : Board) : Prop where
  left : Valid a
  right : Valid b
  look : ∀ s, look b s = retire lost (look a s)

namespace Retired

variable {a b : Board} {s t d : Square} {n : Nat}

theorem placement (h : Retired lost a b) : placement b = placement a := by
  funext s
  show man (Chess.look b s) = man (Chess.look a s)
  rw [h.look, man_retire (h.left.code_le s)]

theorem eq_map (h : Retired lost a b) : b = a.map (retire lost) := by
  apply Array.ext
  · rw [Array.size_map, h.left.size, h.right.size]
  · intro i hb hm
    rw [Array.size_map] at hm
    rw [Array.getElem_map, h.left.getElem_eq_look hm, h.right.getElem_eq_look hb, h.look]

theorem look_eq_zero (h : Retired lost a b) : Chess.look b s = 0 ↔ Chess.look a s = 0 := by
  rw [h.look, retire_eq_zero]

theorem read_eq_zero (h : Retired lost a b) (hs : s.onBoard boardSize = true) :
    b.read boardSize s = 0 ↔ a.read boardSize s = 0 := by
  have hon := onBoard_iff_laws.mp hs
  rw [← look_eq_read hon, ← look_eq_read hon, h.look_eq_zero]

theorem write (h : Retired lost a b) (hs : OnBoard s) (hle : code.natAbs ≤ 8)
    (hcode : retire lost code = code) :
    Retired lost (write a s code) (Chess.write b s code) where
  left := h.left.write hs hle
  right := h.right.write hs hle
  look t := by
    rw [h.right.look_write hs, h.left.look_write hs, h.look]
    split
    · exact hcode.symm
    · rfl

/-! ## Attacks -/

theorem firstOccupied?_eq (h : Retired lost a b) :
    firstOccupied? b s d n = firstOccupied? a s d n := by
  induction n generalizing s with
  | zero => rfl
  | succ n ih =>
      unfold firstOccupied?
      dsimp only
      by_cases hon : (s + d).onBoard boardSize = true
      · rw [hon, ih]
        simp only [h.read_eq_zero hon, ne_eq]
      · rw [Bool.not_eq_true] at hon
        rw [hon]
        rfl

theorem reach_eq (h : Retired lost a b) : reach b s d n = reach a s d n := by
  induction n generalizing s with
  | zero => rfl
  | succ n ih =>
      unfold reach
      dsimp only
      by_cases hon : (s + d).onBoard boardSize = true
      · rw [hon, ih]
        simp only [h.read_eq_zero hon, ne_eq]
      · rw [Bool.not_eq_true] at hon
        rw [hon]
        rfl

theorem exists_attackerSign (board : Board) (s : Square) :
    ∃ side : Side, attackerSign board s = side.sign := by
  unfold attackerSign
  split
  · exact ⟨.black, rfl⟩
  · exact ⟨.white, rfl⟩

theorem attackerSign_eq (h : Retired lost a b) : attackerSign b s = attackerSign a s := by
  have hpos : 0 < Chess.look b s ↔ 0 < Chess.look a s := by
    rw [← Int.sign_eq_one_iff_pos, ← Int.sign_eq_one_iff_pos, h.look, sign_retire]
  unfold attackerSign
  simp only [hpos]

theorem attackedAlong_eq (h : Retired lost a b) : attackedAlong b s d = attackedAlong a s d := by
  unfold attackedAlong
  dsimp only
  rw [h.firstOccupied?_eq, h.attackerSign_eq]
  cases hfound : firstOccupied? a s d boardSize with
  | none => rfl
  | some t =>
      obtain ⟨-, -, -, hne, -⟩ := firstOccupied?_eq_some.mp hfound
      have hon := onBoard_of_look_ne_zero hne
      obtain ⟨k, side, hk⟩ := exists_kind hne (h.left.code_le t)
      dsimp only
      rw [← look_eq_read hon, ← look_eq_read hon, h.look, hk, retire_code]
      by_cases hretired : k = .unmovedKing ∧ lost side = true
      · obtain ⟨attacker, hattacker⟩ := exists_attackerSign a s
        rw [if_pos hretired, hretired.1, hattacker]
        cases side <;> cases attacker <;> rfl
      · rw [if_neg hretired]

theorem attacked_eq (h : Retired lost a b) : attacked b s = attacked a s := by
  have hknight : attackedByKnight b s = attackedByKnight a s := by
    obtain ⟨attacker, hattacker⟩ := exists_attackerSign a s
    unfold attackedByKnight
    dsimp only
    rw [h.attackerSign_eq, hattacker]
    congr 1
    funext jump
    rw [Bool.eq_iff_iff, beq_iff_eq, beq_iff_eq, h.look, retire_eq_iff (by decide) (by decide)]
  unfold attacked
  rw [hknight]
  congr 2
  funext d
  exact h.attackedAlong_eq

theorem inCheck_eq (h : Retired lost a b) (king : Option Square) :
    inCheck b king = inCheck a king := by
  cases king with
  | none => rfl
  | some k => exact h.attacked_eq

end Retired

/-! ## The board after a move -/

/-- A side that has lost its rights has no unmoved rook in a corner. -/
def Forfeited (lost : Side → Bool) (board : Board) : Prop :=
  ∀ side, lost side = true → ∀ w : Wing,
    look board (w.corner side) ≠ Kind.unmovedRook.code * side.sign

namespace Retired

variable {pos : Position} {g : State} {before a b : Board} {origin target : Square}

theorem look_eq_iff (h : Retired lost a b) {s : Square} (hking : k ≠ .king)
    (hunmoved : k ≠ .unmovedKing) :
    Chess.look b s = k.code * side.sign ↔ Chess.look a s = k.code * side.sign := by
  rw [h.look, retire_eq_iff hking hunmoved]

theorem natAbs_look_eq (h : Retired lost a b) {s : Square} (hking : k ≠ .king)
    (hunmoved : k ≠ .unmovedKing) :
    ((Chess.look b s).natAbs : Int) = k.code ↔ ((Chess.look a s).natAbs : Int) = k.code := by
  rw [h.look, natAbs_retire_eq hking hunmoved]

theorem captureEnPassant (hbefore : Retired lost pos.board before) (h : Retired lost a b)
    (horigin : OnBoard origin) (htarget : OnBoard target) :
    Retired lost (captureEnPassant pos.board a origin target)
      (Chess.captureEnPassant before b origin target) := by
  unfold Chess.captureEnPassant
  simp only [hbefore.natAbs_look_eq (k := .pawn) (by decide) (by decide), hbefore.look_eq_zero]
  split
  · exact h.write ⟨htarget.1, horigin.2⟩ (by decide) retire_zero
  · exact h

theorem releaseRook (hbefore : Retired lost pos.board before) (h : Retired lost a b) {x y : Int}
    (hon : OnBoard ⟨x, y⟩) (side : Side) :
    Retired lost (releaseRook pos.board side.sign y a x)
      (Chess.releaseRook before side.sign y b x) := by
  unfold Chess.releaseRook
  simp only [hbefore.look_eq_iff (k := .unmovedRook) (by decide) (by decide)]
  split
  · exact h.write hon (natAbs_code_mul_le _ _) (retire_eq_self fun _ => by decide)
  · exact h

theorem onBoard_of_rank {x : Int} (hrank : ¬ (origin.y ≠ 0 ∧ origin.y ≠ 7)) (hx : 0 ≤ x)
    (hx' : x < 8) : OnBoard ⟨x, origin.y⟩ := by
  unfold OnBoard
  dsimp only
  omega

/-- A king that has lost its rights has no unmoved rook to take with it. -/
theorem releaseRook_eq_self (hlost : Forfeited lost pos.board) (hgone : lost side = true)
    (w : Wing) (board : Board) :
    Chess.releaseRook pos.board side.sign (w.corner side).y board (w.corner side).x = board := by
  unfold Chess.releaseRook
  exact if_neg (hlost side hgone w)

theorem giveUpCastling_king (hpos : Agrees pos g) (hlost : Forfeited lost pos.board)
    (hbefore : Retired lost pos.board before) (h : Retired lost a b)
    (hrank : ¬ (origin.y ≠ 0 ∧ origin.y ≠ 7))
    (hking : ((Chess.look pos.board origin).natAbs : Int) = Kind.unmovedKing.code) :
    Retired lost (giveUpCastling pos.board a origin)
      (Chess.giveUpCastling before b origin) := by
  obtain ⟨side, hside⟩ := exists_side hking
  unfold Chess.giveUpCastling
  dsimp only
  rw [if_neg hrank, if_neg hrank, if_pos hking, hside, sign_code_mul]
  by_cases hgone : lost side = true
  · have hlook : Chess.look before origin = Kind.king.code * side.sign := by
      rw [hbefore.look, hside, retire_code, if_pos ⟨rfl, hgone⟩]
    have hkept : [0, 7].foldl (Chess.releaseRook pos.board side.sign origin.y) a = a := by
      rw [hpos.unmovedKing _ _ hside]
      exact (releaseRook_eq_self hlost hgone .kingside _).trans
        (releaseRook_eq_self hlost hgone .queenside a)
    rw [hlook, natAbs_code_mul, if_neg (by decide), if_neg fun hc => absurd hc.1 (by decide), hkept]
    exact h
  · have hlook : Chess.look before origin = Kind.unmovedKing.code * side.sign := by
      rw [hbefore.look, hside, retire_eq_self fun hc => absurd hc hgone]
    rw [hlook, natAbs_code_mul, if_pos rfl, sign_code_mul]
    exact hbefore.releaseRook
      (hbefore.releaseRook h (onBoard_of_rank hrank (by decide) (by decide)) side)
      (onBoard_of_rank hrank (by decide) (by decide)) side

theorem look_home (hpos : Agrees pos g) (hlost : Forfeited lost pos.board)
    (hbefore : Retired lost pos.board before)
    (hrook : ((Chess.look pos.board origin).natAbs : Int) = Kind.unmovedRook.code) :
    Chess.look before ⟨4, origin.y⟩ = Chess.look pos.board ⟨4, origin.y⟩ := by
  obtain ⟨side, hside⟩ := exists_side hrook
  obtain ⟨hunmoved, w, hw⟩ := hpos.unmovedRook _ _ hside
  have hsquare : (⟨4, origin.y⟩ : Square) = kingHome side := by
    rw [hw]
    cases w <;> rfl
  rw [hbefore.look, hsquare, hunmoved, retire_eq_self]
  exact fun hgone => absurd (hw ▸ hside) (hlost side hgone w)

theorem giveUpCastling_rook (hpos : Agrees pos g) (hlost : Forfeited lost pos.board)
    (hbefore : Retired lost pos.board before) (h : Retired lost a b)
    (hrank : ¬ (origin.y ≠ 0 ∧ origin.y ≠ 7))
    (hking : ((Chess.look pos.board origin).natAbs : Int) ≠ Kind.unmovedKing.code) :
    Retired lost (giveUpCastling pos.board a origin)
      (Chess.giveUpCastling before b origin) := by
  have hlook : Chess.look before origin = Chess.look pos.board origin := by
    rw [hbefore.look]
    rcases retire_cases lost (Chess.look pos.board origin) with heq | ⟨side, hside, -⟩
    · exact heq
    · rw [hside, natAbs_code_mul] at hking
      exact absurd rfl hking
  have hsame : (((Chess.look pos.board origin).natAbs : Int) = Kind.unmovedRook.code ∧
      ((Chess.look before ⟨7 - origin.x, origin.y⟩).natAbs : Int) ≠ Kind.unmovedRook.code ∧
      ((Chess.look before ⟨4, origin.y⟩).natAbs : Int) = Kind.unmovedKing.code) ↔
      ((Chess.look pos.board origin).natAbs : Int) = Kind.unmovedRook.code ∧
      ((Chess.look pos.board ⟨7 - origin.x, origin.y⟩).natAbs : Int) ≠ Kind.unmovedRook.code ∧
      ((Chess.look pos.board ⟨4, origin.y⟩).natAbs : Int) = Kind.unmovedKing.code := by
    apply and_congr_right
    intro hrook
    rw [hbefore.look_home hpos hlost hrook, ne_eq, ne_eq,
      hbefore.natAbs_look_eq (by decide) (by decide)]
  unfold Chess.giveUpCastling
  dsimp only
  rw [if_neg hrank, if_neg hrank, hlook, if_neg hking, if_neg hking]
  simp only [hsame]
  split
  next hgiven =>
    obtain ⟨side, hside⟩ := exists_side hgiven.1
    rw [hside, sign_code_mul]
    exact h.write (onBoard_of_rank hrank (by decide) (by decide)) (natAbs_code_mul_le _ _)
      (retire_eq_self fun _ => by decide)
  next => exact h

theorem giveUpCastling (hpos : Agrees pos g) (hlost : Forfeited lost pos.board)
    (hbefore : Retired lost pos.board before) (h : Retired lost a b) :
    Retired lost (giveUpCastling pos.board a origin)
      (Chess.giveUpCastling before b origin) := by
  by_cases hrank : origin.y ≠ 0 ∧ origin.y ≠ 7
  · unfold Chess.giveUpCastling
    dsimp only
    rw [if_pos hrank, if_pos hrank]
    exact h
  by_cases hking : ((Chess.look pos.board origin).natAbs : Int) = Kind.unmovedKing.code
  · exact hbefore.giveUpCastling_king hpos hlost h hrank hking
  · exact hbefore.giveUpCastling_rook hpos hlost h hrank hking

theorem boardAfter (hpos : Agrees pos g) (hlost : Forfeited lost pos.board)
    (h : Retired lost pos.board before) (horigin : OnBoard origin) (htarget : OnBoard target)
    (hle : code.natAbs ≤ 8) (hcode : retire lost code = code) :
    Retired lost (boardAfter pos.board origin target code)
      (Chess.boardAfter before origin target code) := by
  have hmoved := (h.write htarget hle hcode).write horigin (by decide : (0 : Int).natAbs ≤ 8)
    retire_zero
  exact h.giveUpCastling hpos hlost (h.captureEnPassant hmoved horigin htarget)

theorem passingBoard (h : Retired lost a b) (side : Side) (w : Wing) :
    Retired lost (passingBoard a side w) (Chess.passingBoard b side w) := by
  have hhome : OnBoard (kingHome side) := by cases side <;> decide
  have htransit : OnBoard (w.transit side) := by cases w <;> cases side <;> decide
  exact (h.write hhome (by decide) retire_zero).write htransit (natAbs_code_mul_le _ _)
    (retire_eq_self fun _ => by decide)

theorem castledBoard (h : Retired lost a b) (side : Side) (w : Wing) :
    Retired lost (castledBoard a side w) (Chess.castledBoard b side w) := by
  have htransit : OnBoard (w.transit side) := by cases w <;> cases side <;> decide
  have harrival : OnBoard (w.arrival side) := by cases w <;> cases side <;> decide
  have hcorner : ∀ w : Wing, OnBoard (w.corner side) := by
    intro w
    cases w <;> cases side <;> decide
  have hmoved := (((h.passingBoard side w).write htransit (natAbs_code_mul_le .rook side)
    (retire_eq_self fun _ => by decide)).write harrival (natAbs_code_mul_le .king side)
    (retire_eq_self fun _ => by decide)).write (hcorner w) (by decide) retire_zero
  unfold Chess.castledBoard
  dsimp only
  simp only [h.natAbs_look_eq (k := .unmovedRook) (by decide) (by decide)]
  split
  · exact hmoved.write (hcorner w.other) (natAbs_code_mul_le .rook side)
      (retire_eq_self fun _ => by decide)
  · exact hmoved

end Retired

end BoardGame.Chess
