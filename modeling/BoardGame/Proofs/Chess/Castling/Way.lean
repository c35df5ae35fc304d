import BoardGame.Proofs.Chess.Check
/-!
# The king's way in castling

The laws ask whether the squares of the king's way are attacked as the men stand. The
engine moves the king along and asks there. The only lines that this opens or closes
run along the rank, through the square where the king stood; as the king was not
attacked there, the answers are the same.
-/

namespace BoardGame.Chess

open Laws Square

/-! ## Squares of one rank -/

theorem row_of_mem_between {s t u : Square} (h : u ∈ between s t) (hy : u.y = t.y) :
    s.y = t.y ∧ ((s.x < u.x ∧ u.x < t.x) ∨ (t.x < u.x ∧ u.x < s.x)) := by
  unfold between at h
  dsimp only at h
  split at h
  next => cases h
  next hline =>
    obtain ⟨i, hi, rfl⟩ := List.mem_map.mp h
    rw [List.mem_range'_1] at hi
    simp only at hy ⊢
    rcases Int.lt_trichotomy (t.y - s.y) 0 with hdy | hdy | hdy
    · rw [Int.sign_eq_neg_one_of_neg hdy] at hy
      omega
    · refine ⟨by omega, ?_⟩
      rcases Int.lt_trichotomy (t.x - s.x) 0 with hdx | hdx | hdx
      · rw [Int.sign_eq_neg_one_of_neg hdx]
        omega
      · omega
      · rw [Int.sign_eq_one_of_pos hdx]
        omega
    · rw [Int.sign_eq_one_of_pos hdy] at hy
      omega

theorem mem_between_of_row {s t u : Square} (hs : s.y = t.y) (hu : u.y = t.y)
    (h : (s.x < u.x ∧ u.x < t.x) ∨ (t.x < u.x ∧ u.x < s.x)) : u ∈ between s t := by
  unfold between
  dsimp only
  rw [if_neg (by omega), List.mem_map]
  refine ⟨(u.x - s.x).natAbs, ?_, ?_⟩
  · rw [List.mem_range'_1]
    omega
  · obtain ⟨ux, uy⟩ := u
    simp only at hu h ⊢
    rw [Square.mk.injEq]
    have hdy : t.y - s.y = 0 := by omega
    rw [hdy]
    rcases h with h | h
    · rw [Int.sign_eq_one_of_pos (by omega : 0 < t.x - s.x)]
      refine ⟨by omega, ?_⟩
      simp only [Int.sign_zero, Int.zero_mul]
      omega
    · rw [Int.sign_eq_neg_one_of_neg (by omega : t.x - s.x < 0)]
      refine ⟨by omega, ?_⟩
      simp only [Int.sign_zero, Int.zero_mul]
      omega

theorem y_of_mem_between {s t u : Square} (h : u ∈ between s t) (hs : s.y = t.y) :
    u.y = t.y := by
  unfold between at h
  dsimp only at h
  split at h
  next => cases h
  next =>
    obtain ⟨i, -, rfl⟩ := List.mem_map.mp h
    have hdy : t.y - s.y = 0 := by omega
    simp only [hdy, Int.sign_zero, Int.zero_mul]
    omega

theorem not_mem_between (s t : Square) : t ∉ between s t := by
  intro h
  have hrow := row_of_mem_between h rfl
  omega

/-! ## Attacks on the king's way -/

variable {p q : Placement} {side : Side} {a t u : Square}

theorem attacks_of_eq (h : Attacks p side a t) (ha : q a = p a)
    (hclear : ∀ u ∈ between a t, p u = none → q u = none) : Attacks q side a t := by
  obtain ⟨piece, hpiece, hreach, hfree⟩ := h
  exact ⟨piece, ha.trans hpiece, hreach, fun u hu => hclear u hu (hfree u hu)⟩

theorem reaches_of_row {piece : Piece} (h : piece.Reaches side (t - a)) (hu : u ∈ between a t)
    (hy : u.y = t.y) : piece.Reaches side (u - a) := by
  have hrow := row_of_mem_between hu hy
  have hsign := Side.sign_cases side
  cases piece <;> simp only [Piece.Reaches, sub_x, sub_y] at h ⊢ <;> omega

/-- The king has stepped from home to the square that it passes. -/
def passing (p : Placement) (side : Side) (w : Wing) : Placement := fun s =>
  if s = w.transit side then some ⟨side, .king⟩
  else if s = kingHome side then none
  else p s

theorem passing_of_ne {w : Wing} {s : Square} (hs : s ≠ w.transit side)
    (hs' : s ≠ kingHome side) : passing p side w s = p s := by
  unfold passing
  rw [if_neg hs, if_neg hs']

/-- A man that attacks the king in passing attacked the square before: one that stands
behind the king would have attacked the king at home. -/
theorem attacked_of_passing {w : Wing} (hking : p (kingHome side) = some ⟨side, .king⟩)
    (htransit : p (w.transit side) = none) (hsafe : ¬ Attacked p side.opponent (kingHome side))
    (h : Attacked (passing p side w) side.opponent (w.transit side)) :
    Attacked p side.opponent (w.transit side) := by
  have hleft : kingHome side ≠ w.transit side := by
    intro heq
    rw [heq, htransit] at hking
    cases hking
  obtain ⟨a, hattack⟩ := h
  obtain ⟨piece, hpiece, hreach, hfree⟩ := id hattack
  have hne : a ≠ w.transit side := by
    rintro rfl
    unfold passing at hpiece
    rw [if_pos rfl] at hpiece
    exact opponent_man_ne side _ _ (Option.some.inj hpiece).symm
  have hne' : a ≠ kingHome side := by
    rintro rfl
    unfold passing at hpiece
    rw [if_neg hleft, if_pos rfl] at hpiece
    cases hpiece
  -- an attacker that only the king had screened stands on its rank, and had the king in check
  by_cases hbehind : kingHome side ∈ between a (w.transit side)
  · exfalso
    have hrow := row_of_mem_between hbehind rfl
    apply hsafe
    refine ⟨a, piece, (passing_of_ne hne hne').symm.trans hpiece,
      reaches_of_row hreach hbehind rfl, fun u hu => ?_⟩
    have huy := y_of_mem_between hu hrow.1
    have hux := row_of_mem_between hu huy
    have hon : u ∈ between a (w.transit side) := mem_between_of_row hrow.1 huy (by omega)
    have hsame : passing p side w u = p u := by
      apply passing_of_ne
      · rintro rfl
        omega
      · rintro rfl
        omega
    exact hsame.symm.trans (hfree u hon)
  · refine ⟨a, attacks_of_eq hattack (passing_of_ne hne hne').symm fun u hu hnone => ?_⟩
    have hsame : passing p side w u = p u := by
      apply passing_of_ne
      · rintro rfl
        exact not_mem_between _ _ hu
      · rintro rfl
        exact hbehind hu
    exact hsame.symm.trans hnone

theorem attacked_passing {w : Wing} (hking : p (kingHome side) = some ⟨side, .king⟩)
    (htransit : p (w.transit side) = none)
    (h : Attacked p side.opponent (w.transit side)) :
    Attacked (passing p side w) side.opponent (w.transit side) := by
  obtain ⟨a, hattack⟩ := h
  obtain ⟨piece, hpiece, -⟩ := id hattack
  have hne : a ≠ w.transit side := by
    rintro rfl
    rw [htransit] at hpiece
    cases hpiece
  have hne' : a ≠ kingHome side := by
    rintro rfl
    rw [hking] at hpiece
    exact opponent_man_ne side _ _ (Option.some.inj hpiece).symm
  refine ⟨a, attacks_of_eq hattack (passing_of_ne hne hne') fun u hu hnone => ?_⟩
  rw [passing_of_ne, hnone]
  · rintro rfl
    exact not_mem_between _ _ hu
  · rintro rfl
    rw [hking] at hnone
    cases hnone

/-- Where a king castles. -/
def castling (side : Side) (w : Wing) : Move := ⟨kingHome side, w.arrival side⟩

/-- King and rook stand for castling and nothing stands between them. -/
structure Ready (g : State) (w : Wing) : Prop where
  king : g.placement (kingHome g.turn) = some ⟨g.turn, .king⟩
  rook : g.placement (w.corner g.turn) = some ⟨g.turn, .rook⟩
  clear : Clear g.placement (kingHome g.turn) (w.corner g.turn)

theorem wing?_castling {g : State} (hking : g.placement (kingHome g.turn) = some ⟨g.turn, .king⟩)
    (w : Wing) : g.wing? (castling g.turn w) = some w :=
  State.wing?_of_king hking w

theorem passedPawn?_castling {g : State}
    (hking : g.placement (kingHome g.turn) = some ⟨g.turn, .king⟩) (w : Wing) :
    g.passedPawn? (castling g.turn w) = none := by
  unfold State.passedPawn? castling
  rw [if_neg]
  rintro ⟨hpawn, -⟩
  rw [hking] at hpawn
  cases hpawn

theorem castling_columns (side : Side) (w : Wing) : (w.corner side).y = (w.arrival side).y ∧
    (((w.corner side).x = 0 ∧ (w.transit side).x = 3 ∧ (w.arrival side).x = 2) ∨
      ((w.corner side).x = 7 ∧ (w.transit side).x = 5 ∧ (w.arrival side).x = 6)) := by
  cases w
  · exact ⟨rfl, .inl ⟨rfl, rfl, rfl⟩⟩
  · exact ⟨rfl, .inr ⟨rfl, rfl, rfl⟩⟩

namespace Ready

variable {g : State} {w : Wing} {s : Square}

theorem transit_empty (h : Ready g w) : g.placement (w.transit g.turn) = none :=
  h.clear _ (w.transit_mem_between g.turn)

theorem arrival_empty (h : Ready g w) : g.placement (w.arrival g.turn) = none :=
  h.clear _ (w.arrival_mem_between g.turn)

theorem placementAfter_transit (h : Ready g w) :
    g.placementAfter (castling g.turn w) (w.transit g.turn) = some ⟨g.turn, .rook⟩ := by
  have horigin : w.transit g.turn ≠ (castling g.turn w).origin := by
    cases w <;> cases g.turn <;> decide
  have htarget : w.transit g.turn ≠ (castling g.turn w).target := by
    cases w <;> cases g.turn <;> decide
  have hcorner : w.transit g.turn ≠ w.corner g.turn := by
    cases w <;> cases g.turn <;> decide
  unfold State.placementAfter
  rw [if_neg horigin, if_neg htarget, passedPawn?_castling h.king,
    if_neg (Option.some_ne_none _).symm, wing?_castling h.king]
  dsimp only
  rw [if_neg hcorner, if_pos rfl]

theorem placementAfter_of_ne (h : Ready g w) (hhome : s ≠ kingHome g.turn)
    (hcorner : s ≠ w.corner g.turn) (htransit : s ≠ w.transit g.turn)
    (harrival : s ≠ w.arrival g.turn) :
    g.placementAfter (castling g.turn w) s = g.placement s := by
  apply State.placementAfter_of_kept hhome harrival
  · rw [passedPawn?_castling h.king]
    exact (Option.some_ne_none s).symm
  · intro v hv
    rw [wing?_castling h.king] at hv
    cases hv
    exact ⟨hcorner, htransit⟩

theorem placementAfter_cases (h : Ready g w) {man : Man}
    (hs : g.placementAfter (castling g.turn w) s = some man) :
    s ≠ kingHome g.turn ∧ ((s = w.arrival g.turn ∧ man = ⟨g.turn, .king⟩) ∨
      man = ⟨g.turn, .rook⟩ ∨ g.placement s = some man) := by
  obtain ⟨horigin, ⟨htarget, harrive⟩ | ⟨-, hrook, -⟩ | ⟨-, hstays⟩⟩ :=
    State.placementAfter_cases hs
  · refine ⟨horigin, .inl ⟨htarget, ?_⟩⟩
    rcases State.arriving_cases h.king harrive with ⟨heq, -⟩ | ⟨hpawn, -⟩
    · exact heq
    · cases hpawn
  · exact ⟨horigin, .inr (.inl hrook)⟩
  · exact ⟨horigin, .inr (.inr hstays)⟩

theorem king_after (hg : Sound g) (h : Ready g w) (s : Square) :
    g.placementAfter (castling g.turn w) s = some ⟨g.turn, .king⟩ ↔ s = w.arrival g.turn := by
  constructor
  · intro hs
    obtain ⟨horigin, ⟨harrival, -⟩ | hrook | hstays⟩ := h.placementAfter_cases hs
    · exact harrival
    · cases hrook
    · obtain ⟨k, hk⟩ := hg.king g.turn
      exact absurd (((hk s).mp hstays).trans ((hk _).mp h.king).symm) horigin
  · rintro rfl
    have hne : w.arrival g.turn ≠ (castling g.turn w).origin := by
      cases w <;> cases g.turn <;> decide
    unfold State.placementAfter
    rw [if_neg hne, if_pos (show w.arrival g.turn = (castling g.turn w).target from rfl)]
    unfold State.arriving
    rw [if_neg]
    · exact h.king
    · rintro ⟨hpawn, -⟩
      rw [show (castling g.turn w).origin = kingHome g.turn from rfl, h.king] at hpawn
      cases hpawn

/-- The rook takes the place of the king as a screen, and nothing stands behind the
corner. -/
theorem attacked_before (hg : Sound g) (h : Ready g w)
    (hafter : Attacked (g.placementAfter (castling g.turn w)) g.turn.opponent
      (w.arrival g.turn)) :
    Attacked g.placement g.turn.opponent (w.arrival g.turn) := by
  have hrook := h.placementAfter_transit
  have hx : (kingHome g.turn).x = 4 := rfl
  obtain ⟨hcornery, hplaces⟩ := castling_columns g.turn w
  obtain ⟨a, hattack⟩ := hafter
  obtain ⟨piece, hpiece, -, hfree⟩ := id hattack
  have hbefore : g.placement a = some ⟨g.turn.opponent, piece⟩ := by
    obtain ⟨-, ⟨-, hking⟩ | hrook | hstays⟩ := h.placementAfter_cases hpiece
    · exact absurd hking (opponent_man_ne g.turn _ _)
    · exact absurd hrook (opponent_man_ne g.turn _ _)
    · exact hstays
  refine ⟨a, attacks_of_eq hattack (hbefore.trans hpiece.symm) fun u hu hnone => ?_⟩
  rw [← h.placementAfter_of_ne (s := u), hnone]
  · rintro rfl
    have hrow := row_of_mem_between hu rfl
    have hscreen : w.transit g.turn ∈ between a (w.arrival g.turn) :=
      mem_between_of_row hrow.1 rfl (by omega)
    rw [hfree _ hscreen] at hrook
    cases hrook
  · rintro rfl
    have hrow := row_of_mem_between hu hcornery
    have hon := hg.onBoard _ _ hbefore
    unfold OnBoard at hon
    omega
  · rintro rfl
    rw [hrook] at hnone
    cases hnone
  · rintro rfl
    exact not_mem_between _ _ hu

theorem attacked_after (h : Ready g w)
    (hbefore : Attacked g.placement g.turn.opponent (w.arrival g.turn)) :
    Attacked (g.placementAfter (castling g.turn w)) g.turn.opponent (w.arrival g.turn) := by
  have hx : (kingHome g.turn).x = 4 := rfl
  obtain ⟨-, hplaces⟩ := castling_columns g.turn w
  obtain ⟨a, hattack⟩ := hbefore
  obtain ⟨piece, hpiece, -, hfree⟩ := id hattack
  have hne : ∀ {s man}, g.placement s = man → man ≠ some ⟨g.turn.opponent, piece⟩ → a ≠ s := by
    rintro s man hs hman rfl
    exact hman (hs.symm.trans hpiece)
  have hown : ∀ own : Piece, some (Man.mk g.turn own) ≠ some ⟨g.turn.opponent, piece⟩ :=
    fun own heq => opponent_man_ne g.turn _ _ (Option.some.inj heq).symm
  have hnotking := hne h.king (hown _)
  have hafter : g.placementAfter (castling g.turn w) a = g.placement a :=
    h.placementAfter_of_ne hnotking (hne h.rook (hown _))
      (hne h.transit_empty (Option.some_ne_none _).symm)
      (hne h.arrival_empty (Option.some_ne_none _).symm)
  refine ⟨a, attacks_of_eq hattack hafter fun u hu hnone => ?_⟩
  rw [h.placementAfter_of_ne, hnone]
  · rintro rfl
    rw [h.king] at hnone
    cases hnone
  · rintro rfl
    rw [h.rook] at hnone
    cases hnone
  · rintro rfl
    have hrow := row_of_mem_between hu rfl
    have hax : a.x ≠ 4 := by
      intro hax
      apply hnotking
      obtain ⟨ax, ay⟩ := a
      simp only at hax hrow
      rw [hax, hrow.1]
      rfl
    have hscreen : kingHome g.turn ∈ between a (w.arrival g.turn) :=
      mem_between_of_row hrow.1 rfl (by omega)
    have hking := h.king
    rw [hfree _ hscreen] at hking
    cases hking
  · rintro rfl
    exact not_mem_between _ _ hu

theorem attacked_arrival_iff (hg : Sound g) (h : Ready g w) :
    Attacked (g.placementAfter (castling g.turn w)) g.turn.opponent (w.arrival g.turn) ↔
      Attacked g.placement g.turn.opponent (w.arrival g.turn) :=
  ⟨attacked_before hg h, h.attacked_after⟩

/-- Castling is legal exactly if neither king nor rook has moved and the king's way is
safe. -/
theorem legal_iff (hg : Sound g) (h : Ready g w) :
    g.Legal (castling g.turn w) ↔ g.Unmoved g.turn w ∧
      ¬ Attacked g.placement g.turn.opponent (kingHome g.turn) ∧
      ¬ Attacked g.placement g.turn.opponent (w.transit g.turn) ∧
      ¬ Attacked g.placement g.turn.opponent (w.arrival g.turn) := by
  have hcheck : InCheck (g.placementAfter (castling g.turn w)) g.turn ↔
      Attacked g.placement g.turn.opponent (w.arrival g.turn) := by
    rw [inCheck_iff_attacked (king_after hg h), attacked_arrival_iff hg h]
  constructor
  · rintro ⟨hm, -⟩
    obtain ⟨-, -, -, hunmoved, -, hsafe⟩ := hm.castles (wing?_castling h.king w)
    exact ⟨hunmoved, hsafe⟩
  · rintro ⟨hunmoved, hsafe⟩
    have hon : OnBoard (w.arrival g.turn) := by
      cases w <;> cases g.turn <;> decide
    refine ⟨⟨hon, ?_, .king, h.king,
      .inr (.inr ⟨w, rfl, h.king, h.rook, hunmoved, h.clear, hsafe⟩)⟩, ?_⟩
    · intro man hman
      rw [show (castling g.turn w).target = w.arrival g.turn from rfl, h.arrival_empty] at hman
      cases hman
    · show ¬ InCheck (g.placementAfter (castling g.turn w)) g.turn
      rw [hcheck]
      exact hsafe.2.2

end Ready

end BoardGame.Chess
