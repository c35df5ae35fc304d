import BoardGame.Proofs.Chess.Laws
/-!
# What every legal move keeps

In a game played by the laws each side has one king, no pawn stands on a first or
last rank, the side that has just moved is not in check, and behind a pawn that has
just made a double step nothing stands.
-/

namespace BoardGame.Chess.Laws

open Square

theorem opponent_man_ne (side : Side) (a b : Piece) : Man.mk side.opponent a ≠ ⟨side, b⟩ :=
  fun h => side.opponent_ne (congrArg Man.side h)

/-- The last rank of a side is seven ranks ahead of its first. -/
theorem home_opponent (side : Side) : home side.opponent = home side + 7 * side.sign := by
  cases side <;> rfl

theorem home_cases (side : Side) :
    (side.sign = 1 ∧ home side = 0) ∨ (side.sign = -1 ∧ home side = 7) := by
  cases side <;> decide

theorem Wing.transit_mem_between (w : Wing) (side : Side) :
    w.transit side ∈ between (kingHome side) (w.corner side) := by
  cases w <;> cases side <;> decide

theorem Wing.arrival_mem_between (w : Wing) (side : Side) :
    w.arrival side ∈ between (kingHome side) (w.corner side) := by
  cases w <;> cases side <;> decide

theorem clear_of_adjacent {p : Placement} {s t : Square}
    (h : max (t - s).x.natAbs (t - s).y.natAbs = 1) : Clear p s t := by
  intro u hu
  unfold between at hu
  simp only [sub_x, sub_y] at h
  dsimp only at hu
  rw [h] at hu
  split at hu <;> cases hu

variable {g : State} {m : Move} {s : Square} {man : Man}

/-! ## What a move can be -/

namespace State

theorem Castles.piece {w : Wing} (h : g.Castles m w) :
    g.placement m.origin = some ⟨g.turn, .king⟩ := by
  rw [h.1]
  exact h.2.1

theorem Castles.transit_empty {w : Wing} (h : g.Castles m w) :
    g.placement (w.transit g.turn) = none :=
  h.2.2.2.2.1 _ (w.transit_mem_between g.turn)

theorem Castles.arrival_empty {w : Wing} (h : g.Castles m w) :
    g.placement (w.arrival g.turn) = none :=
  h.2.2.2.2.1 _ (w.arrival_mem_between g.turn)

theorem wing?_of_king (h : g.placement (kingHome g.turn) = some ⟨g.turn, .king⟩) (w : Wing) :
    g.wing? ⟨kingHome g.turn, w.arrival g.turn⟩ = some w := by
  unfold State.wing?
  rw [if_neg (Decidable.not_not.mpr h)]
  cases w <;> rfl

theorem Castles.wing?_eq {w : Wing} (h : g.Castles m w) : g.wing? m = some w := by
  rw [h.1]
  exact wing?_of_king h.2.1 w

theorem Moves.origin_ne_target (h : g.Moves m) : m.origin ≠ m.target := by
  obtain ⟨-, hfree, piece, hpiece, -⟩ := h
  intro heq
  exact hfree _ (heq ▸ hpiece) rfl

theorem Moves.pawnMoves (h : g.Moves m) (hpawn : g.placement m.origin = some ⟨g.turn, .pawn⟩) :
    g.PawnMoves m := by
  obtain ⟨-, -, piece, hpiece, hkind⟩ := h
  rw [hpawn] at hpiece
  cases hpiece
  rcases hkind with ⟨-, hmoves⟩ | ⟨hne, -⟩ | ⟨w, hcastle⟩
  · exact hmoves
  · exact absurd rfl hne
  · rw [hcastle.piece] at hpawn
    cases hpawn

/-- A pawn captures en passant only what it passes, a pawn of the other side. -/
theorem Moves.passedPawn (h : g.Moves m) (hs : g.passedPawn? m = some s) :
    s = ⟨m.target.x, m.origin.y⟩ ∧ g.placement s = some ⟨g.turn.opponent, .pawn⟩ := by
  unfold State.passedPawn? at hs
  split at hs
  next hpassed =>
    cases hs
    refine ⟨rfl, ?_⟩
    rcases h.pawnMoves hpassed.1 with ⟨ht, -⟩ | ⟨-, ht, -⟩ | ⟨-, hocc⟩ | ⟨-, -, -, hpawn⟩
    · exact absurd (by rw [ht]) hpassed.2.1
    · exact absurd (by rw [ht]) hpassed.2.1
    · exact absurd hpassed.2.2 hocc
    · exact hpawn
  next => cases hs

theorem Moves.passedPawn_ne_target (h : g.Moves m) (hs : g.passedPawn? m = some s) :
    s ≠ m.target := by
  have hpawn := (h.passedPawn hs).2
  rintro rfl
  unfold State.passedPawn? at hs
  split at hs
  next hpassed =>
    rw [hpassed.2.2] at hpawn
    cases hpawn
  next => cases hs

/-- A piece moves by its own geometry, castling apart. -/
def Step (g : State) (m : Move) (piece : Piece) : Prop :=
  (piece = .pawn ∧ g.PawnMoves m) ∨
    (piece ≠ .pawn ∧ piece.Reaches g.turn (m.target - m.origin) ∧
      Clear g.placement m.origin m.target)

theorem Step.wing?_eq_none {piece : Piece} (h : g.Step m piece)
    (hpiece : g.placement m.origin = some ⟨g.turn, piece⟩) : g.wing? m = none := by
  unfold State.wing?
  by_cases hking : g.placement m.origin = some ⟨g.turn, .king⟩
  · -- a king reaches one square, and castling takes it two squares away
    rw [hking] at hpiece
    cases hpiece
    rcases h with ⟨hpawn, -⟩ | ⟨-, hreach, -⟩
    · cases hpawn
    · simp only [Piece.Reaches, sub_x, sub_y] at hreach
      rw [if_neg (Decidable.not_not.mpr hking), if_neg (by omega), if_neg (by omega)]
  · rw [if_pos hking]

theorem moves_iff_step {piece : Piece} (hpiece : g.placement m.origin = some ⟨g.turn, piece⟩) :
    g.Moves m ∧ g.wing? m = none ↔
      OnBoard m.target ∧ (∀ man, g.placement m.target = some man → man.side ≠ g.turn) ∧
        g.Step m piece := by
  constructor
  · rintro ⟨⟨hon, hfree, own, hown, hkind⟩, hw⟩
    rw [hpiece] at hown
    cases hown
    refine ⟨hon, hfree, ?_⟩
    rcases hkind with hpawn | hreach | ⟨w, hcastles⟩
    · exact .inl hpawn
    · exact .inr hreach
    · rw [hcastles.wing?_eq] at hw
      cases hw
  · rintro ⟨hon, hfree, hstep⟩
    refine ⟨⟨hon, hfree, piece, hpiece, ?_⟩, hstep.wing?_eq_none hpiece⟩
    rcases hstep with hpawn | hreach
    · exact .inl hpawn
    · exact .inr (.inl hreach)

theorem Moves.castles (h : g.Moves m) {w : Wing} (hw : g.wing? m = some w) : g.Castles m w := by
  obtain ⟨-, -, piece, hpiece, hkind⟩ := h
  have hstep : ¬ g.Step m piece := by
    intro hstep
    rw [hstep.wing?_eq_none hpiece] at hw
    cases hw
  rcases hkind with hpawn | hreach | ⟨w', hcastles⟩
  · exact absurd (.inl hpawn) hstep
  · exact absurd (.inr hreach) hstep
  · rw [hcastles.wing?_eq] at hw
    cases hw
    exact hcastles

theorem Moves.attacks (h : g.Moves m) (hocc : g.placement m.target ≠ none) :
    Attacks g.placement g.turn m.origin m.target := by
  obtain ⟨-, -, piece, hpiece, hkind⟩ := h
  rcases hkind with ⟨rfl, hpawn⟩ | ⟨-, hreach, hclear⟩ | ⟨w, hcastle⟩
  · have hreach : Piece.pawn.Reaches g.turn (m.target - m.origin) := by
      rcases hpawn with ⟨-, hnone⟩ | ⟨-, -, -, hnone⟩ | ⟨hreach, -⟩ | ⟨-, hnone, -⟩
      · exact absurd hnone hocc
      · exact absurd hnone hocc
      · exact hreach
      · exact absurd hnone hocc
    refine ⟨.pawn, hpiece, hreach, clear_of_adjacent ?_⟩
    have hsign := Side.sign_cases g.turn
    simp only [Piece.Reaches] at hreach
    omega
  · exact ⟨piece, hpiece, hreach, hclear⟩
  · rw [hcastle.1] at hocc
    exact absurd hcastle.arrival_empty hocc

/-! ## What stands where after a move -/

theorem placementAfter_origin : g.placementAfter m m.origin = none := by
  unfold State.placementAfter
  rw [if_pos rfl]

theorem Moves.placementAfter_target (h : g.Moves m) :
    g.placementAfter m m.target = g.arriving m := by
  unfold State.placementAfter
  rw [if_neg (Ne.symm h.origin_ne_target), if_pos rfl]

theorem placementAfter_of_kept (horigin : s ≠ m.origin) (htarget : s ≠ m.target)
    (hpassed : g.passedPawn? m ≠ some s)
    (hwing : ∀ w, g.wing? m = some w → s ≠ w.corner g.turn ∧ s ≠ w.transit g.turn) :
    g.placementAfter m s = g.placement s := by
  unfold State.placementAfter
  rw [if_neg horigin, if_neg htarget, if_neg hpassed]
  cases hw : g.wing? m with
  | none => rfl
  | some w =>
      dsimp only
      rw [if_neg (hwing w hw).1, if_neg (hwing w hw).2]

/-- A man that stands on the board after a move has arrived, is the rook of a castling
move, or stood there before. -/
theorem placementAfter_cases (h : g.placementAfter m s = some man) :
    s ≠ m.origin ∧
      ((s = m.target ∧ g.arriving m = some man) ∨
        (s ≠ m.target ∧ man = ⟨g.turn, .rook⟩ ∧
          ∃ w, g.wing? m = some w ∧ s = w.transit g.turn) ∨
        (s ≠ m.target ∧ g.placement s = some man)) := by
  unfold State.placementAfter at h
  split at h
  next => cases h
  next horigin =>
    refine ⟨horigin, ?_⟩
    split at h
    next htarget => exact Or.inl ⟨htarget, h⟩
    next htarget =>
      split at h
      next => cases h
      next =>
        split at h
        next => exact Or.inr (Or.inr ⟨htarget, h⟩)
        next w hw =>
          split at h
          next => cases h
          next =>
            split at h
            next htransit =>
              exact Or.inr (Or.inl ⟨htarget, (Option.some.inj h).symm, w, hw, htransit⟩)
            next => exact Or.inr (Or.inr ⟨htarget, h⟩)

theorem arriving_cases {piece : Piece} (hpiece : g.placement m.origin = some ⟨g.turn, piece⟩)
    (h : g.arriving m = some man) :
    (man = ⟨g.turn, piece⟩ ∧ ¬ (piece = .pawn ∧ m.target.y = home g.turn.opponent)) ∨
      (piece = .pawn ∧ man = ⟨g.turn, .queen⟩) := by
  unfold State.arriving at h
  rw [hpiece] at h
  split at h
  next hlast =>
    cases hlast.1
    exact Or.inr ⟨rfl, (Option.some.inj h).symm⟩
  next hlast =>
    refine Or.inl ⟨(Option.some.inj h).symm, ?_⟩
    rintro ⟨rfl, hy⟩
    exact hlast ⟨rfl, hy⟩

theorem Moves.placement_of_opponent (h : g.Moves m) {piece : Piece}
    (hs : g.placementAfter m s = some ⟨g.turn.opponent, piece⟩) :
    s ≠ m.target ∧ g.placement s = some ⟨g.turn.opponent, piece⟩ := by
  obtain ⟨-, -, own, hown, -⟩ := h
  obtain ⟨-, ⟨-, harrive⟩ | ⟨-, hrook, -⟩ | hstays⟩ := placementAfter_cases hs
  · rcases arriving_cases hown harrive with ⟨heq, -⟩ | ⟨-, heq⟩
    · exact absurd heq (opponent_man_ne g.turn _ _)
    · exact absurd heq (opponent_man_ne g.turn _ _)
  · exact absurd hrook (opponent_man_ne g.turn _ _)
  · exact hstays

/-- The king of the side that moves is on the target if it moved, and where it was
otherwise. -/
theorem Moves.own_king (h : g.Moves m) {k : Square}
    (hk : ∀ s, g.placement s = some ⟨g.turn, .king⟩ ↔ s = k) :
    g.placementAfter m s = some ⟨g.turn, .king⟩ ↔
      s = if k = m.origin then m.target else k := by
  obtain ⟨-, hfree, own, hown, -⟩ := id h
  by_cases hmoved : k = m.origin
  · rw [if_pos hmoved]
    have hking : g.placement m.origin = some ⟨g.turn, .king⟩ := (hk _).mpr hmoved.symm
    rw [hking] at hown
    cases hown
    constructor
    · intro hs
      obtain ⟨horigin, ⟨htarget, -⟩ | ⟨-, hrook, -⟩ | ⟨-, hstays⟩⟩ := placementAfter_cases hs
      · exact htarget
      · cases hrook
      · exact absurd (((hk s).mp hstays).trans hmoved) horigin
    · rintro rfl
      rw [h.placementAfter_target]
      unfold arriving
      rw [hking, if_neg]
      rintro ⟨hpawn, -⟩
      cases hpawn
  · rw [if_neg hmoved]
    constructor
    · intro hs
      obtain ⟨-, ⟨-, harrive⟩ | ⟨-, hrook, -⟩ | ⟨-, hstays⟩⟩ := placementAfter_cases hs
      · rcases arriving_cases hown harrive with ⟨heq, -⟩ | ⟨-, heq⟩
        · cases heq
          exact absurd ((hk _).mp hown).symm hmoved
        · cases heq
      · cases hrook
      · exact (hk s).mp hstays
    · rintro rfl
      have hking : g.placement s = some ⟨g.turn, .king⟩ := (hk s).mpr rfl
      rw [placementAfter_of_kept hmoved, hking]
      · rintro rfl
        exact hfree _ hking rfl
      · intro hpassed
        rw [(h.passedPawn hpassed).2] at hking
        exact opponent_man_ne g.turn _ _ (Option.some.inj hking)
      · intro w hw
        have hcastle := h.castles hw
        exact absurd ((hk _).mp hcastle.piece).symm hmoved

end State

/-! ## The invariant -/

structure Sound (g : State) : Prop where
  onBoard : ∀ s man, g.placement s = some man → OnBoard s
  /-- Each side has exactly one king. -/
  king : ∀ side, ∃ k, ∀ s, g.placement s = some ⟨side, .king⟩ ↔ s = k
  pawn : ∀ s side, g.placement s = some ⟨side, .pawn⟩ → s.y ≠ 0 ∧ s.y ≠ 7
  /-- The side that has moved is not in check. -/
  safe : ¬ InCheck g.placement g.turn.opponent
  /-- A pawn whose move was the latest and led two ranks on has made a double step, and
  the squares behind it are empty. -/
  doubleStep : ∀ m, g.record.head? = some m → ∀ side,
    g.placement m.target = some ⟨side, .pawn⟩ → (m.target.y - m.origin.y).natAbs = 2 →
    side = g.turn.opponent ∧ m.target = ⟨m.origin.x, m.origin.y + 2 * side.sign⟩ ∧
      m.origin.y = home side + side.sign ∧ g.placement m.origin = none ∧
      g.placement ⟨m.origin.x, m.origin.y + side.sign⟩ = none

namespace Sound

/-- A king cannot be captured: it would have been in check. -/
theorem target_ne_king (h : Sound g) (hm : g.Moves m) :
    g.placement m.target ≠ some ⟨g.turn.opponent, .king⟩ := by
  intro hking
  apply h.safe
  refine ⟨m.target, hking, m.origin, ?_⟩
  rw [Side.opponent_opponent]
  exact hm.attacks (by rw [hking]; exact Option.some_ne_none _)

theorem opponent_king (h : Sound g) (hm : g.Moves m) :
    g.placementAfter m s = some ⟨g.turn.opponent, .king⟩ ↔
      g.placement s = some ⟨g.turn.opponent, .king⟩ := by
  constructor
  · intro hs
    exact (hm.placement_of_opponent hs).2
  · intro hs
    obtain ⟨-, -, own, hown, -⟩ := id hm
    rw [State.placementAfter_of_kept, hs]
    · rintro rfl
      rw [hs] at hown
      exact opponent_man_ne g.turn _ _ (Option.some.inj hown)
    · rintro rfl
      exact h.target_ne_king hm hs
    · intro hpassed
      rw [(hm.passedPawn hpassed).2] at hs
      cases hs
    · intro w hw
      have hcastle := hm.castles hw
      constructor
      · rintro rfl
        rw [hcastle.2.2.1] at hs
        exact opponent_man_ne g.turn _ _ (Option.some.inj hs).symm
      · rintro rfl
        rw [hcastle.transit_empty] at hs
        cases hs

/-! ## Preservation -/

theorem king_after (h : Sound g) (hm : g.Moves m) (side : Side) :
    ∃ k, ∀ s, g.placementAfter m s = some ⟨side, .king⟩ ↔ s = k := by
  obtain ⟨k, hk⟩ := h.king side
  by_cases hside : side = g.turn
  · subst hside
    exact ⟨_, fun s => hm.own_king hk⟩
  · have hopp := Side.eq_opponent_of_ne hside
    subst hopp
    exact ⟨k, fun s => (h.opponent_king hm).trans (hk s)⟩

theorem onBoard_after (h : Sound g) (hm : g.Moves m)
    (hs : g.placementAfter m s = some man) :
    OnBoard s := by
  obtain ⟨-, ⟨htarget, -⟩ | ⟨-, -, w, -, htransit⟩ | ⟨-, hstays⟩⟩ := State.placementAfter_cases hs
  · rw [htarget]
    exact hm.1
  · rw [htransit]
    unfold OnBoard
    cases w <;> cases g.turn <;> decide
  · exact h.onBoard s man hstays

theorem pawn_ahead (h : g.PawnMoves m) :
    m.target.y = m.origin.y + g.turn.sign ∨
      (m.origin.y = home g.turn + g.turn.sign ∧
        m.target = ⟨m.origin.x, m.origin.y + 2 * g.turn.sign⟩ ∧
        g.placement ⟨m.origin.x, m.origin.y + g.turn.sign⟩ = none) := by
  rcases h with ⟨ht, -⟩ | ⟨hy, ht, hempty, -⟩ | ⟨⟨-, hy⟩, -⟩ | ⟨⟨-, hy⟩, -⟩
  · left
    rw [ht]
  · exact Or.inr ⟨hy, ht, hempty⟩
  · left
    rw [sub_y] at hy
    omega
  · left
    rw [sub_y] at hy
    omega

theorem pawnMoves_of_arriving (hm : g.Moves m) {side : Side}
    (h : g.arriving m = some ⟨side, .pawn⟩) :
    side = g.turn ∧ g.placement m.origin = some ⟨g.turn, .pawn⟩ ∧ g.PawnMoves m ∧
      m.target.y ≠ home g.turn.opponent := by
  obtain ⟨-, -, own, hown, -⟩ := id hm
  rcases State.arriving_cases hown h with ⟨heq, hlast⟩ | ⟨-, heq⟩
  · cases heq
    exact ⟨rfl, hown, hm.pawnMoves hown, fun hy => hlast ⟨rfl, hy⟩⟩
  · cases heq

theorem pawn_after (h : Sound g) (hm : g.Moves m) {side : Side}
    (hs : g.placementAfter m s = some ⟨side, .pawn⟩) : s.y ≠ 0 ∧ s.y ≠ 7 := by
  obtain ⟨-, ⟨rfl, harrive⟩ | ⟨-, hrook, -⟩ | ⟨-, hstays⟩⟩ := State.placementAfter_cases hs
  · obtain ⟨-, hpawn, hmoves, hlast⟩ := pawnMoves_of_arriving hm harrive
    have horigin := h.pawn _ _ hpawn
    have hboard := h.onBoard _ _ hpawn
    have htarget := hm.1
    have hahead := pawn_ahead hmoves
    have hhome := home_cases g.turn
    rw [home_opponent] at hlast
    unfold OnBoard at hboard htarget
    rcases hahead with hy | ⟨hy, ht, -⟩
    · omega
    · rw [ht] at hlast ⊢
      simp only at hlast ⊢
      omega
  · cases hrook
  · exact h.pawn s side hstays

theorem doubleStep_after (hm : g.Moves m) {side : Side}
    (hs : g.placementAfter m m.target = some ⟨side, .pawn⟩)
    (hy : (m.target.y - m.origin.y).natAbs = 2) :
    side = g.turn ∧ m.target = ⟨m.origin.x, m.origin.y + 2 * side.sign⟩ ∧
      m.origin.y = home side + side.sign ∧
      g.placementAfter m ⟨m.origin.x, m.origin.y + side.sign⟩ = none := by
  rw [hm.placementAfter_target] at hs
  obtain ⟨rfl, hpawn, hmoves, -⟩ := pawnMoves_of_arriving hm hs
  have hsign := Side.sign_cases g.turn
  rcases pawn_ahead hmoves with hone | ⟨hhome, ht, hempty⟩
  · omega
  · refine ⟨rfl, ht, hhome, ?_⟩
    rw [State.placementAfter_of_kept, hempty]
    · intro heq
      have := congrArg Square.y heq
      simp only at this
      omega
    · intro heq
      have := congrArg Square.y heq
      rw [ht] at this
      simp only at this
      omega
    · intro hpassed
      have hx := (hm.passedPawn hpassed).1
      have := congrArg Square.y hx
      simp only at this
      omega
    · intro w hw
      have hking := (hm.castles hw).piece
      rw [hpawn] at hking
      cases hking

theorem play (h : Sound g) (hm : g.Legal m) : Sound (g.play m) where
  onBoard _ _ hs := h.onBoard_after hm.1 hs
  king side := h.king_after hm.1 side
  pawn _ _ hs := h.pawn_after hm.1 hs
  safe := by
    show ¬ InCheck (g.play m).placement g.turn.opponent.opponent
    rw [Side.opponent_opponent]
    exact hm.2
  doubleStep m' hm' side hs hy := by
    cases hm'
    obtain ⟨hside, ht, horigin, hempty⟩ := doubleStep_after hm.1 hs hy
    refine ⟨?_, ht, horigin, State.placementAfter_origin, hempty⟩
    show side = g.turn.opponent.opponent
    rw [Side.opponent_opponent]
    exact hside

end Sound

end BoardGame.Chess.Laws
