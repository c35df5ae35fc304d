import BoardGame.Proofs.Chess.Check
import BoardGame.Proofs.Chess.Effect
import BoardGame.Proofs.Chess.Targets
/-!
# Legal steps

For a man of the side to move the engine tries its targets one after the other and
keeps those that leave the king safe. What it keeps are the legal moves of the man,
castling apart.
-/

namespace BoardGame.Chess

open Laws

variable {pos next : Position} {g : State} {s t k : Square} {kind : Kind} {king : Option Square}

/-- The code with which the engine lets a man arrive. -/
def arrivalCode (kind : Kind) (side : Side) (s t : Square) : Int :=
  match kind with
  | .pawn => promoted s t side.sign
  | .unmovedRook => Kind.rook.code * side.sign
  | .unmovedKing => Kind.king.code * side.sign
  | kind => kind.code * side.sign

/-- A king in check is looked for where it goes. -/
def steppedKing (kind : Kind) (king : Option Square) (t : Square) : Option Square :=
  if kind.isKing then some t else king

theorem move?_eq_some {piece : Int} :
    move? pos king s t piece = some next ↔
      OnBoard t ∧ piece.sign ≠ (look pos.board t).sign ∧
      ¬ inCheck (boardAfter pos.board s t piece) king = true ∧
      next = pos.successor (boardAfter pos.board s t piece) pos.mover.opponent
        ⟨look pos.board s, s, t⟩ := by
  unfold move?
  rw [Option.ite_none_left_eq_some, Option.ite_none_left_eq_some, Bool.not_eq_true',
    Bool.not_eq_false, onBoard_iff_laws]
  dsimp only
  rw [Option.ite_none_left_eq_some, Option.some.injEq]
  constructor
  · rintro ⟨hon, hsign, hsafe, rfl⟩
    exact ⟨hon, hsign, hsafe, rfl⟩
  · rintro ⟨hon, hsign, hsafe, rfl⟩
    exact ⟨hon, hsign, hsafe, rfl⟩

theorem sign_arrivalCode (kind : Kind) (side : Side) (s t : Square) :
    (arrivalCode kind side s t).sign = side.sign := by
  cases kind <;> unfold arrivalCode
  case pawn =>
    dsimp only
    unfold promoted
    split
    · exact sign_code_mul .queen side
    · exact sign_code_mul .pawn side
  all_goals exact sign_code_mul _ side

namespace Agrees

theorem arriving_arrivalCode (h : Agrees pos g) (hs : look pos.board s = kind.code * g.turn.sign)
    (hm : g.Moves ⟨s, t⟩) :
    Arriving g ⟨s, t⟩ (arrivalCode kind g.turn s t) := by
  have hon : OnBoard s := onBoard_of_look_eq hs
  have hman := h.placement_of_look hs
  -- what arrives has a kind without a right, and it is the piece that the laws let arrive
  have hsome : ∃ j : Kind, arrivalCode kind g.turn s t = j.code * g.turn.sign ∧
      j ≠ .unmovedRook ∧ j ≠ .unmovedKing ∧ g.arriving ⟨s, t⟩ = some ⟨g.turn, j.piece⟩ := by
    unfold State.arriving
    dsimp only
    rw [hman]
    by_cases hkind : kind = .pawn
    · subst hkind
      have hlast : ((s.y + g.turn.sign = 0 ∨ s.y + g.turn.sign = 7) ∧ t.y = s.y + g.turn.sign) ↔
          t.y = home g.turn.opponent := by
        have hhome := home_cases g.turn
        have hahead := Sound.pawn_ahead (hm.pawnMoves hman)
        rw [home_opponent]
        unfold OnBoard at hon
        dsimp only at hahead
        rcases hahead with hy | ⟨hy, ht, -⟩
        · omega
        · rw [ht]
          dsimp only
          omega
      unfold arrivalCode promoted
      dsimp only
      by_cases hy : t.y = home g.turn.opponent
      · rw [if_pos (hlast.mpr hy), if_pos ⟨rfl, hy⟩]
        exact ⟨.queen, rfl, by decide, by decide, rfl⟩
      · rw [if_neg (mt hlast.mp hy), if_neg fun hc => hy hc.2]
        exact ⟨.pawn, rfl, by decide, by decide, rfl⟩
    · have hpiece := mt Kind.piece_eq_pawn.mp hkind
      rw [if_neg fun hc => hpiece (congrArg Man.piece (Option.some.inj hc.1))]
      cases kind
      case pawn => exact absurd rfl hkind
      case unmovedRook => exact ⟨.rook, rfl, by decide, by decide, rfl⟩
      case unmovedKing => exact ⟨.king, rfl, by decide, by decide, rfl⟩
      all_goals exact ⟨_, rfl, by decide, by decide, rfl⟩
  obtain ⟨j, hj, hrook, hking, harriving⟩ := hsome
  refine ⟨?_, ?_, fun side => ?_⟩
  · rw [hj]
    exact natAbs_code_mul_le j g.turn
  · rw [hj, man_code, harriving]
  · rw [hj]
    exact ⟨fun heq => hrook (code_mul_inj heq).1, fun heq => hking (code_mul_inj heq).1⟩

/-! ## Legal steps -/

theorem sign_ne_iff (h : Agrees pos g) (t : Square) :
    g.turn.sign ≠ (look pos.board t).sign ↔
      ∀ man, g.placement t = some man → man.side ≠ g.turn := by
  rw [ne_comm, ne_eq, sign_eq_iff (h.board.code_le t), not_exists]
  constructor
  · rintro hnone ⟨side, piece⟩ hman rfl
    rw [← h.man_look] at hman
    obtain ⟨kind, -, hkind⟩ := (man_eq_some (h.board.code_le t)).mp hman
    exact hnone kind hkind
  · intro hother kind hkind
    exact hother _ (h.placement_of_look hkind) rfl

theorem mem_targets_iff_step (h : Agrees pos g) (hg : Sound g) (hs : OnBoard s) (ht : OnBoard t) :
    t ∈ targets pos s kind ↔ g.Step ⟨s, t⟩ kind.piece := by
  unfold State.Step
  by_cases hkind : kind = .pawn
  · subst hkind
    show t ∈ pawnTargets pos s ↔ _
    rw [mem_pawnTargets h hg hs ht]
    constructor
    · exact fun hpawn => .inl ⟨rfl, hpawn⟩
    · rintro (⟨-, hpawn⟩ | ⟨hne, -⟩)
      · exact hpawn
      · exact absurd rfl hne
  · have hpiece := mt Kind.piece_eq_pawn.mp hkind
    have hmem : t ∈ targets pos s kind ↔
        kind.piece.Reaches g.turn (t - s) ∧ Clear (Chess.placement pos.board) s t :=
      mem_targets h.board hs ht hkind
    rw [hmem, h.placement]
    constructor
    · exact fun hreach => .inr ⟨hpiece, hreach⟩
    · rintro (⟨heq, -⟩ | ⟨-, hreach⟩)
      · exact absurd heq hpiece
      · exact hreach

/-- The king for whose sake the engine rejects a step is the king after the step. -/
theorem steppedKing_eq (h : Agrees pos g)
    (hs : look pos.board s = kind.code * g.turn.sign)
    (hk : ∀ u, g.placement u = some ⟨g.turn, .king⟩ ↔ u = k) :
    steppedKing kind (kingSquare? pos.board pos.mover) t = some (if k = s then t else k) := by
  have hman := h.placement_of_look hs
  have hking : kind.isKing = true ↔ k = s := by
    rw [eq_comm (a := k), ← hk, hman, Option.some.injEq, Man.mk.injEq]
    cases kind <;> simp [Kind.isKing, Kind.piece]
  have hfound : kingSquare? pos.board pos.mover = some k := by
    apply kingSquare?_eq h.board
    rw [h.placement, h.mover]
    exact hk
  unfold steppedKing
  by_cases hmoved : k = s
  · rw [if_pos (hking.mpr hmoved), if_pos hmoved]
  · rw [if_neg (mt hking.mp hmoved), if_neg hmoved, hfound]

/-- The engine keeps a step exactly if it is legal. -/
theorem step_iff (h : Agrees pos g) (hg : Sound g)
    (hs : look pos.board s = kind.code * g.turn.sign) :
    (t ∈ targets pos s kind ∧
      move? pos (steppedKing kind (kingSquare? pos.board pos.mover) t) s t
        (arrivalCode kind pos.mover s t) = some next) ↔
      g.Legal ⟨s, t⟩ ∧ g.wing? ⟨s, t⟩ = none ∧
      next = pos.successor (boardAfter pos.board s t (arrivalCode kind g.turn s t))
        pos.mover.opponent ⟨look pos.board s, s, t⟩ := by
  obtain ⟨k, hk⟩ := hg.king g.turn
  have hman := h.placement_of_look hs
  have htried : ∀ (ht : OnBoard t), (t ∈ targets pos s kind ∧
      ∀ man, g.placement t = some man → man.side ≠ g.turn) ↔
      g.Moves ⟨s, t⟩ ∧ g.wing? ⟨s, t⟩ = none := by
    intro ht
    rw [h.mem_targets_iff_step hg (onBoard_of_look_eq hs) ht, State.moves_iff_step hman,
      and_iff_right ht, And.comm]
  rw [h.steppedKing_eq hs hk, move?_eq_some, h.mover, sign_arrivalCode, h.sign_ne_iff]
  have hcheck : g.Moves ⟨s, t⟩ → g.wing? ⟨s, t⟩ = none →
      (inCheck (boardAfter pos.board s t (arrivalCode kind g.turn s t))
        (some (if k = s then t else k)) = true ↔ InCheck (g.play ⟨s, t⟩).placement g.turn) := by
    intro hm hw
    have hcode := h.arriving_arrivalCode hs hm
    have hafter := h.isAfter_boardAfter hg hm hw hcode
    have hplacement := h.placement_after hcode hafter
    show _ ↔ InCheck (g.placementAfter ⟨s, t⟩) g.turn
    rw [← hplacement]
    apply inCheck_iff hafter.valid
    intro u
    rw [hplacement]
    exact hm.own_king hk
  constructor
  · rintro ⟨htarget, hon, hfree, hsafe, heq⟩
    obtain ⟨hm, hw⟩ := (htried hon).mp ⟨htarget, hfree⟩
    exact ⟨⟨hm, mt (hcheck hm hw).mpr hsafe⟩, hw, heq⟩
  · rintro ⟨⟨hm, hsafe⟩, hw, heq⟩
    obtain ⟨htarget, hfree⟩ := (htried hm.1).mpr ⟨hm, hw⟩
    exact ⟨htarget, hm.1, hfree, mt (hcheck hm hw).mp hsafe, heq⟩

end Agrees

end BoardGame.Chess
