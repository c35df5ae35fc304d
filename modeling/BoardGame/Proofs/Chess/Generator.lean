import BoardGame.Proofs.Chess.Castling.Engine
import BoardGame.Proofs.Chess.Steps
/-!
# The moves that the engine finds

The moves of a man are its legal steps and, for a king that has not moved, castling.
Square by square the engine finds every legal move, each of them once.
-/

namespace BoardGame.Chess

open Laws

variable {pos next q : Position} {g : State} {s t : Square} {kind : Kind} {king : Option Square}
  {corner dir : Int}

def castlings (pos : Position) (s : Square) : Kind → List Position
  | .unmovedKing => (castle? pos s 0 (-1)).toList ++ (castle? pos s 7 1).toList
  | _ => []

/-- The targets of a man that the engine keeps, castling apart. -/
def steps (pos : Position) (king : Option Square) (s : Square) (kind : Kind) : List Position :=
  (targets pos s kind).filterMap fun t =>
    move? pos (steppedKing kind king t) s t (arrivalCode kind pos.mover s t)

theorem movesFrom_eq (hs : look pos.board s = kind.code * pos.mover.sign) (king : Option Square) :
    movesFrom pos king s = steps pos king s kind ++ castlings pos s kind := by
  have hon : OnBoard s := onBoard_of_look_eq hs
  have hcode : Kind.ofCode? (pos.board.read boardSize s * pos.mover.sign) = some kind := by
    rw [← look_eq_read hon, hs, code_mul_mul_sign]
    exact kind.ofCode?_code
  unfold movesFrom
  dsimp only
  rw [hcode]
  cases kind
  case unmovedKing => exact List.append_assoc _ _ _
  all_goals exact (List.append_nil _).symm

theorem nodup_map_moveOf {l : List Square} (h : l.Nodup) (king : Square → Option Square)
    (code : Square → Int) :
    ((l.filterMap fun t => move? pos (king t) s t (code t)).map moveOf).Nodup := by
  rw [List.map_filterMap]
  apply h.filterMap
  intro t t' m ht ht'
  obtain ⟨next, hnext, rfl⟩ := Option.map_eq_some_iff.mp ht
  obtain ⟨next', hnext', hmove⟩ := Option.map_eq_some_iff.mp ht'
  obtain ⟨-, -, -, rfl⟩ := move?_eq_some.mp hnext
  obtain ⟨-, -, -, rfl⟩ := move?_eq_some.mp hnext'
  exact (congrArg Move.target hmove).symm

/-- No step is listed twice unless a pawn captures en passant onto an occupied square. -/
theorem nodup_steps (hpassing : kind = .pawn → ∀ t q, enPassantTarget? pos s = some t →
      move? pos king s t (arrivalCode .pawn pos.mover s t) = some q → look pos.board t = 0) :
    ((steps pos king s kind).map moveOf).Nodup := by
  by_cases hkind : kind = .pawn
  · subst hkind
    show (((pawnTargets pos s).filterMap fun t =>
      move? pos king s t (arrivalCode .pawn pos.mover s t)).map moveOf).Nodup
    have hlast : (enPassantTarget? pos s).toList.Nodup := by
      cases enPassantTarget? pos s with
      | none => exact List.nodup_nil
      | some t => exact List.nodup_singleton t
    rw [pawnTargets_eq, List.filterMap_append, List.map_append]
    refine List.nodup_append.mpr ⟨nodup_map_moveOf (nodup_pawnSteps_append pos s) _ _,
      nodup_map_moveOf hlast _ _, ?_⟩
    intro a ha b hb hab
    obtain ⟨q, hq, rfl⟩ := List.mem_map.mp ha
    obtain ⟨q', hq', rfl⟩ := List.mem_map.mp hb
    obtain ⟨t, ht, hmoved⟩ := List.mem_filterMap.mp hq
    obtain ⟨t', ht', hmoved'⟩ := List.mem_filterMap.mp hq'
    have htarget : t = t' := by
      obtain ⟨-, -, -, rfl⟩ := move?_eq_some.mp hmoved
      obtain ⟨-, -, -, rfl⟩ := move?_eq_some.mp hmoved'
      exact congrArg Move.target hab
    subst htarget
    have hpassed := Option.mem_toList.mp ht'
    exact (mem_pawnSteps_append_iff hpassed).mp ht (hpassing rfl t q' hpassed hmoved')
  · exact nodup_map_moveOf (nodup_targets hkind) _ _

theorem movesFrom_of_ne (hon : OnBoard s)
    (hs : ∀ kind : Kind, look pos.board s ≠ kind.code * pos.mover.sign) :
    movesFrom pos king s = [] := by
  have hcode : Kind.ofCode? (pos.board.read boardSize s * pos.mover.sign) = none := by
    rw [← look_eq_read hon]
    cases hfound : Kind.ofCode? (look pos.board s * pos.mover.sign) with
    | none => rfl
    | some kind =>
        exfalso
        apply hs kind
        rw [← Kind.ofCode?_eq_some.mp hfound, Int.mul_assoc]
        cases pos.mover <;> simp [Side.sign]
  unfold movesFrom
  dsimp only
  rw [hcode]

/-! ## Moves from a square -/

theorem last_of_castle? (h : castle? pos s corner dir = some q) :
    q.last = ⟨Kind.king.code * (look pos.board s).sign, s, s.x + 2 * dir, s.y⟩ := by
  unfold castle? at h
  simp only [Option.ite_none_left_eq_some] at h
  obtain ⟨-, -, -, hq⟩ := h
  rw [← Option.some.inj hq]
  rfl

theorem moveOf_of_castle? (h : castle? pos s corner dir = some q) :
    moveOf q = ⟨s, s.x + 2 * dir, s.y⟩ := by
  rw [moveOf, last_of_castle? h]

theorem mem_castlings_cases (h : q ∈ castlings pos s kind) :
    kind = .unmovedKing ∧ ((castle? pos s 0 (-1) = some q ∧ moveOf q = ⟨s, s.x - 2, s.y⟩) ∨
      castle? pos s 7 1 = some q ∧ moveOf q = ⟨s, s.x + 2, s.y⟩) := by
  cases kind
  case unmovedKing =>
    refine ⟨rfl, ?_⟩
    rcases List.mem_append.mp h with h | h
    · have hq := Option.mem_toList.mp h
      exact Or.inl ⟨hq, moveOf_of_castle? hq⟩
    · have hq := Option.mem_toList.mp h
      exact Or.inr ⟨hq, moveOf_of_castle? hq⟩
  all_goals cases h

theorem castlings_apart (s : Square) :
    (⟨s, s.x - 2, s.y⟩ : Move) ≠ ⟨s, s.x + 2, s.y⟩ := by
  intro h
  have hx : s.x - 2 = s.x + 2 := congrArg (fun m : Move => m.target.x) h
  omega

theorem moveOf_of_mem_steps (h : q ∈ steps pos king s kind) :
    ∃ t ∈ targets pos s kind, moveOf q = ⟨s, t⟩ ∧ OnBoard t ∧
      move? pos (steppedKing kind king t) s t (arrivalCode kind pos.mover s t) = some q := by
  obtain ⟨t, ht, hq⟩ := List.mem_filterMap.mp h
  obtain ⟨hon, -, -, hpos⟩ := move?_eq_some.mp hq
  rw [hpos] at hq ⊢
  exact ⟨t, ht, rfl, hon, hq⟩

theorem x_of_mem_targets (h : t ∈ targets pos s .unmovedKing) : (t.x - s.x).natAbs ≤ 1 := by
  have hreach : ∀ dirs : List Square, (∀ d ∈ dirs, d.x.natAbs ≤ 1) →
      t ∈ slideTargets pos.board s dirs 1 → (t.x - s.x).natAbs ≤ 1 := by
    intro dirs hdirs ht
    obtain ⟨d, hd, hmem⟩ := List.mem_flatMap.mp ht
    obtain ⟨k, ⟨hk, hk1⟩, rfl, -⟩ := mem_reach.mp hmem
    obtain rfl : k = 1 := by omega
    have hx := hdirs d hd
    simp only [Square.ray]
    omega
  rcases List.mem_append.mp h with h | h
  · exact hreach orthogonals (by decide) h
  · exact hreach diagonals (by decide) h

theorem exists_kind_of_mem (hon : OnBoard s) (h : q ∈ movesFrom pos king s) :
    ∃ kind : Kind, look pos.board s = kind.code * pos.mover.sign ∧
      (q ∈ steps pos king s kind ∨ q ∈ castlings pos s kind) := by
  by_cases hown : ∃ kind : Kind, look pos.board s = kind.code * pos.mover.sign
  · obtain ⟨kind, hs⟩ := hown
    rw [movesFrom_eq hs] at h
    exact ⟨kind, hs, List.mem_append.mp h⟩
  · rw [movesFrom_of_ne hon fun kind hs => hown ⟨kind, hs⟩] at h
    cases h

theorem origin_of_mem_movesFrom (hon : OnBoard s) (h : q ∈ movesFrom pos king s) :
    (moveOf q).origin = s := by
  obtain ⟨kind, -, hsteps | hcastles⟩ := exists_kind_of_mem hon h
  · obtain ⟨t, -, hmove, -⟩ := moveOf_of_mem_steps hsteps
    rw [hmove]
  · obtain ⟨-, ⟨-, hmove⟩ | ⟨-, hmove⟩⟩ := mem_castlings_cases hcastles <;> rw [hmove]

/-- Only castling moves a king by two columns. -/
theorem moveOf_step_ne_castling {q' : Position} (hstep : q ∈ steps pos king s kind)
    (hcastle : q' ∈ castlings pos s kind) : moveOf q ≠ moveOf q' := by
  intro heq
  obtain ⟨rfl, hcases⟩ := mem_castlings_cases hcastle
  obtain ⟨t, ht, hq, -⟩ := moveOf_of_mem_steps hstep
  have hx := x_of_mem_targets ht
  rw [hq] at heq
  rcases hcases with ⟨-, hq'⟩ | ⟨-, hq'⟩
  all_goals
    rw [hq'] at heq
    rw [(Move.mk.inj heq).2] at hx
    dsimp only at hx
    omega

theorem nodup_castlings (pos : Position) (s : Square) (kind : Kind) :
    ((castlings pos s kind).map moveOf).Nodup := by
  have hone (o : Option Position) : (o.toList.map moveOf).Nodup := by
    cases o with
    | none => exact List.nodup_nil
    | some q => exact List.nodup_singleton _
  cases kind
  case unmovedKing =>
    show (((castle? pos s 0 (-1)).toList ++ (castle? pos s 7 1).toList).map moveOf).Nodup
    rw [List.map_append]
    refine List.nodup_append.mpr ⟨hone _, hone _, ?_⟩
    intro a ha b hb hab
    obtain ⟨q, hq, rfl⟩ := List.mem_map.mp ha
    obtain ⟨q', hq', rfl⟩ := List.mem_map.mp hb
    rw [moveOf_of_castle? (Option.mem_toList.mp hq),
      moveOf_of_castle? (Option.mem_toList.mp hq')] at hab
    exact castlings_apart s hab
  all_goals exact List.nodup_nil

theorem nodup_movesFrom (hs : look pos.board s = kind.code * pos.mover.sign)
    (hsteps : ((steps pos king s kind).map moveOf).Nodup) :
    ((movesFrom pos king s).map moveOf).Nodup := by
  rw [movesFrom_eq hs, List.map_append]
  refine List.nodup_append.mpr ⟨hsteps, nodup_castlings pos s kind, ?_⟩
  intro a ha b hb hab
  obtain ⟨q, hq, rfl⟩ := List.mem_map.mp ha
  obtain ⟨q', hq', rfl⟩ := List.mem_map.mp hb
  exact moveOf_step_ne_castling hq hq' hab

namespace Agrees

/-! ## Legal moves -/

theorem mem_castlings (h : Agrees pos g) (hg : Sound g)
    (hs : look pos.board s = Kind.unmovedKing.code * g.turn.sign) :
    next ∈ castlings pos s .unmovedKing ↔ ∃ w, g.Legal (castling g.turn w) ∧
      next = pos.successor (castledBoard pos.board g.turn w) pos.mover.opponent
        ⟨Kind.king.code * g.turn.sign, kingHome g.turn, w.arrival g.turn⟩ := by
  have hhome := h.unmovedKing _ _ hs
  subst hhome
  show next ∈ (castle? pos _ 0 (-1)).toList ++ (castle? pos _ 7 1).toList ↔ _
  rw [List.mem_append, Option.mem_toList, Option.mem_toList]
  constructor
  · rintro (hcastle | hcastle)
    · exact ⟨.queenside, (h.castle?_eq_some hg hs .queenside).mp hcastle⟩
    · exact ⟨.kingside, (h.castle?_eq_some hg hs .kingside).mp hcastle⟩
  · rintro ⟨w, hw⟩
    cases w with
    | queenside => exact .inl ((h.castle?_eq_some hg hs .queenside).mpr hw)
    | kingside => exact .inr ((h.castle?_eq_some hg hs .kingside).mpr hw)

theorem mem_steps (h : Agrees pos g) (hg : Sound g)
    (hs : look pos.board s = kind.code * g.turn.sign) :
    next ∈ steps pos (kingSquare? pos.board pos.mover) s kind ↔
      ∃ t, g.Legal ⟨s, t⟩ ∧ g.wing? ⟨s, t⟩ = none ∧
        next = pos.successor (boardAfter pos.board s t (arrivalCode kind g.turn s t))
          pos.mover.opponent ⟨look pos.board s, s, t⟩ := by
  unfold steps
  rw [List.mem_filterMap]
  constructor
  · rintro ⟨t, ht⟩
    exact ⟨t, (h.step_iff hg hs).mp ht⟩
  · rintro ⟨t, ht⟩
    exact ⟨t, (h.step_iff hg hs).mpr ht⟩

/-- A man's moves by the engine are legal and lead where the laws lead. -/
theorem of_mem_movesFrom (h : Agrees pos g) (hg : Sound g) (hon : OnBoard s)
    (hnext : next ∈ movesFrom pos (kingSquare? pos.board pos.mover) s) :
    (moveOf next).origin = s ∧ g.Legal (moveOf next) ∧ Agrees next (g.play (moveOf next)) := by
  by_cases hown : ∃ kind : Kind, look pos.board s = kind.code * pos.mover.sign
  · obtain ⟨kind, hs⟩ := hown
    rw [movesFrom_eq hs, List.mem_append] at hnext
    rw [h.mover] at hs
    rcases hnext with hstep | hcastle
    · obtain ⟨t, hlegal, hw, rfl⟩ := (h.mem_steps hg hs).mp hstep
      have hcode := h.arriving_arrivalCode hs hlegal.1
      have hafter := h.isAfter_boardAfter hg hlegal.1 hw hcode
      exact ⟨rfl, hlegal, h.play hg hlegal.1 hcode hafter _⟩
    · cases kind
      case unmovedKing =>
        obtain ⟨w, hlegal, rfl⟩ := (h.mem_castlings hg hs).mp hcastle
        have hhome := h.unmovedKing _ _ hs
        subst hhome
        have hafter := h.isAfter_castledBoard hs w
        exact ⟨rfl, hlegal, h.play hg hlegal.1 (h.arriving_castling hs w) hafter _⟩
      all_goals cases hcastle
  · rw [movesFrom_of_ne hon fun kind hs => hown ⟨kind, hs⟩] at hnext
    cases hnext

/-- The engine finds every legal move of a man. -/
theorem exists_mem_movesFrom (h : Agrees pos g) (hg : Sound g) (hlegal : g.Legal ⟨s, t⟩) :
    ∃ next ∈ movesFrom pos (kingSquare? pos.board pos.mover) s, moveOf next = ⟨s, t⟩ := by
  obtain ⟨-, -, piece, hpiece, -⟩ := id hlegal.1
  have hlook := hpiece
  rw [← h.placement, h.board.placement_eq_some] at hlook
  obtain ⟨kind, -, hs⟩ := hlook
  rw [movesFrom_eq (h.mover.symm ▸ hs)]
  cases hw : g.wing? ⟨s, t⟩ with
  | none =>
      have hmem := (h.mem_steps hg hs).mpr ⟨t, hlegal, hw, rfl⟩
      exact ⟨_, List.mem_append_left _ hmem, rfl⟩
  | some w =>
      have hcastles := hlegal.1.castles hw
      have hmove : (⟨s, t⟩ : Move) = castling g.turn w := hcastles.1
      have hunmoved : look pos.board (kingHome g.turn) = Kind.unmovedKing.code * g.turn.sign :=
        (h.unmovedRook _ _ ((h.rights _ _).mpr hcastles.2.2.2.1)).1
      obtain ⟨rfl, rfl⟩ := Move.mk.inj hmove
      have hkind : kind = .unmovedKing := (code_mul_inj (hs.symm.trans hunmoved)).1
      subst hkind
      have hmem := (h.mem_castlings hg hs).mpr ⟨w, hlegal, rfl⟩
      exact ⟨_, List.mem_append_right _ hmem, rfl⟩

end Agrees

/-! ## All moves -/

theorem mem_successors :
    next ∈ successors pos ↔
      ∃ s, OnBoard s ∧ next ∈ movesFrom pos (kingSquare? pos.board pos.mover) s := by
  unfold successors
  dsimp only
  rw [List.mem_flatMap]
  constructor
  · rintro ⟨i, hi, hnext⟩
    have hlt := List.mem_range.mp hi
    rw [Square.ofIndex_eq_ofCell (by decide) hlt] at hnext
    exact ⟨_, onBoard_iff_laws.mp (Square.onBoard_ofCell hlt), hnext⟩
  · rintro ⟨s, hon, hnext⟩
    have hcell := onBoard_iff_laws.mpr hon
    have hlt := Square.index_lt hcell
    refine ⟨s.index boardSize, List.mem_range.mpr hlt, ?_⟩
    rw [Square.ofIndex_index (by decide) hcell]
    exact hnext

theorem nodup_successors_of
    (hpassing : ∀ s t q, look pos.board s = Kind.pawn.code * pos.mover.sign →
      enPassantTarget? pos s = some t →
      move? pos (kingSquare? pos.board pos.mover) s t (arrivalCode .pawn pos.mover s t) = some q →
      look pos.board t = 0) :
    ((successors pos).map moveOf).Nodup := by
  have hcell : ∀ i ∈ List.range (boardSize * boardSize),
      Square.ofIndex boardSize i = Square.ofCell boardSize i ∧
        OnBoard (Square.ofCell boardSize i) := by
    intro i hi
    have hlt := List.mem_range.mp hi
    exact ⟨Square.ofIndex_eq_ofCell (by decide) hlt,
      onBoard_iff_laws.mp (Square.onBoard_ofCell hlt)⟩
  unfold successors
  dsimp only
  rw [List.map_flatMap, List.nodup_flatMap]
  constructor
  · intro i hi
    rw [(hcell i hi).1]
    by_cases hown : ∃ kind : Kind,
        look pos.board (Square.ofCell boardSize i) = kind.code * pos.mover.sign
    · obtain ⟨kind, hs⟩ := hown
      exact nodup_movesFrom hs (nodup_steps fun hkind t q => hpassing _ t q (hkind ▸ hs))
    · rw [movesFrom_of_ne (hcell i hi).2 fun kind hs => hown ⟨kind, hs⟩]
      exact List.nodup_nil
  · apply List.nodup_range.imp_of_mem
    intro i j hi hj hne m hmi hmj
    dsimp only at hmi hmj
    rw [(hcell i hi).1] at hmi
    rw [(hcell j hj).1] at hmj
    obtain ⟨a, ha, rfl⟩ := List.mem_map.mp hmi
    obtain ⟨b, hb, hmove⟩ := List.mem_map.mp hmj
    have hsame := origin_of_mem_movesFrom (hcell i hi).2 ha
    rw [← hmove, origin_of_mem_movesFrom (hcell j hj).2 hb] at hsame
    apply hne
    rw [← Square.index_ofCell (List.mem_range.mp hi), ← Square.index_ofCell (List.mem_range.mp hj),
      hsame]

namespace Agrees

theorem of_mem_successors (h : Agrees pos g) (hg : Sound g) (hnext : next ∈ successors pos) :
    g.Legal (moveOf next) ∧ Agrees next (g.play (moveOf next)) := by
  obtain ⟨s, hon, hmem⟩ := mem_successors.mp hnext
  exact (h.of_mem_movesFrom hg hon hmem).2

theorem exists_mem_successors (h : Agrees pos g) (hg : Sound g) {m : Move} (hm : g.Legal m) :
    ∃ next ∈ successors pos, moveOf next = m := by
  obtain ⟨next, hmem, hmove⟩ := h.exists_mem_movesFrom hg hm
  obtain ⟨-, -, piece, hpiece, -⟩ := hm.1
  exact ⟨next, mem_successors.mpr ⟨m.origin, hg.onBoard _ _ hpiece, hmem⟩, hmove⟩

theorem nodup_successors (h : Agrees pos g) (hg : Sound g) :
    ((successors pos).map moveOf).Nodup :=
  nodup_successors_of fun _ _ _ _ hpassed _ =>
    h.look_eq_zero.mpr ((enPassantTarget?_eq_some h hg).mp hpassed).2.1

end Agrees

end BoardGame.Chess
