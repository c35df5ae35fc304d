import BoardGame.Proofs.Chess.Fen.Ranks
/-!
# Castling rights in records

Reading a record gives a right by turning a king and a rook into unmoved ones. The rights
that are held on a board are those that are written, and giving them to the board without
its rights brings them all back.
-/

namespace BoardGame.Chess

open Laws Fen

/-! ## Rights and wings -/

namespace Fen.Right

variable {r : Right}

theorem kingHome_eq (r : Right) : r.kingHome = Laws.kingHome r.side := by
  obtain ⟨flag, side, corner⟩ := r
  cases side <;> rfl

theorem exists_wing (hr : r ∈ Right.all) : ∃ w : Wing, r.rookHome = w.corner r.side := by
  have hall : ∀ r ∈ Right.all, r.rookHome = Wing.queenside.corner r.side ∨
      r.rookHome = Wing.kingside.corner r.side := by
    decide
  rcases hall r hr with hw | hw
  · exact ⟨_, hw⟩
  · exact ⟨_, hw⟩

theorem exists_right (side : Side) (w : Wing) :
    ∃ r ∈ Right.all, r.side = side ∧ r.rookHome = w.corner side := by
  cases side <;> cases w <;> decide

theorem eq_of_flag_eq {r' : Right} (hr : r ∈ Right.all) (hr' : r' ∈ Right.all)
    (h : r.flag = r'.flag) : r = r' := by
  have hall : ∀ r ∈ Right.all, ∀ r' ∈ Right.all, r.flag = r'.flag → r = r' := by
    decide
  exact hall r hr r' hr' h

theorem held_iff {board : Board} :
    r.held board = true ↔ look board r.rookHome = Kind.unmovedRook.code * r.side.sign ∧
      look board r.kingHome = Kind.unmovedKing.code * r.side.sign := by
  simp [held]

theorem flag_mem_rightsText {board : Board} (hr : r ∈ Right.all) :
    r.flag ∈ (rightsText board).toList ↔ r.held board = true := by
  have hflags : r.flag ∈ (Right.all.filter fun r => r.held board).map (·.flag) ↔
      r.held board = true := by
    rw [List.mem_map]
    constructor
    · rintro ⟨r', hr', heq⟩
      obtain ⟨hmem, hheld⟩ := List.mem_filter.mp hr'
      rwa [eq_of_flag_eq hmem hr heq] at hheld
    · intro hheld
      exact ⟨r, List.mem_filter.mpr ⟨hr, hheld⟩, rfl⟩
  have hdash : ∀ r ∈ Right.all, r.flag ∉ "-".toList := by
    decide
  rw [← hflags]
  unfold rightsText
  dsimp only
  cases hnone : ((Right.all.filter fun r => r.held board).map (·.flag)).isEmpty with
  | true =>
      rw [if_pos rfl, List.isEmpty_iff.mp hnone]
      exact iff_of_false (hdash r hr) List.not_mem_nil
  | false => rw [if_neg Bool.false_ne_true, String.toList_ofList]

end Fen.Right

/-! ## Granting -/

variable {board : Board} {r r' : Right} {s : Square} {code : Int}

namespace Fen.Right

/-- The squares on which a right turns pieces into unmoved ones. -/
def homes (r : Right) : List Square := [r.kingHome, r.rookHome]

theorem mem_homes : s ∈ r.homes ↔ s = r.kingHome ∨ s = r.rookHome := by
  simp [homes]

theorem onBoard_of_mem_homes (hr : r ∈ Right.all) (hs : s ∈ r.homes) : OnBoard s := by
  have hall : ∀ r ∈ Right.all, ∀ s ∈ r.homes, OnBoard s := by
    decide
  exact hall r hr s hs

/-- The corner of a right is among the squares of no other right. -/
theorem eq_of_rookHome_mem (hr : r ∈ Right.all) (hr' : r' ∈ Right.all)
    (h : r.rookHome ∈ r'.homes) : r = r' := by
  have hall : ∀ r ∈ Right.all, ∀ r' ∈ Right.all, r.rookHome ∈ r'.homes → r = r' := by
    decide
  exact hall r hr r' hr' h

theorem side_eq_of_kingHome_mem (hr : r ∈ Right.all) (hr' : r' ∈ Right.all)
    (h : r.kingHome ∈ r'.homes) : r.kingHome = r'.kingHome ∧ r.side = r'.side := by
  have hall : ∀ r ∈ Right.all, ∀ r' ∈ Right.all, r.kingHome ∈ r'.homes →
      r.kingHome = r'.kingHome ∧ r.side = r'.side := by
    decide
  exact hall r hr r' hr' h

/-- The board with the king and the rook of a right unmoved. -/
def mark (r : Right) (board : Board) : Board :=
  write (write board r.kingHome (Kind.unmovedKing.code * r.side.sign)) r.rookHome
    (Kind.unmovedRook.code * r.side.sign)

/-- What a right asks of the board that it is granted to. -/
def Grantable (r : Right) (board : Board) : Prop :=
  (look board r.kingHome = Kind.king.code * r.side.sign ∨
      look board r.kingHome = Kind.unmovedKing.code * r.side.sign) ∧
    look board r.rookHome = Kind.rook.code * r.side.sign

theorem grant_eq_ok {after : Board} :
    r.grant board = .ok after ↔ r.Grantable board ∧ r.mark board = after := by
  unfold grant
  dsimp only
  constructor
  · intro h
    split at h
    next hgrant => exact ⟨hgrant, Except.ok.inj h⟩
    next => cases h
  · rintro ⟨hgrant, rfl⟩
    exact if_pos hgrant

theorem look_mark (h : Valid board) (hr : r ∈ Right.all) (s : Square) :
    look (r.mark board) s =
      if s = r.rookHome then Kind.unmovedRook.code * r.side.sign
      else if s = r.kingHome then Kind.unmovedKing.code * r.side.sign
      else look board s := by
  have hking := onBoard_of_mem_homes hr (mem_homes.mpr (.inl rfl))
  have hrook := onBoard_of_mem_homes hr (mem_homes.mpr (.inr rfl))
  rw [mark, (h.write hking (natAbs_code_mul_le _ _)).look_write hrook, h.look_write hking]

theorem valid_mark (h : Valid board) (hr : r ∈ Right.all) : Valid (r.mark board) := by
  have hking := onBoard_of_mem_homes hr (mem_homes.mpr (.inl rfl))
  have hrook := onBoard_of_mem_homes hr (mem_homes.mpr (.inr rfl))
  exact (h.write hking (natAbs_code_mul_le _ _)).write hrook (natAbs_code_mul_le _ _)

theorem kingHome_ne_rookHome (hr : r ∈ Right.all) : r.kingHome ≠ r.rookHome := by
  have hall : ∀ r ∈ Right.all, r.kingHome ≠ r.rookHome := by
    decide
  exact hall r hr

theorem held_mark (h : Valid board) (hr : r ∈ Right.all) : r.held (r.mark board) = true := by
  rw [held_iff, look_mark h hr, look_mark h hr, if_pos rfl, if_neg (kingHome_ne_rookHome hr),
    if_pos rfl]
  exact ⟨rfl, rfl⟩

theorem held_mark_of_held (h : Valid board) (hr : r ∈ Right.all) (hr' : r' ∈ Right.all)
    (hheld : r'.held board = true) : r'.held (r.mark board) = true := by
  by_cases heq : r' = r
  · rw [heq]
    exact held_mark h hr
  obtain ⟨hrook, hking⟩ := held_iff.mp hheld
  have hapart : r'.rookHome ∉ r.homes := fun hmem => heq (eq_of_rookHome_mem hr' hr hmem)
  have hcorner : r'.kingHome ≠ r.rookHome := fun hsame =>
    kingHome_ne_rookHome hr
      ((side_eq_of_kingHome_mem hr' hr (mem_homes.mpr (.inr hsame))).1.symm.trans hsame)
  rw [mem_homes, not_or] at hapart
  rw [held_iff, look_mark h hr, look_mark h hr, if_neg hapart.2, if_neg hapart.1,
    if_neg hcorner]
  refine ⟨hrook, ?_⟩
  by_cases hhome : r'.kingHome = r.kingHome
  · rw [if_pos hhome, (side_eq_of_kingHome_mem hr' hr (mem_homes.mpr (.inl hhome))).2]
  · rw [if_neg hhome, hking]

end Fen.Right

/-! ## Boards whose unmoved pieces have rights -/

/-- Every unmoved piece belongs to a right that is held. -/
structure Warranted (board : Board) : Prop where
  valid : Valid board
  plain : ∀ s, (∀ r ∈ Right.all, r.held board = true → s ∉ r.homes) →
    (look board s).natAbs ≤ 6

theorem Warranted.mark (h : Warranted board) (hr : r ∈ Right.all) : Warranted (r.mark board) where
  valid := Right.valid_mark h.valid hr
  plain s hs := by
    have hapart := hs r hr (Right.held_mark h.valid hr)
    rw [Right.mem_homes, not_or] at hapart
    rw [Right.look_mark h.valid hr, if_neg hapart.2, if_neg hapart.1]
    exact h.plain s fun r' hr' hheld => hs r' hr' (Right.held_mark_of_held h.valid hr hr' hheld)

theorem warranted_of_grantRights {field : List Char} {before : Board} (hvalid : Valid before)
    (hplain : ∀ s, (look before s).natAbs ≤ 6) (h : grantRights field before = .ok board) :
    Warranted board := by
  refine foldlM_keeps ?_ (Warranted.mk hvalid fun s _ => hplain s) h
  intro b after r hr hb hgrant
  obtain ⟨-, rfl⟩ := Right.grant_eq_ok.mp hgrant
  exact hb.mark (List.mem_of_mem_filter hr)

/-! ## Bringing rights back -/

/-- The board with no rights but those of a list. -/
def withRights (board : Board) (rights : List Right) : Board :=
  Board.ofSquares boardSize fun s =>
    if ∃ r ∈ rights, s ∈ r.homes then look board s else demote (look board s)

theorem look_withRights (board : Board) (rights : List Right) (s : Square) :
    look (withRights board rights) s =
      if ∃ r ∈ rights, s ∈ r.homes then look board s else demote (look board s) := by
  by_cases hs : OnBoard s
  · rw [look_eq_read hs]
    exact Board.read_ofSquares _ (onBoard_iff_laws.mpr hs)
  · rw [look_of_not_onBoard hs, look_of_not_onBoard hs, demote_zero, ite_self]

theorem natAbs_demote_le (h : code.natAbs ≤ 8) : (demote code).natAbs ≤ 6 := by
  by_cases hzero : code = 0
  · rw [hzero]
    decide
  · obtain ⟨k, side, rfl⟩ := exists_kind hzero h
    cases k <;> cases side <;> decide

theorem valid_withRights (h : Valid board) (rights : List Right) :
    Valid (withRights board rights) where
  size := Board.size_ofSquares _
  code_le s := by
    rw [look_withRights]
    split
    · exact h.code_le s
    · exact Nat.le_trans (natAbs_demote_le (h.code_le s)) (by decide)

theorem grant_withRights (h : Valid board) {rights : List Right}
    (hrights : ∀ r' ∈ rights, r' ∈ Right.all) (hr : r ∈ Right.all) (hnew : r ∉ rights)
    (hheld : r.held board = true) :
    r.grant (withRights board rights) = .ok (withRights board (rights ++ [r])) := by
  obtain ⟨hrook, hking⟩ := Right.held_iff.mp hheld
  have hvalid := valid_withRights h rights
  have hcorner : ¬ ∃ r' ∈ rights, r.rookHome ∈ r'.homes := by
    rintro ⟨r', hr', hmem⟩
    exact hnew (Right.eq_of_rookHome_mem hr (hrights r' hr') hmem ▸ hr')
  refine Right.grant_eq_ok.mpr ⟨⟨?_, ?_⟩, ?_⟩
  · rw [look_withRights, hking, demote_code]
    split
    · exact Or.inr rfl
    · exact Or.inl rfl
  · rw [look_withRights, hrook, if_neg hcorner, demote_code]
  · apply eq_of_look (Right.valid_mark hvalid hr) (valid_withRights h _)
    intro s
    rw [Right.look_mark hvalid hr, look_withRights, look_withRights]
    by_cases hhome : s ∈ r.homes
    · rw [if_pos (⟨r, by simp, hhome⟩ : ∃ r' ∈ rights ++ [r], s ∈ r'.homes)]
      rcases Right.mem_homes.mp hhome with rfl | rfl
      · rw [if_neg (Right.kingHome_ne_rookHome hr), if_pos rfl, hking]
      · rw [if_pos rfl, hrook]
    · have hsame : (∃ r' ∈ rights ++ [r], s ∈ r'.homes) ↔ ∃ r' ∈ rights, s ∈ r'.homes := by
        simp [hhome, or_and_right, exists_or]
      rw [Right.mem_homes, not_or] at hhome
      rw [if_neg hhome.2, if_neg hhome.1]
      simp only [hsame]

theorem foldlM_grant (h : Valid board) {rights rest : List Right}
    (hall : ∀ r ∈ rights ++ rest, r ∈ Right.all ∧ r.held board = true)
    (hnodup : (rights ++ rest).Nodup) :
    rest.foldlM (fun b r => r.grant b) (withRights board rights) =
      .ok (withRights board (rights ++ rest)) := by
  induction rest generalizing rights with
  | nil => rw [List.append_nil]; rfl
  | cons r rest ih =>
      have hr := hall r (by simp)
      have hnew : r ∉ rights := fun hmem =>
        (List.nodup_append.mp hnodup).2.2 r hmem r List.mem_cons_self rfl
      have hsplit : rights ++ r :: rest = rights ++ [r] ++ rest := by simp
      rw [hsplit] at hall hnodup
      rw [List.foldlM_cons, grant_withRights h (fun r' hr' => (hall r' (by simp [hr'])).1) hr.1 hnew
        hr.2, hsplit]
      exact ih hall hnodup

/-- The board that a record describes: rights are kept where they are held. -/
def heldBoard (board : Board) : Board :=
  withRights board (Right.all.filter fun r => r.held board)

/-- The rights that are written bring the board back, as far as it has rights. -/
theorem grantRights_rightsText (h : Valid board) :
    grantRights (rightsText board).toList (plainBoard board) = .ok (heldBoard board) := by
  have hfield : (Right.all.filter fun r => (rightsText board).toList.contains r.flag) =
      Right.all.filter fun r => r.held board := by
    apply List.filter_congr
    intro r hr
    rw [Bool.eq_iff_iff, List.contains_iff_mem, Right.flag_mem_rightsText hr]
  have hplain : plainBoard board = withRights board [] := by
    unfold plainBoard withRights
    simp
  have hheld : ∀ r ∈ Right.all.filter fun r => r.held board, r ∈ Right.all ∧ r.held board = true :=
    fun r hr => List.mem_filter.mp hr
  have hnodup : (Right.all.filter fun r => r.held board).Nodup :=
    List.Pairwise.filter _ (show Right.all.Nodup by decide)
  rw [grantRights, hfield, hplain]
  exact foldlM_grant h hheld hnodup

theorem Warranted.heldBoard_eq (h : Warranted board) : heldBoard board = board := by
  apply eq_of_look (valid_withRights h.valid _) h.valid
  intro s
  rw [look_withRights]
  split
  next => rfl
  next hnone =>
    have hplain : (look board s).natAbs ≤ 6 := h.plain s fun r hr hheld hs =>
      hnone ⟨r, List.mem_filter.mpr ⟨hr, hheld⟩, hs⟩
    unfold demote
    rw [if_neg (by omega), if_neg (by omega)]

end BoardGame.Chess
