import BoardGame.Proofs.Chess.Fen.Rights
/-!
# Records that are read again

A text may spell a position in many ways: rights in any order and more than once, a
square passed over by no pawn, a move number with zeros before it. The record of the
position that was read is one text, and it is read as the same position.
-/

namespace BoardGame.Chess.Fen

open Laws

variable {field : List Char} {mover : Side} {board : Board} {number depth : Nat} {pos : Position}

/-! ## The side to move -/

/-- Field of the side to move. -/
def moverText (mover : Side) : String := if mover = .white then "w" else "b"

theorem readMover_moverText (mover : Side) : readMover (moverText mover) = .ok mover := by
  cases mover <;> rfl

theorem isWord_moverText (mover : Side) : Text.IsWord (moverText mover).toList := by
  cases mover <;> exact Text.isWord_singleton (by decide)

/-! ## Castling rights -/

theorem isWord_rightsText (board : Board) : Text.IsWord (rightsText board).toList := by
  have hflags : ∀ r ∈ Right.all, Text.isBlank r.flag = false := by
    decide
  unfold rightsText
  dsimp only
  cases hempty : ((Right.all.filter fun r => r.held board).map (·.flag)).isEmpty with
  | true =>
      rw [if_pos rfl]
      exact Text.isWord_singleton (by decide)
  | false =>
      rw [if_neg Bool.false_ne_true, String.toList_ofList]
      refine ⟨List.isEmpty_eq_false_iff.mp hempty, fun c hc => ?_⟩
      obtain ⟨r, hr, rfl⟩ := List.mem_map.mp hc
      exact hflags r (List.mem_of_mem_filter hr)

/-! ## The square passed over -/

theorem lastMove_congr {field' : List Char} (h : Square.parse? field = Square.parse? field') :
    lastMove field mover board = lastMove field' mover board := by
  unfold lastMove
  rw [h]

/-- A double step that is read is written as the square that it passed over. -/
theorem lastMove_cases (field : List Char) (mover : Side) (board : Board) :
    lastMove field mover board = .absent ∨
      ∃ passed, OnBoard passed ∧ Square.parse? field = some passed ∧
        enPassantText (lastMove field mover board) = passed.name := by
  have hbefore {passed : Square} {y : Int} (hon : OnBoard ⟨passed.x, y⟩)
      (hy : passed.y = 2 ∨ passed.y = 5) : OnBoard passed :=
    ⟨hon.1, by omega⟩
  unfold lastMove
  cases hpassed : Square.parse? field with
  | none => exact Or.inl rfl
  | some passed =>
      cases mover with
      | black =>
          dsimp only
          by_cases hstep : passed.y = 2 ∧ look board ⟨passed.x, 3⟩ = Kind.pawn.code
          · obtain ⟨hy, hpawn⟩ := hstep
            have hon : OnBoard ⟨passed.x, 3⟩ := onBoard_of_look_ne_zero (by rw [hpawn]; decide)
            rw [if_pos ⟨hy, hpawn⟩]
            refine Or.inr ⟨passed, hbefore hon (.inl hy), rfl, ?_⟩
            show Square.name ⟨passed.x, 2⟩ = passed.name
            rw [← hy]
          · rw [if_neg hstep]
            exact Or.inl rfl
      | white =>
          dsimp only
          by_cases hstep : passed.y = 5 ∧ look board ⟨passed.x, 4⟩ = -Kind.pawn.code
          · obtain ⟨hy, hpawn⟩ := hstep
            have hon : OnBoard ⟨passed.x, 4⟩ := onBoard_of_look_ne_zero (by rw [hpawn]; decide)
            rw [if_pos ⟨hy, hpawn⟩]
            refine Or.inr ⟨passed, hbefore hon (.inr hy), rfl, ?_⟩
            show Square.name ⟨passed.x, 5⟩ = passed.name
            rw [← hy]
          · rw [if_neg hstep]
            exact Or.inl rfl

theorem lastMove_enPassantText (field : List Char) (mover : Side) (board : Board) :
    lastMove (enPassantText (lastMove field mover board)).toList mover board =
      lastMove field mover board := by
  rcases lastMove_cases field mover board with habsent | ⟨passed, hon, hparse, htext⟩
  · rw [habsent]
    rfl
  · refine lastMove_congr ?_
    obtain ⟨hx, hy⟩ := hon
    rw [htext, hparse, Square.parse?_name (by omega) (by omega)]

theorem isWord_enPassantText (field : List Char) (mover : Side) (board : Board) :
    Text.IsWord (enPassantText (lastMove field mover board)).toList := by
  rcases lastMove_cases field mover board with habsent | ⟨passed, hon, -, htext⟩
  · rw [habsent]
    exact Text.isWord_singleton (by decide)
  · rw [htext]
    exact Square.isWord_name hon.1.1 hon.2.1 (by have := hon.1.2; omega)

/-! ## The number of the move -/

theorem depthOf_eq_ok :
    depthOf number mover = .ok depth ↔
      depth = 2 * max number 1 - (if mover = .white then 2 else 1) ∧ depth ≤ maxDepth := by
  unfold depthOf
  generalize 2 * max number 1 - (if mover = .white then 2 else 1) = plies
  by_cases hle : plies ≤ maxDepth
  · simp only [if_pos hle, Except.ok.injEq]
    exact ⟨fun h => ⟨h.symm, h ▸ hle⟩, fun h => h.1.symm⟩
  · simp only [if_neg hle, reduceCtorEq, false_iff]
    exact fun h => hle (h.1 ▸ h.2)

theorem depthOf_moveNumber (h : depthOf number pos.mover = .ok pos.depth) :
    depthOf (moveNumber pos) pos.mover = .ok pos.depth := by
  obtain ⟨hplies, hle⟩ := depthOf_eq_ok.mp h
  refine depthOf_eq_ok.mpr ⟨?_, hle⟩
  unfold moveNumber
  by_cases hwhite : pos.mover = .white
  · rw [if_pos hwhite] at hplies ⊢
    rw [if_pos hwhite]
    omega
  · rw [if_neg hwhite] at hplies ⊢
    rw [if_neg hwhite]
    omega

theorem readMoveNumber_moveNumber (h : pos.depth ≤ maxDepth) :
    readMoveNumber (toString (moveNumber pos)) = .ok (moveNumber pos) := by
  have hlt : moveNumber pos < 0x100000000 := by
    unfold moveNumber
    unfold maxDepth at h
    split <;> omega
  rw [readMoveNumber, Text.natural?_toString hlt]

/-! ## Records -/

/-- A position as records describe it. -/
structure Recorded (pos : Position) : Prop where
  warranted : Warranted pos.board
  last : ∃ field, pos.last = lastMove field pos.mover pos.board
  depth : ∃ number, depthOf number pos.mover = .ok pos.depth
  rest : pos = Position.ofBoard boardSize pos.board pos.mover pos.last pos.depth

theorem recorded_of_readFields {fields : List String} (h : readFields fields = .ok pos) :
    Recorded pos := by
  unfold readFields at h
  cases hplacement : fields[0]? with
  | none =>
      rw [hplacement] at h
      cases h
  | some placement =>
      rw [hplacement] at h
      obtain ⟨mover, -, h⟩ := bind_eq_ok.mp h
      obtain ⟨number, -, h⟩ := bind_eq_ok.mp h
      obtain ⟨plain, hplain, h⟩ := bind_eq_ok.mp h
      obtain ⟨board, hboard, h⟩ := bind_eq_ok.mp h
      obtain ⟨depth, hdepth, h⟩ := bind_eq_ok.mp h
      cases h
      obtain ⟨hvalid, hcodes⟩ := of_readBoard hplain
      exact ⟨warranted_of_grantRights hvalid hcodes hboard, ⟨_, rfl⟩, ⟨number, hdepth⟩, rfl⟩

theorem read_eq_ok {text : String} :
    read text = .ok pos ↔ readFields ((Text.words text.toList).map String.ofList) = .ok pos := by
  unfold read
  cases readFields ((Text.words text.toList).map String.ofList) with
  | ok p => simp only [Except.ok.injEq]
  | error fault => exact ⟨nofun, nofun⟩

/-- The fields that are written. -/
def fields (pos : Position) : List String :=
  [boardText pos.board, moverText pos.mover, rightsText pos.board, enPassantText pos.last, "0",
    toString (moveNumber pos)]

theorem text_eq (pos : Position) : text pos = " ".intercalate (fields pos) := rfl

section

variable (hvalid : Valid pos.board) (hsquare : Text.IsWord (enPassantText pos.last).toList)

include hvalid hsquare in
theorem isWord_fields : ∀ s ∈ fields pos, Text.IsWord s.toList := by
  simp only [fields, List.forall_mem_cons]
  exact ⟨isWord_boardText hvalid, isWord_moverText _, isWord_rightsText _, hsquare,
    Text.isWord_singleton (by decide), Text.isWord_toString _, List.forall_mem_nil _⟩

include hvalid hsquare in
theorem words_text : (Text.words (text pos).toList).map String.ofList = fields pos := by
  have hwords : ∀ t ∈ (fields pos).map String.toList, Text.IsWord t := by
    intro t ht
    obtain ⟨s, hs, rfl⟩ := List.mem_map.mp ht
    exact isWord_fields hvalid hsquare s hs
  rw [text_eq, String.toList_intercalate]
  show (Text.words ([' '].intercalate _)).map String.ofList = _
  rw [Text.words_intercalate hwords, List.map_map]
  exact List.map_id'' (fun s => String.ofList_toList) _

/-- What a record says of a position. -/
def transcript (pos : Position) : Position :=
  let board := heldBoard pos.board
  Position.ofBoard boardSize board pos.mover
    (lastMove (enPassantText pos.last).toList pos.mover board) pos.depth

@[simp] theorem transcript_mover (pos : Position) : (transcript pos).mover = pos.mover := by
  dsimp only [transcript, Position.ofBoard]

@[simp] theorem transcript_depth (pos : Position) : (transcript pos).depth = pos.depth := by
  dsimp only [transcript, Position.ofBoard]

@[simp] theorem transcript_board (pos : Position) :
    (transcript pos).board = heldBoard pos.board := rfl

include hvalid in
theorem readFields_fields (hdepth : depthOf number pos.mover = .ok pos.depth) :
    readFields (fields pos) = .ok (transcript pos) := by
  have hnumber := readMoveNumber_moveNumber ((depthOf_eq_ok.mp hdepth).2)
  show (readMover (moverText pos.mover) >>= fun mover =>
    readMoveNumber (toString (moveNumber pos)) >>= fun number =>
    readBoard (boardText pos.board) >>= fun board =>
    grantRights (rightsText pos.board).toList board >>= fun board =>
    depthOf number mover >>= fun depth =>
    pure (Position.ofBoard boardSize board mover
      (lastMove (enPassantText pos.last).toList mover board) depth)) = .ok (transcript pos)
  exact bind_eq_ok.mpr ⟨_, readMover_moverText _, bind_eq_ok.mpr ⟨_, hnumber,
    bind_eq_ok.mpr ⟨_, readBoard_boardText hvalid, bind_eq_ok.mpr ⟨_, grantRights_rightsText hvalid,
      bind_eq_ok.mpr ⟨_, depthOf_moveNumber hdepth, rfl⟩⟩⟩⟩⟩

include hvalid hsquare in
theorem read_text (hdepth : depthOf number pos.mover = .ok pos.depth) :
    read (text pos) = .ok (transcript pos) := by
  rw [read_eq_ok, words_text hvalid hsquare]
  exact readFields_fields hvalid hdepth

end

namespace Recorded

theorem isWord_square (h : Recorded pos) : Text.IsWord (enPassantText pos.last).toList := by
  obtain ⟨field, hlast⟩ := h.last
  rw [hlast]
  exact isWord_enPassantText field pos.mover pos.board

theorem transcript_eq (h : Recorded pos) : transcript pos = pos := by
  obtain ⟨field, hlast⟩ := h.last
  have hsquare : lastMove (enPassantText pos.last).toList pos.mover pos.board = pos.last := by
    rw [hlast]
    exact lastMove_enPassantText field pos.mover pos.board
  unfold transcript
  dsimp only
  rw [h.warranted.heldBoard_eq, hsquare]
  exact h.rest.symm

end Recorded

/-- What is read from a text is read again from its record, and reading and writing
change nothing in the record. -/
theorem read_text_of_read {t : String} (h : read t = .ok pos) :
    read (text pos) = .ok pos ∧ text <$> read (text pos) = .ok (text pos) := by
  have hrecorded := recorded_of_readFields (read_eq_ok.mp h)
  obtain ⟨number, hdepth⟩ := hrecorded.depth
  have hread : read (text pos) = .ok pos := by
    rw [read_text hrecorded.warranted.valid hrecorded.isWord_square hdepth,
      hrecorded.transcript_eq]
  refine ⟨hread, ?_⟩
  rw [hread]
  rfl

/-- Blanks, rights, files and numbers in a spelling of their own. -/
def spelled : String :=
  "  r3k3/8/8/8/3pP3/8/8/R03K2R\t b   xqQqK  E+3 99 +007 and so on "

theorem read_text_of_read_spelled :
    ∃ p, read spelled = .ok p ∧ read (text p) = .ok p ∧
      text p = "r3k3/8/8/8/3pP3/8/8/R3K2R b KQq e3 0 7" := by
  obtain ⟨p, hp, htext⟩ : ∃ p, read spelled = .ok p ∧
      text p = "r3k3/8/8/8/3pP3/8/8/R3K2R b KQq e3 0 7" := by
    have hshown : (read spelled).toOption.map text =
        some "r3k3/8/8/8/3pP3/8/8/R3K2R b KQq e3 0 7" := by
      decide +kernel
    cases hp : read spelled with
    | error e =>
        rw [hp] at hshown
        cases hshown
    | ok p =>
        rw [hp] at hshown
        exact ⟨p, rfl, Option.some.inj hshown⟩
  exact ⟨p, hp, (read_text_of_read hp).1, htext⟩

end BoardGame.Chess.Fen
