import BoardGame.Moves.Effect
import BoardGame.Proofs.Board
import BoardGame.Proofs.Failure
/-!
# Lists of writes

What a board reads after a list of writes: a square that none of them meets keeps
its code, and one that they all write alike has theirs. A move to a square of the board
writes to squares of the board only.
-/

namespace BoardGame

/-- A board after writes, in order. -/
def Board.writeAll (board : Board) (n : Nat) (writes : List Write) : Board :=
  writes.foldl (fun b w => b.write n w.square w.code) board

namespace Board

variable {n : Nat} {board : Board} {writes : List Write} {s : Square}

theorem writeAll_cons (w : Write) (rest : List Write) :
    board.writeAll n (w :: rest) = (board.write n w.square w.code).writeAll n rest := rfl

@[simp] theorem size_writeAll : (board.writeAll n writes).size = board.size := by
  induction writes generalizing board with
  | nil => rfl
  | cons w rest ih =>
      rw [writeAll_cons, ih, size_write]

theorem writeAll_append (more : List Write) :
    board.writeAll n (writes ++ more) = (board.writeAll n writes).writeAll n more :=
  List.foldl_append

theorem read_writeAll_of_forall_ne (hsize : board.size = n * n)
    (hwrites : ∀ w ∈ writes, w.square.onBoard n = true) (hs : s.onBoard n = true)
    (h : ∀ w ∈ writes, w.square ≠ s) : (board.writeAll n writes).read n s = board.read n s := by
  induction writes generalizing board with
  | nil => rfl
  | cons w rest ih =>
      obtain ⟨hw, hrest⟩ := List.forall_mem_cons.mp hwrites
      obtain ⟨hne, hrestne⟩ := List.forall_mem_cons.mp h
      rw [writeAll_cons, ih (size_write.trans hsize) hrest hrestne,
        read_write_of_ne hsize hw hs hne.symm]

theorem read_writeAll_of_exists (hsize : board.size = n * n)
    (hwrites : ∀ w ∈ writes, w.square.onBoard n = true) (hs : s.onBoard n = true) {code : Int}
    (hsome : ∃ w ∈ writes, w.square = s) (hall : ∀ w ∈ writes, w.square = s → w.code = code) :
    (board.writeAll n writes).read n s = code := by
  induction writes generalizing board with
  | nil => obtain ⟨w, hw, -⟩ := hsome; cases hw
  | cons w rest ih =>
      obtain ⟨hw, hrest⟩ := List.forall_mem_cons.mp hwrites
      obtain ⟨hcode, hrestcode⟩ := List.forall_mem_cons.mp hall
      rw [writeAll_cons]
      by_cases hlater : ∃ w ∈ rest, w.square = s
      · exact ih (size_write.trans hsize) hrest hlater hrestcode
      · -- the first write is the only one to the square
        have hne : ∀ w ∈ rest, w.square ≠ s := fun w hw e => hlater ⟨w, hw, e⟩
        have hsq : w.square = s := by
          obtain ⟨w', hw', e⟩ := hsome
          rcases List.mem_cons.mp hw' with rfl | hmem
          · exact e
          · exact absurd e (hne w' hmem)
        rw [read_writeAll_of_forall_ne (size_write.trans hsize) hrest hs hne, hcode hsq, hsq,
          read_write_self hsize hs]

theorem read_writeAll_cases (hsize : board.size = n * n)
    (hwrites : ∀ w ∈ writes, w.square.onBoard n = true) (hs : s.onBoard n = true) :
    (board.writeAll n writes).read n s = board.read n s ∨
      ∃ w ∈ writes, w.square = s ∧ (board.writeAll n writes).read n s = w.code := by
  induction writes generalizing board with
  | nil => exact .inl rfl
  | cons w rest ih =>
      obtain ⟨hw, hrest⟩ := List.forall_mem_cons.mp hwrites
      rw [writeAll_cons]
      rcases ih (size_write.trans hsize) hrest with hkept | ⟨v, hv, hsquare, hcode⟩
      · rw [hkept, read_write hsize hw hs]
        by_cases heq : s = w.square
        · rw [if_pos heq]
          exact .inr ⟨w, List.mem_cons_self, heq.symm, rfl⟩
        · exact .inl (if_neg heq)
      · exact .inr ⟨v, List.mem_cons_of_mem w hv, hsquare, hcode⟩

theorem countP_writeAll_le {p : Int → Bool} (hsize : board.size = n * n)
    (hwrites : ∀ w ∈ writes, w.square.onBoard n = true) (hcodes : ∀ w ∈ writes, p w.code = false) :
    (board.writeAll n writes).countP p ≤ board.countP p := by
  induction writes generalizing board with
  | nil => exact Nat.le_refl _
  | cons w rest ih =>
      obtain ⟨hw, hrest⟩ := List.forall_mem_cons.mp hwrites
      obtain ⟨hcode, hrestcodes⟩ := List.forall_mem_cons.mp hcodes
      have hfirst : (board.write n w.square w.code).countP p + _ = _ := countP_write p hsize hw
      rw [hcode, if_neg Bool.false_ne_true] at hfirst
      rw [writeAll_cons]
      exact Nat.le_trans (ih (size_write.trans hsize) hrest hrestcodes) (by omega)

end Board

namespace Occupant

theorem classify_eq_empty {code mover : Int} : classify code mover = .empty ↔ code = 0 := by
  unfold classify
  split <;> simp_all
  split <;> simp

theorem classify_eq_own {code mover : Int} :
    classify code mover = .own ↔ code ≠ 0 ∧ code.sign = mover.sign := by
  unfold classify
  split <;> simp_all

theorem classify_eq_opponent {code mover : Int} :
    classify code mover = .opponent ↔ code ≠ 0 ∧ code.sign ≠ mover.sign := by
  unfold classify
  split <;> simp_all

end Occupant

theorem Candidate.apply_eq {c : Candidate} {rules : RuleSet} {pos : Position} {type : PieceType}
    {landing exchange : List Write} (htype : rules.pieceType c.piece = .ok type)
    (hland : c.landWrites pos type.name (pos.read c.target) = .ok landing)
    (hexchange : c.exchangeWrites rules pos.mover = .ok exchange) :
    c.apply rules pos = .ok (pos.successor
      (pos.board.writeAll rules.boardSize (c.jumpWrites pos ++ landing ++ exchange))
      (if c.rule.continues then pos.mover else pos.mover.opponent)
      ⟨c.piece, c.origin, c.target⟩) := by
  have hwrites : c.writes rules pos = .ok (c.jumpWrites pos ++ landing ++ exchange) := by
    rw [writes, htype]
    change (c.landWrites pos type.name (pos.read c.target) >>= fun landing => _) = _
    rw [hland]
    change (c.exchangeWrites rules pos.mover >>= fun exchange => _) = _
    rw [hexchange]
    rfl
  rw [apply, hwrites]
  rfl

theorem Candidate.exists_of_apply {c : Candidate} {rules : RuleSet} {pos next : Position}
    (h : c.apply rules pos = .ok next) :
    ∃ name landing exchange, c.landWrites pos name (pos.read c.target) = .ok landing ∧
      c.exchangeWrites rules pos.mover = .ok exchange ∧ next = pos.successor
        (pos.board.writeAll rules.boardSize (c.jumpWrites pos ++ landing ++ exchange))
        (if c.rule.continues then pos.mover else pos.mover.opponent)
        ⟨c.piece, c.origin, c.target⟩ := by
  obtain ⟨writes, hwrites, hnext⟩ := bind_eq_ok.mp h
  obtain ⟨type, -, hwrites⟩ := bind_eq_ok.mp hwrites
  obtain ⟨landing, hlanding, hwrites⟩ := bind_eq_ok.mp hwrites
  obtain ⟨exchange, hexchange, hwrites⟩ := bind_eq_ok.mp hwrites
  cases hwrites
  exact ⟨type.name, landing, exchange, hlanding, hexchange, (Except.ok.inj hnext).symm⟩

namespace Candidate

variable {c : Candidate} {rules : RuleSet} {pos : Position} {landing writes : List Write}

/-- A jumped piece vanishes or, if it is an opponent's, changes sides. -/
theorem jumpedCode?_cases {code after : Int} (h : c.jumpedCode? code = some after) :
    code ≠ 0 ∧ (after = 0 ∨ (after = -code ∧ code.sign ≠ c.piece.sign)) := by
  unfold jumpedCode? at h
  cases hclass : Occupant.classify code c.piece with
  | empty =>
      rw [hclass] at h
      cases h
  | own =>
      rw [hclass] at h
      obtain ⟨-, hzero⟩ := Option.ite_none_right_eq_some.mp h
      exact ⟨(Occupant.classify_eq_own.mp hclass).1, .inl (Option.some.inj hzero).symm⟩
  | opponent =>
      rw [hclass] at h
      obtain ⟨hne, hsign⟩ := Occupant.classify_eq_opponent.mp hclass
      cases hjump : c.rule.jump.opponent <;> simp only [hjump] at h <;> cases h
      · exact ⟨hne, .inl rfl⟩
      · exact ⟨hne, .inr ⟨rfl, hsign⟩⟩

theorem of_mem_jumpWrites {w : Write} (hw : w ∈ c.jumpWrites pos) :
    w.square ∈ Square.between c.origin c.target ∧ pos.onBoard w.square = true ∧
      c.jumpedCode? (pos.read w.square) = some w.code := by
  obtain ⟨s, hs, hwrite⟩ := List.mem_filterMap.mp hw
  obtain ⟨hon, hwrite⟩ := Option.ite_none_right_eq_some.mp hwrite
  obtain ⟨code, hcode, rfl⟩ := Option.map_eq_some_iff.mp hwrite
  exact ⟨hs, hon, hcode⟩

theorem onBoard_of_mem_jumpWrites : ∀ w ∈ c.jumpWrites pos, pos.onBoard w.square = true :=
  fun _ hw => (of_mem_jumpWrites hw).2.1

/-- The ways to land on a target with a code, and what each writes. -/
inductive Landing (c : Candidate) (pos : Position) (code : Int) : List Write → Prop
  /-- The piece leaves its square, if it has one on the board, for the target. -/
  | moved : Landing c pos code (⟨c.target, c.piece⟩ :: c.departure pos)
  /-- The target was empty, and the piece is put there without leaving its square. -/
  | deployed (hcode : code = 0) (hland : c.rule.land.empty = .deploy) :
      Landing c pos code [⟨c.target, c.piece⟩]
  /-- The piece changes places with the one on the target. -/
  | swapped (hcode : code ≠ 0)
      (hland : c.rule.land.get (Occupant.classify code c.piece) = .swap)
      (hon : pos.onBoard c.origin = true) :
      Landing c pos code [⟨c.origin, code⟩, ⟨c.target, c.piece⟩]
  /-- Both pieces stay where they are. -/
  | stayed (hcode : code ≠ 0) : Landing c pos code []

theorem landing_of_landWrites {name : String} {code : Int}
    (h : c.landWrites pos name code = .ok landing) : c.Landing pos code landing := by
  unfold landWrites at h
  dsimp only at h
  have hoccupied {o : Occupant} (ho : Occupant.classify code c.piece = o) (hne : o ≠ .empty) :
      code ≠ 0 := fun hcode => hne (ho.symm.trans (Occupant.classify_eq_empty.mpr hcode))
  split at h
  case h_1 | h_5 | h_6 =>
    cases h
    exact .moved
  case h_2 hempty hland =>
    cases h
    rw [hempty] at hland
    exact .deployed (Occupant.classify_eq_empty.mp hempty) hland
  case h_3 hclass hland | h_4 hclass hland =>
    split at h
    next hon =>
      cases h
      exact .swapped (hoccupied hclass (by decide)) hland hon
    next => cases h
  case h_7 hclass _ | h_8 hclass _ =>
    cases h
    exact .stayed (hoccupied hclass (by decide))
  case h_9 => cases h

theorem Landing.square {code : Int} (h : c.Landing pos code landing) {w : Write}
    (hw : w ∈ landing) :
    w.square = c.target ∨ (w.square = c.origin ∧ pos.onBoard c.origin = true) := by
  cases h with
  | moved =>
      rcases List.mem_cons.mp hw with rfl | hw
      · exact .inl rfl
      · unfold departure at hw
        split at hw
        next hon => exact .inr ⟨congrArg Write.square (List.mem_singleton.mp hw), hon⟩
        next => cases hw
  | deployed => exact .inl (congrArg Write.square (List.mem_singleton.mp hw))
  | swapped _ _ hon =>
      rcases List.mem_cons.mp hw with rfl | hw
      · exact .inr ⟨rfl, hon⟩
      · exact .inl (congrArg Write.square (List.mem_singleton.mp hw))
  | stayed => cases hw

/-- What a landing writes is the piece, nothing, or both pieces in each other's place. -/
theorem Landing.codes {code : Int} (h : c.Landing pos code landing) :
    (∀ w ∈ landing, w.code = c.piece ∨ w.code = 0) ∨
      (pos.onBoard c.origin = true ∧
        c.rule.land.get (Occupant.classify code c.piece) = .swap ∧
        landing = [⟨c.origin, code⟩, ⟨c.target, c.piece⟩]) := by
  cases h with
  | moved =>
      unfold departure
      split <;> simp
  | deployed => simp
  | swapped _ hland hon => exact .inr ⟨hon, hland, rfl⟩
  | stayed => simp

theorem onBoard_of_mem_landing {code : Int} (htarget : pos.onBoard c.target = true)
    (h : c.Landing pos code landing) : ∀ w ∈ landing, pos.onBoard w.square = true := by
  intro w hw
  rcases h.square hw with hsquare | ⟨hsquare, hon⟩ <;> rw [hsquare]
  · exact htarget
  · exact hon

theorem square_of_mem_exchangeWrites {side : Side} {exchange : List Write}
    (h : c.exchangeWrites rules side = .ok exchange) : ∀ w ∈ exchange, w.square = c.target := by
  unfold exchangeWrites at h
  split at h
  · cases h
    exact fun _ hw => nomatch hw
  · obtain ⟨code, -, h⟩ := bind_eq_ok.mp h
    cases h
    exact fun _ hw => congrArg Write.square (List.mem_singleton.mp hw)

theorem onBoard_of_mem_parts {code : Int} {exchange : List Write}
    (htarget : pos.onBoard c.target = true) (hland : c.Landing pos code landing)
    (hexchange : ∀ w ∈ exchange, w.square = c.target) :
    ∀ w ∈ c.jumpWrites pos ++ landing ++ exchange, pos.onBoard w.square = true := by
  intro w hw
  rw [List.mem_append, List.mem_append] at hw
  rcases hw with (hw | hw) | hw
  · exact onBoard_of_mem_jumpWrites w hw
  · exact onBoard_of_mem_landing htarget hland w hw
  · rw [hexchange w hw]
    exact htarget

theorem onBoard_of_mem_writes (htarget : pos.onBoard c.target = true)
    (h : c.writes rules pos = .ok writes) : ∀ w ∈ writes, pos.onBoard w.square = true := by
  obtain ⟨type, -, h⟩ := bind_eq_ok.mp h
  obtain ⟨landing, hlanding, h⟩ := bind_eq_ok.mp h
  obtain ⟨exchange, hexchange, h⟩ := bind_eq_ok.mp h
  cases h
  exact onBoard_of_mem_parts htarget (landing_of_landWrites hlanding)
    (square_of_mem_exchangeWrites hexchange)

end Candidate

end BoardGame
