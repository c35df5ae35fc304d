import BoardGame.Chess.Fen
import BoardGame.Proofs.Chess.Agreement
import BoardGame.Proofs.Failure
import BoardGame.Proofs.Text.Reading
/-!
# Ranks and boards in records

A record writes kings and rooks that have not moved like any others. So a board is read
back from its text with each code in place and the castling rights taken away.
-/

namespace BoardGame.Chess.Fen

open Laws

variable {cells row : List Int} {code : Int} {board : Board} {c : Char} {empties : Nat}

/-! ## Characters -/

theorem isAlphanum_letter (hne : code ≠ 0) (hle : code.natAbs ≤ 8) :
    (letter code).isAlphanum = true := by
  obtain ⟨k, side, rfl⟩ := exists_kind hne hle
  cases k <;> cases side <;> rfl

theorem readCell_letter (hne : code ≠ 0) (hle : code.natAbs ≤ 8)
    (hlength : cells.length < boardSize) :
    readCell cells (letter code) = .ok (cells ++ [demote code]) := by
  have hletter : (letter code).isDigit = false ∧
      codeOfLetter? (letter code) = some (demote code) := by
    obtain ⟨k, side, rfl⟩ := exists_kind hne hle
    cases k <;> cases side <;> exact ⟨rfl, rfl⟩
  unfold readCell
  rw [hletter.1, hletter.2, if_neg Bool.false_ne_true]
  exact if_neg (Nat.not_le.mpr hlength)

theorem isAlphanum_of_mem_emptyText (h : c ∈ (emptyText empties).toList) :
    c.isAlphanum = true := by
  unfold emptyText at h
  split at h
  · cases h
  · rw [Char.isAlphanum, Text.isDigit_of_mem_toString h, Bool.or_true]

theorem foldlM_emptyText (hle : empties ≤ boardSize) (cells : List Int) :
    (emptyText empties).toList.foldlM readCell cells = .ok (cells ++ List.replicate empties 0) := by
  by_cases hzero : empties = 0
  · rw [hzero, List.replicate_zero, List.append_nil]
    rfl
  · have hdigit : ∀ k : Fin 9, (toString (k : Nat)).toList = [Char.ofNat ('0'.toNat + k)] ∧
        (Char.ofNat ('0'.toNat + k)).isDigit = true ∧
        (Char.ofNat ('0'.toNat + k)).toNat - '0'.toNat = k := by
      decide
    obtain ⟨htext, hisDigit, hvalue⟩ := hdigit ⟨empties, Nat.lt_succ_of_le hle⟩
    dsimp only at htext hisDigit hvalue
    have hread : readCell cells (Char.ofNat ('0'.toNat + empties)) =
        .ok (cells ++ List.replicate empties 0) := by
      unfold readCell
      rw [if_pos hisDigit, hvalue]
    rw [emptyText, if_neg hzero, htext, List.foldlM_cons, hread]
    rfl

/-! ## Ranks -/

theorem toList_rankText_cons (empties : Nat) (code : Int) (rest : List Int) :
    (rankText empties (code :: rest)).toList =
      if code = 0 then (rankText (empties + 1) rest).toList
      else (emptyText empties).toList ++ letter code :: (rankText 0 rest).toList := by
  rw [rankText]
  by_cases hzero : code = 0
  · rw [if_pos hzero, if_pos hzero]
  · rw [if_neg hzero, if_neg hzero, String.toList_append, String.toList_append,
      String.toList_singleton, List.append_assoc, List.singleton_append]

theorem isAlphanum_of_mem_rankText (hcodes : ∀ code ∈ row, code.natAbs ≤ 8)
    (h : c ∈ (rankText empties row).toList) : c.isAlphanum = true := by
  induction row generalizing empties with
  | nil => exact isAlphanum_of_mem_emptyText h
  | cons code rest ih =>
      obtain ⟨hcode, hrest⟩ := List.forall_mem_cons.mp hcodes
      rw [toList_rankText_cons] at h
      by_cases hzero : code = 0
      · rw [if_pos hzero] at h
        exact ih hrest h
      · rw [if_neg hzero, List.mem_append, List.mem_cons] at h
        rcases h with h | rfl | h
        · exact isAlphanum_of_mem_emptyText h
        · exact isAlphanum_letter hzero hcode
        · exact ih hrest h

/-- A rank is read from the cells that were read before it, counting empty cells, on. -/
theorem foldlM_rankText (hlength : cells.length + empties + row.length ≤ boardSize)
    (hcodes : ∀ code ∈ row, code.natAbs ≤ 8) :
    (rankText empties row).toList.foldlM readCell cells =
      .ok (cells ++ List.replicate empties 0 ++ row.map demote) := by
  induction row generalizing cells empties with
  | nil =>
      rw [rankText, foldlM_emptyText (by omega), List.map_nil, List.append_nil]
  | cons code rest ih =>
      obtain ⟨hcode, hrest⟩ := List.forall_mem_cons.mp hcodes
      rw [List.length_cons] at hlength
      rw [toList_rankText_cons, List.map_cons]
      by_cases hzero : code = 0
      · rw [if_pos hzero, ih (by omega) hrest, hzero, demote_zero, List.replicate_succ']
        simp only [List.append_assoc, List.singleton_append]
      · have hbefore : (cells ++ List.replicate empties 0).length = cells.length + empties := by
          rw [List.length_append, List.length_replicate]
        rw [if_neg hzero, List.foldlM_append, foldlM_emptyText (by omega)]
        show (List.foldlM readCell (cells ++ List.replicate empties 0)
          (letter code :: (rankText 0 rest).toList) : Except FenFault (List Int)) = _
        rw [List.foldlM_cons, readCell_letter hzero hcode (by omega)]
        show (List.foldlM readCell (cells ++ List.replicate empties 0 ++ [demote code])
          (rankText 0 rest).toList : Except FenFault (List Int)) = _
        rw [ih (by rw [List.length_append, hbefore]; simp only [List.length_singleton]; omega)
          hrest]
        simp only [List.replicate_zero, List.append_nil, List.append_assoc, List.singleton_append]

theorem readRank_rankText (hlength : row.length = boardSize)
    (hcodes : ∀ code ∈ row, code.natAbs ≤ 8) :
    readRank (rankText 0 row).toList = .ok (row.map demote) := by
  have hcells : (rankText 0 row).toList.foldlM readCell [] =
      .ok ([] ++ List.replicate 0 0 ++ row.map demote) :=
    foldlM_rankText (by simp [hlength]) hcodes
  rw [readRank, hcells]
  exact if_pos ((List.length_map _).trans hlength)

/-! ## Boards -/

/-- The codes of a rank, from the left. -/
def rankCodes (board : Board) (y : Nat) : List Int :=
  (List.range boardSize).map fun (x : Nat) => look board ⟨x, y⟩

theorem natAbs_le_of_mem_rankCodes (h : Valid board) {y : Nat} :
    ∀ code ∈ rankCodes board y, code.natAbs ≤ 8 := by
  intro code hcode
  obtain ⟨x, -, rfl⟩ := List.mem_map.mp hcode
  exact h.code_le _

theorem toList_boardText (board : Board) :
    (boardText board).toList = ['/'].intercalate
      ((List.range boardSize).reverse.map fun y => (rankText 0 (rankCodes board y)).toList) := by
  unfold boardText
  rw [String.toList_intercalate, List.map_map]
  rfl

theorem not_mem_rankText (h : Valid board) {y : Nat} :
    '/' ∉ (rankText 0 (rankCodes board y)).toList := by
  intro hmem
  have hslash := isAlphanum_of_mem_rankText (natAbs_le_of_mem_rankCodes h) hmem
  revert hslash
  decide

theorem flatten_rows {α : Type} (n m : Nat) (hn : 0 < n) (f : Nat → Nat → α) :
    ((List.range m).map fun y => (List.range n).map fun x => f x y).flatten =
      (List.range (m * n)).map fun i => f (i % n) (i / n) := by
  induction m with
  | zero => simp
  | succ m ih =>
      have hrow : ∀ x ∈ List.range n, f ((m * n + x) % n) ((m * n + x) / n) = f x m := by
        intro x hx
        have hlt := List.mem_range.mp hx
        rw [Nat.mul_add_mod_self_right, Nat.mod_eq_of_lt hlt, Nat.mul_comm, Nat.mul_add_div hn,
          Nat.div_eq_of_lt hlt, Nat.add_zero]
      rw [List.range_succ, List.map_append, List.flatten_append, ih, Nat.succ_mul,
        List.range_add, List.map_append, List.map_map]
      congr 1
      simp only [List.map_cons, List.map_nil, List.flatten_cons, List.flatten_nil,
        List.append_nil]
      exact (List.map_congr_left hrow).symm

theorem flatten_toArray_eq_ofSquares {n : Nat} (hn : 0 < n) (f : Square → Int) :
    ((List.range n).map fun (y : Nat) => (List.range n).map fun (x : Nat) =>
      f ⟨x, y⟩).flatten.toArray = Board.ofSquares n f := by
  rw [flatten_rows n n hn fun x y => f ⟨x, y⟩]
  apply Array.ext
  · simp
  · intro i hi hi'
    simp [Board.ofSquares, Square.ofCell]

/-- The board without its castling rights. -/
def plainBoard (board : Board) : Board :=
  Board.ofSquares boardSize fun s => demote (look board s)

theorem readBoard_boardText (h : Valid board) :
    readBoard (boardText board) = .ok (plainBoard board) := by
  have hranks : (boardText board).toList.splitOn '/' =
      (List.range boardSize).reverse.map fun y => (rankText 0 (rankCodes board y)).toList := by
    rw [toList_boardText]
    apply List.splitOn_intercalate
    · intro rank hrank
      obtain ⟨y, -, rfl⟩ := List.mem_map.mp hrank
      exact not_mem_rankText h
    · exact List.map_eq_nil_iff.not.mpr (by decide)
  have hread : ((List.range boardSize).map fun y =>
      (rankText 0 (rankCodes board y)).toList).mapM readRank =
      .ok ((List.range boardSize).map fun y => (rankCodes board y).map demote) := by
    rw [List.mapM_map]
    exact mapM_eq_ok fun y _ =>
      readRank_rankText (by simp [rankCodes]) (natAbs_le_of_mem_rankCodes h)
  have hcells : ((List.range boardSize).map fun y =>
      (rankCodes board y).map demote).flatten.toArray = plainBoard board := by
    rw [plainBoard, ← flatten_toArray_eq_ofSquares (by decide)]
    simp only [rankCodes, List.map_map]
    rfl
  unfold readBoard
  dsimp only
  rw [hranks, if_neg (by simp), ← List.map_reverse, List.reverse_reverse, hread, ← hcells]
  rfl

theorem isWord_boardText (h : Valid board) : Text.IsWord (boardText board).toList where
  ne_nil := by
    rw [toList_boardText]
    show ['/'].intercalate (_ :: _ :: _) ≠ []
    rw [List.intercalate_cons_cons]
    simp
  not_blank c hc := by
    rw [toList_boardText] at hc
    rcases Text.of_mem_intercalate hc with hslash | ⟨rank, hrank, hmem⟩
    · rw [List.mem_singleton.mp hslash]
      decide
    · obtain ⟨y, -, rfl⟩ := List.mem_map.mp hrank
      exact Text.isBlank_eq_false_of_isAlphanum
        (isAlphanum_of_mem_rankText (natAbs_le_of_mem_rankCodes h) hmem)

/-! ## What is read -/

theorem natAbs_le_of_codeOfLetter? (h : codeOfLetter? c = some code) : code.natAbs ≤ 6 := by
  unfold codeOfLetter? at h
  cases hfound : Kind.all.find? (·.letter == c.toUpper) with
  | none =>
      rw [hfound] at h
      cases h
  | some kind =>
      have hletter : kind.letter = c.toUpper := by simpa using List.find?_some hfound
      have hkind : kind.code.natAbs ≤ 6 := by
        rw [← hletter] at hfound
        revert hfound
        cases kind <;> decide
      rw [hfound] at h
      dsimp only at h
      split at h <;> cases h
      · exact hkind
      · rw [Int.natAbs_neg]
        exact hkind

theorem of_readCell {read : List Int} (h : readCell cells c = .ok read)
    (hcells : ∀ code ∈ cells, code.natAbs ≤ 6) : ∀ code ∈ read, code.natAbs ≤ 6 := by
  intro code hcode
  unfold readCell at h
  by_cases hdigit : c.isDigit = true
  · rw [if_pos hdigit] at h
    cases h
    rcases List.mem_append.mp hcode with hmem | hmem
    · exact hcells code hmem
    · rw [List.eq_of_mem_replicate hmem]
      decide
  · rw [if_neg hdigit] at h
    cases hletter : codeOfLetter? c with
    | none =>
        rw [hletter] at h
        cases h
    | some read =>
        rw [hletter] at h
        dsimp only at h
        split at h <;> cases h
        rcases List.mem_append.mp hcode with hmem | hmem
        · exact hcells code hmem
        · rw [List.mem_singleton.mp hmem]
          exact natAbs_le_of_codeOfLetter? hletter

theorem of_readRank {rank : List Char} (h : readRank rank = .ok cells) :
    cells.length = boardSize ∧ ∀ code ∈ cells, code.natAbs ≤ 6 := by
  obtain ⟨read, hread, h⟩ := bind_eq_ok.mp h
  let Plain (cells : List Int) : Prop := ∀ code ∈ cells, code.natAbs ≤ 6
  have hplain : Plain read :=
    foldlM_keeps (fun _ _ _ _ hcells hc => of_readCell hc hcells)
      (show Plain [] from by simp [Plain]) hread
  by_cases hlength : read.length = boardSize
  · rw [if_pos hlength] at h
    cases h
    exact ⟨hlength, hplain⟩
  · rw [if_neg hlength] at h
    cases h

theorem of_readBoard {placement : String} (h : readBoard placement = .ok board) :
    Valid board ∧ ∀ s, (look board s).natAbs ≤ 6 := by
  unfold readBoard at h
  obtain ⟨hcount, h⟩ := of_check h
  obtain ⟨rows, hrows, h⟩ := bind_eq_ok.mp h
  cases h
  have hrow : ∀ row ∈ rows, row.length = boardSize ∧ ∀ code ∈ row, code.natAbs ≤ 6 := by
    intro row hrow
    obtain ⟨rank, -, hread⟩ := exists_mem_of_mapM_eq_ok hrows hrow
    exact of_readRank hread
  have hlengths : rows.map List.length = List.replicate boardSize boardSize := by
    rw [List.eq_replicate_iff, List.length_map, ← (mapM_eq_ok_iff.mp hrows).length_eq,
      List.length_reverse]
    refine ⟨Decidable.not_not.mp hcount, fun n hn => ?_⟩
    obtain ⟨row, hmem, rfl⟩ := List.mem_map.mp hn
    exact (hrow row hmem).1
  have hplain : ∀ s, (look rows.flatten.toArray s).natAbs ≤ 6 := by
    intro s
    by_cases hzero : look rows.flatten.toArray s = 0
    · rw [hzero]
      decide
    · rw [look_eq_read (onBoard_of_look_ne_zero hzero), Board.read]
      cases hcell : rows.flatten.toArray[s.index boardSize]? with
      | none => decide
      | some code =>
          obtain ⟨row, hmem, hcode⟩ := List.mem_flatten.mp
            (List.mem_toArray.mp (Array.mem_of_getElem? hcell))
          exact (hrow row hmem).2 code hcode
  refine ⟨⟨?_, fun s => Nat.le_trans (hplain s) (by decide)⟩, hplain⟩
  rw [List.size_toArray, List.length_flatten, hlengths]
  rfl

end BoardGame.Chess.Fen
