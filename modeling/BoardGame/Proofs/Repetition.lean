import BoardGame.Position
/-!
# What a position remembers

Each ply puts the hash of its board in the place of the oldest one, so that the history of
a position is a window on the boards that led to it: its own board and the fifteen before
it, as far as there are so many. Repetitions are therefore counted among these boards.
-/

namespace BoardGame.Position

variable {pos : Position} {boards : List Board} {i : Fin historyLength} {hash : UInt64}

/-! ## Slots -/

/-- What a slot of the history holds. -/
def entry (pos : Position) (i : Fin historyLength) : UInt64 := pos.history[i]

theorem slot_eq_iff {d e : Nat} : slot d = slot e ↔ d % historyLength = e % historyLength := by
  rw [slot, slot, Fin.mk.injEq]

theorem entry_ofBoard (size : Nat) (board : Board) (mover : Side) (last : LastMove)
    (depth : Nat) : (ofBoard size board mover last depth).entry i =
      if slot depth = i then board.hash else 0 := by
  simp only [entry, ofBoard, Fin.getElem_fin, Vector.getElem_set, Vector.getElem_replicate,
    Fin.val_inj]

section

variable (hdepth : pos.depth + 1 ≤ maxDepth) (board : Board) (mover : Side) (last : LastMove)

include hdepth

theorem depth_successor : (pos.successor board mover last).depth = pos.depth + 1 := by
  rw [successor_depth, Nat.min_eq_left hdepth]

theorem history_successor : (pos.successor board mover last).history =
    pos.history.set (slot (pos.depth + 1)) board.hash := by
  show pos.history.set (slot (min (pos.depth + 1) maxDepth)) board.hash = _
  simp only [Nat.min_eq_left hdepth]

theorem entry_successor : (pos.successor board mover last).entry i =
    if slot (pos.depth + 1) = i then board.hash else pos.entry i := by
  rw [entry, history_successor hdepth, Fin.getElem_fin, Vector.getElem_set]
  simp only [Fin.val_inj]
  rfl

theorem count_history_successor (hash : UInt64) :
    (pos.successor board mover last).history.count hash =
      (pos.history.count hash - if pos.entry (slot (pos.depth + 1)) = hash then 1 else 0) +
        if board.hash = hash then 1 else 0 := by
  rw [history_successor hdepth, Vector.count_set]
  simp only [beq_iff_eq]
  rfl

end

/-! ## The window -/

/-- The history consists of the hashes of the latest boards of a list, in which the latest
board comes first. -/
structure Remembers (pos : Position) (boards : List Board) : Prop where
  /-- There have not been more boards than depths. -/
  length_le : boards.length ≤ pos.depth + 1
  latest : ∀ j (hj : j < boards.length), j < historyLength →
    pos.entry (slot (pos.depth - j)) = boards[j].hash
  rest : ∀ i, (∀ j < boards.length, j < historyLength → slot (pos.depth - j) ≠ i) →
    pos.entry i = 0

theorem remembers_ofBoard (size : Nat) (board : Board) (mover : Side) (last : LastMove)
    (depth : Nat) : (ofBoard size board mover last depth).Remembers [board] where
  length_le := Nat.le_add_left 1 depth
  latest j hj _ := by
    obtain rfl : j = 0 := Nat.lt_one_iff.mp hj
    rw [entry_ofBoard]
    exact if_pos rfl
  rest i hi := by
    rw [entry_ofBoard]
    exact if_neg (hi 0 Nat.one_pos (by decide))

namespace Remembers

/-- What a ply writes over is the sixteenth latest board, if there have been so many. -/
theorem oldest (h : pos.Remembers boards) :
    pos.entry (slot (pos.depth + 1)) = (boards[15]?.map Board.hash).getD 0 := by
  have hlength := h.length_le
  by_cases hlong : 15 < boards.length
  · have hslot : slot (pos.depth + 1) = slot (pos.depth - 15) := by
      rw [slot_eq_iff, historyLength]
      omega
    rw [hslot, h.latest 15 hlong (by decide), List.getElem?_eq_getElem hlong]
    rfl
  · rw [List.getElem?_eq_none (by omega)]
    refine h.rest _ fun j hj hwindow => ?_
    rw [ne_eq, slot_eq_iff, historyLength]
    omega

theorem successor (h : pos.Remembers boards) (hdepth : pos.depth + 1 ≤ maxDepth) (board : Board)
    (mover : Side) (last : LastMove) :
    (pos.successor board mover last).Remembers (board :: boards) := by
  have hlength := h.length_le
  refine ⟨?_, fun j hj hwindow => ?_, fun i hi => ?_⟩
  · rw [depth_successor hdepth, List.length_cons]
    omega
  · rw [depth_successor hdepth, entry_successor hdepth]
    cases j with
    | zero => exact if_pos rfl
    | succ j =>
        rw [List.length_cons] at hj
        have hne : slot (pos.depth + 1) ≠ slot (pos.depth + 1 - (j + 1)) := by
          rw [ne_eq, slot_eq_iff]
          unfold historyLength at hwindow ⊢
          omega
        rw [if_neg hne, Nat.add_sub_add_right, h.latest j (by omega) (by omega)]
        rfl
  · rw [depth_successor hdepth] at hi
    have hne : slot (pos.depth + 1) ≠ i := hi 0 (by simp) (by decide)
    rw [entry_successor hdepth, if_neg hne]
    refine h.rest i fun j hj hwindow => ?_
    -- the board that leaves the window is the one that has been written over
    by_cases hleaves : j = 15
    · have hslot : slot (pos.depth - j) = slot (pos.depth + 1) := by
        rw [slot_eq_iff, historyLength]
        omega
      rwa [hslot]
    · have hstays : j + 1 < historyLength := by
        unfold historyLength at hwindow ⊢
        omega
      have hlater := hi (j + 1) (by simpa using hj) hstays
      rwa [Nat.add_sub_add_right] at hlater

theorem hash_eq {board : Board} (h : pos.Remembers (board :: boards)) : pos.hash = board.hash :=
  h.latest 0 (Nat.zero_lt_succ _) (by decide)

end Remembers

/-! ## Counting -/

/-- How many of the boards in the window have a hash. -/
def recent (boards : List Board) (hash : UInt64) : Nat :=
  (boards.take historyLength).countP (·.hash == hash)

theorem recent_cons (board : Board) (boards : List Board) (hash : UInt64) (hne : hash ≠ 0) :
    recent (board :: boards) hash =
      (recent boards hash - if (boards[15]?.map Board.hash).getD 0 = hash then 1 else 0) +
        if board.hash = hash then 1 else 0 := by
  have htake : boards.take historyLength = boards.take 15 ++ boards[15]?.toList := List.take_add_one
  have hcons : (board :: boards).take historyLength = board :: boards.take 15 := rfl
  rw [recent, recent, htake, hcons, List.countP_cons, List.countP_append]
  cases boards[15]? with
  | none => simp [hne.symm]
  | some old => simp [List.countP_cons]

/-- A hash other than that of an empty slot is counted once for each board. -/
theorem count_ofBoard (size : Nat) (board : Board) (mover : Side) (last : LastMove) (depth : Nat)
    (hne : hash ≠ 0) :
    (ofBoard size board mover last depth).history.count hash = recent [board] hash := by
  have hempty : ((0 : UInt64) == hash) = false := by simpa using hne.symm
  simp only [ofBoard, Vector.count_set, Vector.getElem_replicate, Vector.count_replicate, hempty]
  simp [recent, historyLength]

/-! ## Chains of positions -/

/-- What a ply puts in the place of what was there before. -/
structure Ply where
  board : Board
  mover : Side
  last : LastMove

/-- The position after some plies, the latest first. -/
def afterPlies (start : Position) : List Ply → Position
  | [] => start
  | ply :: earlier => (start.afterPlies earlier).successor ply.board ply.mover ply.last

/-- The boards of a chain, the latest first. -/
def boardsAfter (start : Position) (plies : List Ply) : List Board :=
  plies.map (·.board) ++ [start.board]

variable {start : Position} {plies : List Ply}

theorem depth_afterPlies (h : start.depth + plies.length ≤ maxDepth) :
    (start.afterPlies plies).depth = start.depth + plies.length := by
  induction plies with
  | nil => rfl
  | cons ply earlier ih =>
      rw [List.length_cons] at h ⊢
      have hearlier := ih (by omega)
      rw [afterPlies, depth_successor (by omega), hearlier, Nat.add_assoc]

theorem remembers_afterPlies (hstart : start.Remembers [start.board])
    (h : start.depth + plies.length ≤ maxDepth) :
    (start.afterPlies plies).Remembers (start.boardsAfter plies) := by
  induction plies with
  | nil => exact hstart
  | cons ply earlier ih =>
      rw [List.length_cons] at h
      have hdepth : (start.afterPlies earlier).depth = start.depth + earlier.length :=
        depth_afterPlies (by omega)
      exact (ih (by omega)).successor (by omega) ply.board ply.mover ply.last

theorem count_afterPlies (hstart : start.Remembers [start.board])
    (hcount : start.history.count hash = recent [start.board] hash) (hne : hash ≠ 0)
    (h : start.depth + plies.length ≤ maxDepth) :
    (start.afterPlies plies).history.count hash = recent (start.boardsAfter plies) hash := by
  induction plies with
  | nil => exact hcount
  | cons ply earlier ih =>
      rw [List.length_cons] at h
      have hdepth : (start.afterPlies earlier).depth = start.depth + earlier.length :=
        depth_afterPlies (by omega)
      have hbefore : (start.afterPlies earlier).Remembers (start.boardsAfter earlier) :=
        remembers_afterPlies hstart (by omega)
      rw [afterPlies, count_history_successor (by omega), ih (by omega), hbefore.oldest]
      exact (recent_cons ply.board _ hash hne).symm

/-- After any plies the history is a window on the boards of the chain: the board `j` plies
back is remembered in the slot of its depth, for the latest sixteen boards, and no other slot
is in use. So a position knows the hash of its board, and repetitions are the boards of the
window that have it. -/
theorem history_is_window (size : Nat) (board : Board) (mover : Side) (last : LastMove)
    (depth : Nat) (plies : List Ply) (h : depth + plies.length ≤ maxDepth) :
    let start := ofBoard size board mover last depth
    let pos := start.afterPlies plies
    let boards := start.boardsAfter plies
    (∀ j (hj : j < boards.length), j < historyLength →
      pos.history[slot (depth + plies.length - j)] = boards[j].hash) ∧
    (∀ i, (∀ j ≤ min plies.length (historyLength - 1), slot (depth + plies.length - j) ≠ i) →
      pos.history[i] = 0) ∧
    pos.hash = pos.board.hash ∧
    (pos.hash ≠ 0 →
      pos.repetitions = (boards.take historyLength).countP fun b => b.hash == pos.hash) := by
  intro start pos boards
  have hstart : start.Remembers [start.board] := remembers_ofBoard size board mover last depth
  have hremembers : pos.Remembers boards := remembers_afterPlies hstart h
  have hdepth : pos.depth = depth + plies.length := depth_afterPlies h
  have hlength : boards.length = plies.length + 1 := by simp [boards, boardsAfter]
  have hlatest := hremembers.latest
  have hrest := hremembers.rest
  rw [hdepth] at hlatest hrest
  refine ⟨hlatest, fun i hi => hrest i fun j hj hwindow => hi j ?_, ?_, fun hne => ?_⟩
  · omega
  · have hhead : boards = pos.board :: boards.tail := by
      cases plies <;> rfl
    rw [hhead] at hremembers
    exact hremembers.hash_eq
  · exact count_afterPlies hstart (count_ofBoard size board mover last depth hne) hne h

/-- A piece goes to and fro ten times, long after the start of the game. The sixteen boards
that are remembered are eight times each of two. -/
theorem history_is_window_toAndFro :
    let start := ofBoard 2 #[1, 0, 0, 0] .white .absent 65500
    let plies := (List.replicate 10 [(⟨#[1, 0, 0, 0], .white, ⟨1, ⟨1, 0⟩, ⟨0, 0⟩⟩⟩ : Ply),
      ⟨#[0, 1, 0, 0], .white, ⟨1, ⟨0, 0⟩, ⟨1, 0⟩⟩⟩]).flatten
    let pos := start.afterPlies plies
    65500 + plies.length ≤ maxDepth ∧ pos.hash = pos.board.hash ∧ pos.hash ≠ 0 ∧
      pos.repetitions = 8 := by
  intro start plies pos
  have hplies : 65500 + plies.length ≤ maxDepth := by decide
  have hne : pos.hash ≠ 0 := by decide +kernel
  have hcount : (((start.boardsAfter plies).take historyLength).countP fun b =>
      b.hash == pos.hash) = 8 := by
    decide +kernel
  obtain ⟨-, -, hhash, hrepetitions⟩ :=
    history_is_window 2 #[1, 0, 0, 0] .white .absent 65500 plies hplies
  exact ⟨hplies, hhash, hne, (hrepetitions hne).trans hcount⟩

end BoardGame.Position
