import BoardGame.Encoding.Record
import BoardGame.Proofs.Encoding.Policy
/-!
# Frames and what is learnt from

The frames act as one group on all that an evaluator sees of a position and on the policies that
it is trained with. So it is all one whether a position is turned before it is observed, or in
two steps, and a turned policy gives each move the share that it had.
-/

namespace BoardGame

open RuleSet

variable {rules : RuleSet} {f g : Frame} {p q : Position} {legal : List Nat}

/-! ## Observations -/

theorem Observation.ofPosition_mul (hvalid : rules.Valid) (hsize : p.size = rules.boardSize)
    (hcells : p.board.size = rules.area) (hlegal : ∀ i ∈ legal, i < rules.policySize)
    (hshows : f.Shows p q) :
    ofPosition rules q (legal.map (rules.flipIndex f)) g = ofPosition rules p legal (f * g) := by
  have hn : p.size < 0x80000000 := hsize ▸ hvalid.boardSize_lt
  have hboard : p.board.size = p.size * p.size := hcells.trans (hsize ▸ rfl)
  have hindices : (legal.map (rules.flipIndex f)).map (rules.flipIndex g) =
      legal.map (rules.flipIndex (g * f)) := by
    rw [List.map_map]
    apply List.map_congr_left
    intro i hi
    exact (flipIndex_mul hvalid g f (hlegal i hi)).symm
  rw [mul_comm f g]
  unfold ofPosition
  rw [hshows.board, hshows.size, hshows.mover, hindices, Frame.board_mul hn hboard,
    Frame.side_mul]

/-! ## Policies -/

namespace TrainingInstance

/-- The policies that are filled in two frames agree on all places. -/
def Agree (rules : RuleSet) (f : Frame) (a b : Array Float32) : Prop :=
  a.size = rules.policySize ∧ b.size = rules.policySize ∧
    ∀ i < rules.policySize, a[rules.flipIndex f i]? = b[i]?

theorem agree_replicate (hvalid : rules.Valid) (f : Frame) :
    Agree rules f (Array.replicate rules.policySize 0) (Array.replicate rules.policySize 0) := by
  refine ⟨Array.size_replicate, Array.size_replicate, fun i hi => ?_⟩
  rw [Array.getElem?_replicate, Array.getElem?_replicate, if_pos (flipIndex_lt hvalid f hi),
    if_pos hi]

/-- One more share, whether or not its place has been filled before. -/
theorem Agree.set (hvalid : rules.Valid) {a b : Array Float32} (h : Agree rules f a b) {j : Nat}
    (hj : j < rules.policySize) (share : Float32) :
    Agree rules f (a.setIfInBounds (rules.flipIndex f j) share) (b.setIfInBounds j share) := by
  obtain ⟨ha, hb, hget⟩ := h
  refine ⟨Array.size_setIfInBounds.trans ha, Array.size_setIfInBounds.trans hb, fun i hi => ?_⟩
  rw [Array.getElem?_setIfInBounds, Array.getElem?_setIfInBounds, ha, hb]
  by_cases heq : j = i
  · subst heq
    rw [if_pos rfl, if_pos rfl, if_pos (flipIndex_lt hvalid f hj), if_pos hj]
  · have hne : rules.flipIndex f j ≠ rules.flipIndex f i :=
      fun hsame => heq ((bijOn_flipIndex hvalid f).injOn hj hi hsame)
    rw [if_neg hne, if_neg heq]
    exact hget i hi

theorem Agree.foldl (hvalid : rules.Valid) {shares : List MoveShare}
    (hshares : ∀ s ∈ shares, s.index < rules.policySize) {a b : Array Float32}
    (h : Agree rules f a b) :
    Agree rules f
      (shares.foldl (fun p s => p.setIfInBounds (rules.flipIndex f s.index) s.share) a)
      (shares.foldl (fun p s => p.setIfInBounds (rules.flipIndex 1 s.index) s.share) b) := by
  induction shares generalizing a b with
  | nil => exact h
  | cons s rest ih =>
      obtain ⟨hs, hrest⟩ := List.forall_mem_cons.mp hshares
      rw [List.foldl_cons, List.foldl_cons, flipIndex_one hvalid hs]
      exact ih hrest (h.set hvalid hs s.share)

end TrainingInstance

/-- The frames are one group to whoever learns the game. A position that is turned, with its
legal moves, and observed in a frame looks as the position itself does in the product of the two
frames; and the policy of a training instance gives the turned index of a move, in any frame,
the share that it gives the move itself. -/
theorem frames_act_as_group (h : rules.validate = .ok ()) (f g : Frame) :
    (∀ (p q : Position) (legal : List Nat), p.size = rules.boardSize →
      p.board.size = rules.area → (∀ i ∈ legal, i < rules.policySize) → f.Shows p q →
      Observation.ofPosition rules q (legal.map (rules.flipIndex f)) g =
        Observation.ofPosition rules p legal (f * g)) ∧
    ∀ t : TrainingInstance, (∀ s ∈ t.shares, s.index < rules.policySize) →
      ∀ i < rules.policySize, ∃ share, (t.policy rules f)[rules.flipIndex f i]? = some share ∧
        (t.policy rules .identity)[i]? = some share := by
  have hvalid := valid_of_validate h
  refine ⟨fun p q legal hsize hcells hlegal hshows =>
    Observation.ofPosition_mul hvalid hsize hcells hlegal hshows, fun t hshares i hi => ?_⟩
  obtain ⟨-, hfilled, hget⟩ :=
    (TrainingInstance.agree_replicate hvalid f).foldl hvalid hshares
  have hlt : i < (t.policy rules .identity).size := hfilled.symm ▸ hi
  exact ⟨_, (hget i hi).trans (Array.getElem?_eq_getElem hlt), Array.getElem?_eq_getElem hlt⟩

/-- White has a corner and black the square next to it. -/
def cornerTaken : Position :=
  Position.ofBoard 3 #[1, -1, 0, 0, 0, 0, 0, 0, 0] .white .absent 2

/-- The same with the columns turned, for the other side. -/
def cornerTakenTurned : Position :=
  Position.ofBoard 3 (Frame.board ⟨true, true⟩ 3 cornerTaken.board) .black .absent 2

/-- Two shares for one move: the later one counts. -/
def sharedTwice : TrainingInstance where
  board := cornerTaken.board
  mover := .white
  gameLength := 9
  result := 0
  shares := [⟨2, 0.5⟩, ⟨4, 0.25⟩, ⟨2, 0.75⟩]

theorem frames_act_as_group_cornerTaken :
    let rules := BuiltIn.ticTacToe
    let f : Frame := ⟨true, true⟩
    let g : Frame := ⟨true, false⟩
    let legal := [2, 3, 4, 5, 6, 7, 8]
    rules.validate = .ok () ∧ cornerTaken.board.size = rules.area ∧
      (∀ i ∈ legal, i < rules.policySize) ∧ f.Shows cornerTaken cornerTakenTurned ∧
      (∀ s ∈ sharedTwice.shares, s.index < rules.policySize) ∧
      Observation.ofPosition rules cornerTakenTurned (legal.map (rules.flipIndex f)) g =
        Observation.ofPosition rules cornerTaken legal ⟨false, true⟩ ∧
      rules.flipIndex f 2 = 6 ∧ (sharedTwice.policy rules f)[6]? = some (0.75 : Float32) := by
  intro rules f g legal
  have hvalid : rules.validate = .ok () := rfl
  have hlegal : ∀ i ∈ legal, i < rules.policySize := by decide
  have hshows : f.Shows cornerTaken cornerTakenTurned := ⟨rfl, rfl, rfl⟩
  have hshares : ∀ s ∈ sharedTwice.shares, s.index < rules.policySize := by
    intro s hs
    simp only [sharedTwice, List.mem_cons, List.not_mem_nil, or_false] at hs
    rcases hs with rfl | rfl | rfl <;> decide
  obtain ⟨hobserved, hpolicy⟩ := frames_act_as_group hvalid f g
  obtain ⟨share, hturned, hplain⟩ := hpolicy sharedTwice hshares 2 (by decide)
  have hflip : rules.flipIndex f 2 = 6 := by decide
  have hshare : (sharedTwice.policy rules .identity)[2]? = some (0.75 : Float32) := by
    have htwo : BuiltIn.ticTacToe.flipIndex .identity 2 = 2 := by decide
    have hfour : BuiltIn.ticTacToe.flipIndex .identity 4 = 4 := by decide
    have hsize : BuiltIn.ticTacToe.policySize = 9 := by decide
    simp [TrainingInstance.policy, sharedTwice, rules, htwo, hfour, hsize]
  rw [hflip, ← hplain, hshare] at hturned
  exact ⟨hvalid, rfl, hlegal, hshows, hshares,
    hobserved cornerTaken cornerTakenTurned legal rfl rfl hlegal hshows, hflip, hturned⟩

end BoardGame
