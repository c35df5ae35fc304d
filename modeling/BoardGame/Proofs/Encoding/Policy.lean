import Mathlib.Data.Set.Function
import Mathlib.Data.Set.Prod
import Mathlib.Order.Interval.Set.Basic
import BoardGame.BuiltIn
import BoardGame.Proofs.Encoding.Group
import BoardGame.Proofs.Encoding.Observation
/-!
# Places in the policy

A policy has one place for each move: the places are counted off by what a move is told by, its
two squares where pieces on the board move, and the kind of piece and the target where pieces
are dropped. A frame exchanges places, and it does so as it turns the moves.
-/

namespace BoardGame.RuleSet

variable {rules : RuleSet} {f g : Frame} {m : LastMove} {i : Nat}

/-- The squares of the board. -/
def squares (rules : RuleSet) : Set Square :=
  {s | s.onBoard rules.boardSize = true}

/-- The piece codes that are in use, without their signs. -/
def codes (rules : RuleSet) : Set Int :=
  {code | 1 ≤ code ∧ code ≤ rules.pieces.length}

/-- The indices of a policy. -/
def places (rules : RuleSet) : Set Nat :=
  Set.Iio rules.policySize

/-! ## Moves and indices -/

theorem sourceOf_board (h : rules.moveSource = .piecesOnBoard) (m : LastMove) :
    rules.sourceOf m = m.origin.index rules.boardSize := by
  unfold sourceOf
  rw [h]

theorem sourceOf_ends (h : rules.moveSource = .ends) (m : LastMove) :
    rules.sourceOf m = m.piece.natAbs - 1 := by
  unfold sourceOf
  rw [h]

theorem index_parts (h : i < rules.policySize) :
    i / rules.area < rules.sources ∧ i % rules.area < rules.area := by
  have hlt : i < rules.area * rules.sources := Nat.mul_comm _ _ ▸ h
  have harea : 0 < rules.area := Nat.pos_of_ne_zero fun h0 => by simp [h0] at hlt
  exact ⟨Nat.div_lt_of_lt_mul hlt, Nat.mod_lt i harea⟩

theorem index_ofIndex (hvalid : rules.Valid) {cell : Nat} (h : cell < rules.area) :
    Square.ofIndex rules.boardSize cell ∈ rules.squares ∧
      (Square.ofIndex rules.boardSize cell).index rules.boardSize = cell := by
  rw [Square.ofIndex_eq_ofCell hvalid.boardSize_lt h]
  exact ⟨Square.onBoard_ofCell h, Square.index_ofCell h⟩

/-- The piece that a dropped move is looked up with has white's code. -/
theorem piece_moveAt (hvalid : rules.Valid) (hends : rules.moveSource = .ends)
    (h : i < rules.policySize) :
    (rules.moveAt i).piece = (i / rules.area + 1 : Nat) ∧
      i / rules.area < rules.pieces.length := by
  have hsource := (index_parts h).1
  unfold sources at hsource
  rw [hends] at hsource
  have hcode : pieceCode (i / rules.area) = (i / rules.area + 1 : Nat) :=
    pieceCode_eq (Nat.lt_of_lt_of_le hsource hvalid.pieces_le)
  refine ⟨?_, hsource⟩
  unfold moveAt
  rw [hends]
  dsimp only
  exact hcode

/-- The move at an index has an index, which is made of the same source and target. -/
theorem moveAt_parts (hvalid : rules.Valid) (h : i < rules.policySize) :
    rules.Indexed (rules.moveAt i) ∧ rules.sourceOf (rules.moveAt i) = i / rules.area ∧
      (rules.moveAt i).target.index rules.boardSize = i % rules.area := by
  obtain ⟨hsource, htarget⟩ := index_parts h
  have hlook : (rules.moveAt i).target = Square.ofIndex rules.boardSize (i % rules.area) := by
    unfold moveAt
    cases rules.moveSource <;> rfl
  obtain ⟨hon, hcell⟩ := hlook ▸ index_ofIndex hvalid htarget
  cases hwhere : rules.moveSource with
  | piecesOnBoard =>
      have hlook' : (rules.moveAt i).origin = Square.ofIndex rules.boardSize (i / rules.area) := by
        unfold moveAt
        rw [hwhere]
      unfold sources at hsource
      rw [hwhere] at hsource
      obtain ⟨hon', hcell'⟩ := hlook' ▸ index_ofIndex hvalid hsource
      exact ⟨⟨hon, by rw [hwhere]; exact hon'⟩, (sourceOf_board hwhere _).trans hcell', hcell⟩
  | ends =>
      obtain ⟨hpiece, hlt⟩ := piece_moveAt hvalid hwhere h
      have habs : (rules.moveAt i).piece.natAbs = i / rules.area + 1 := by
        rw [hpiece, Int.natAbs_natCast]
      refine ⟨⟨hon, ?_⟩, ?_, hcell⟩
      · rw [hwhere]
        dsimp only
        rw [habs]
        exact ⟨Nat.succ_pos _, hlt⟩
      · rw [sourceOf_ends hwhere, habs, Nat.add_sub_cancel]

theorem indexed_moveAt (hvalid : rules.Valid) (h : i < rules.policySize) :
    rules.Indexed (rules.moveAt i) :=
  (moveAt_parts hvalid h).1

theorem moveIndex_moveAt (hvalid : rules.Valid) (h : i < rules.policySize) :
    rules.moveIndex (rules.moveAt i) = i := by
  obtain ⟨-, hsource, htarget⟩ := moveAt_parts hvalid h
  unfold moveIndex
  rw [hsource, htarget]
  exact Nat.div_add_mod' i rules.area

/-- Where pieces on the board move, the squares of a move and its place tell each other. -/
theorem bijOn_squares (hvalid : rules.Valid) (hboard : rules.moveSource = .piecesOnBoard)
    (piece : Int) :
    let index : Square × Square → Nat := fun m => rules.moveIndex ⟨piece, m.1, m.2⟩
    let move : Nat → Square × Square := fun i => ((rules.moveAt i).origin, (rules.moveAt i).target)
    Set.BijOn index (rules.squares ×ˢ rules.squares) rules.places ∧
      Set.InvOn move index (rules.squares ×ˢ rules.squares) rules.places := by
  intro index move
  have hindexed (s t : Square) (hs : s ∈ rules.squares) (ht : t ∈ rules.squares) :
      rules.Indexed ⟨piece, s, t⟩ := ⟨ht, by rw [hboard]; exact hs⟩
  have hsame (i : Nat) : index (move i) = rules.moveIndex (rules.moveAt i) := by
    show rules.sourceOf _ * _ + _ = rules.sourceOf _ * _ + _
    rw [sourceOf_board hboard, sourceOf_board hboard]
  have hinv : Set.InvOn move index (rules.squares ×ˢ rules.squares) rules.places := by
    refine ⟨?_, fun i hi => (hsame i).trans (moveIndex_moveAt hvalid hi)⟩
    rintro ⟨s, t⟩ ⟨hs, ht⟩
    have hmove := moveAt_moveIndex hvalid.boardSize_lt hvalid.pieces_le (hindexed s t hs ht)
    rw [hboard] at hmove
    exact congrArg (fun m => (m.origin, m.target)) hmove
  refine ⟨hinv.bijOn ?_ ?_, hinv⟩
  · rintro ⟨s, t⟩ ⟨hs, ht⟩
    exact (hindexed s t hs ht).moveIndex_lt
  · intro i hi
    obtain ⟨htarget, hsource⟩ := indexed_moveAt hvalid hi
    rw [hboard] at hsource
    exact ⟨hsource, htarget⟩

theorem bijOn_codes (hvalid : rules.Valid) (hends : rules.moveSource = .ends) (origin : Square) :
    let index : Int × Square → Nat := fun m => rules.moveIndex ⟨m.1, origin, m.2⟩
    let move : Nat → Int × Square := fun i => ((rules.moveAt i).piece, (rules.moveAt i).target)
    Set.BijOn index (rules.codes ×ˢ rules.squares) rules.places ∧
      Set.InvOn move index (rules.codes ×ˢ rules.squares) rules.places := by
  intro index move
  have hindexed (code : Int) (t : Square) (hcode : code ∈ rules.codes) (ht : t ∈ rules.squares) :
      rules.Indexed ⟨code, origin, t⟩ := by
    obtain ⟨hpos, hle⟩ := hcode
    exact ⟨ht, by rw [hends]; dsimp only; omega⟩
  have hsame (i : Nat) : index (move i) = rules.moveIndex (rules.moveAt i) := by
    show rules.sourceOf _ * _ + _ = rules.sourceOf _ * _ + _
    rw [sourceOf_ends hends, sourceOf_ends hends]
  have hinv : Set.InvOn move index (rules.codes ×ˢ rules.squares) rules.places := by
    refine ⟨?_, fun i hi => (hsame i).trans (moveIndex_moveAt hvalid hi)⟩
    rintro ⟨code, t⟩ ⟨hcode, ht⟩
    have hmove := moveAt_moveIndex hvalid.boardSize_lt hvalid.pieces_le (hindexed code t hcode ht)
    have hpos : 1 ≤ code := hcode.1
    have habs : (code.natAbs : Int) = code := Int.natAbs_of_nonneg (by omega)
    rw [hends] at hmove
    dsimp only at hmove
    rw [habs] at hmove
    exact congrArg (fun m => (m.piece, m.target)) hmove
  refine ⟨hinv.bijOn ?_ ?_, hinv⟩
  · rintro ⟨code, t⟩ ⟨hcode, ht⟩
    exact (hindexed code t hcode ht).moveIndex_lt
  · intro i hi
    obtain ⟨hpiece, hlt⟩ := piece_moveAt hvalid hends hi
    refine ⟨?_, (indexed_moveAt hvalid hi).target⟩
    show (rules.moveAt i).piece ∈ rules.codes
    rw [hpiece]
    exact ⟨Int.ofNat_le.mpr (Nat.succ_pos _), Int.ofNat_le.mpr hlt⟩

/-! ## Places in a frame -/

theorem flipIndex_eq (hvalid : rules.Valid) (f : Frame) (h : i < rules.policySize) :
    rules.flipIndex f i = rules.moveIndex (f.move rules.boardSize (rules.moveAt i)) := by
  rw [← flipIndex_moveIndex hvalid.boardSize_lt hvalid.pieces_le (indexed_moveAt hvalid h),
    moveIndex_moveAt hvalid h]

theorem flipIndex_lt (hvalid : rules.Valid) (f : Frame) (h : i < rules.policySize) :
    rules.flipIndex f i < rules.policySize := by
  rw [flipIndex_eq hvalid f h]
  exact ((indexed_moveAt hvalid h).move hvalid.boardSize_lt f).moveIndex_lt

theorem flipIndex_one (hvalid : rules.Valid) (h : i < rules.policySize) :
    rules.flipIndex 1 i = i := by
  rw [flipIndex_eq hvalid 1 h, Frame.move_one, moveIndex_moveAt hvalid h]

theorem flipIndex_mul (hvalid : rules.Valid) (f g : Frame) (h : i < rules.policySize) :
    rules.flipIndex (f * g) i = rules.flipIndex f (rules.flipIndex g i) := by
  have hturned := (indexed_moveAt hvalid h).move hvalid.boardSize_lt g
  calc rules.flipIndex (f * g) i
      = rules.moveIndex ((f * g).move rules.boardSize (rules.moveAt i)) :=
        flipIndex_eq hvalid (f * g) h
    _ = rules.moveIndex (f.move rules.boardSize (g.move rules.boardSize (rules.moveAt i))) := by
        rw [Frame.move_mul]
    _ = rules.flipIndex f (rules.moveIndex (g.move rules.boardSize (rules.moveAt i))) :=
        (flipIndex_moveIndex hvalid.boardSize_lt hvalid.pieces_le hturned).symm
    _ = rules.flipIndex f (rules.flipIndex g i) := by rw [flipIndex_eq hvalid g h]

theorem flipIndex_flipIndex (hvalid : rules.Valid) (f : Frame) (h : i < rules.policySize) :
    rules.flipIndex f (rules.flipIndex f i) = i := by
  rw [← flipIndex_mul hvalid f f h, Frame.mul_self, flipIndex_one hvalid h]

theorem bijOn_flipIndex (hvalid : rules.Valid) (f : Frame) :
    Set.BijOn (rules.flipIndex f) rules.places rules.places := by
  have hinv : Set.InvOn (rules.flipIndex f) (rules.flipIndex f) rules.places rules.places :=
    ⟨fun i hi => flipIndex_flipIndex hvalid f hi, fun i hi => flipIndex_flipIndex hvalid f hi⟩
  exact hinv.bijOn (fun i hi => flipIndex_lt hvalid f hi) fun i hi => flipIndex_lt hvalid f hi

/-- The places of the policy of a valid rule set belong to its moves one to one, and looking up
a move is the inverse of finding its place. A frame exchanges the places two by two, each with
that of the turned move. The successors of a position have places in the policy. -/
theorem policy_bijective (h : rules.validate = .ok ()) :
    (rules.moveSource = .piecesOnBoard → ∀ piece : Int,
      let index : Square × Square → Nat := fun m => rules.moveIndex ⟨piece, m.1, m.2⟩
      let move : Nat → Square × Square :=
        fun i => ((rules.moveAt i).origin, (rules.moveAt i).target)
      Set.BijOn index (rules.squares ×ˢ rules.squares) rules.places ∧
        Set.InvOn move index (rules.squares ×ˢ rules.squares) rules.places) ∧
    (rules.moveSource = .ends → ∀ origin : Square,
      let index : Int × Square → Nat := fun m => rules.moveIndex ⟨m.1, origin, m.2⟩
      let move : Nat → Int × Square := fun i => ((rules.moveAt i).piece, (rules.moveAt i).target)
      Set.BijOn index (rules.codes ×ˢ rules.squares) rules.places ∧
        Set.InvOn move index (rules.codes ×ˢ rules.squares) rules.places) ∧
    (∀ i < rules.policySize, rules.moveIndex (rules.moveAt i) = i) ∧
    (∀ f : Frame, Set.BijOn (rules.flipIndex f) rules.places rules.places ∧
      (∀ i < rules.policySize, rules.flipIndex f (rules.flipIndex f i) = i) ∧
      ∀ m, rules.Indexed m → rules.flipIndex f (rules.moveIndex m) =
        rules.moveIndex ⟨m.piece, f.flip rules.boardSize m.origin,
          f.flip rules.boardSize m.target⟩) ∧
    ∀ (p : Position) (next : List Position), p.size = rules.boardSize →
      rules.successors p = .ok next → ∀ q ∈ next, rules.moveIndex q.last < rules.policySize := by
  have hvalid := valid_of_validate h
  refine ⟨bijOn_squares hvalid, bijOn_codes hvalid, fun i hi => moveIndex_moveAt hvalid hi,
    fun f => ⟨bijOn_flipIndex hvalid f, fun i hi => flipIndex_flipIndex hvalid f hi,
      fun m hm => ?_⟩, fun p next hsize hnext q hq => ?_⟩
  · rw [flipIndex_moveIndex hvalid.boardSize_lt hvalid.pieces_le hm]
    unfold moveIndex sourceOf Frame.move
    rw [Frame.natAbs_code]
  · have hindexed :=
      indexed_of_mem_successors hvalid.boardSize_lt hvalid.pieces_le hsize hnext hq
    exact hindexed.moveIndex_lt

/-- Three kinds of pieces that are dropped onto a board of edge five. -/
def threeKinds : RuleSet where
  name := "kinds"
  boardSize := 5
  symmetry := .rotate
  moveSource := .ends
  pieces := [{ name := "A" }, { name := "B" }, { name := "C" }]

/-- The pawn's first double step in chess, and the last place of three kinds of pieces. -/
theorem policy_bijective_doubleStep :
    BuiltIn.chess.validate = .ok () ∧ threeKinds.validate = .ok () ∧
      ((BuiltIn.chess.moveAt 796).origin, (BuiltIn.chess.moveAt 796).target) =
        ((⟨4, 1⟩, ⟨4, 3⟩) : Square × Square) ∧
      BuiltIn.chess.flipIndex ⟨true, true⟩ 796 = BuiltIn.chess.moveIndex ⟨1, ⟨3, 6⟩, ⟨3, 4⟩⟩ ∧
      ∃ d ∈ threeKinds.codes ×ˢ threeKinds.squares,
        threeKinds.moveIndex ⟨d.1, ⟨4, 5⟩, d.2⟩ = 74 := by
  have hchess : BuiltIn.chess.validate = .ok () := rfl
  have hkinds : threeKinds.validate = .ok () := rfl
  obtain ⟨hboard, -, -, hframes, -⟩ := policy_bijective hchess
  obtain ⟨-, hends, -⟩ := policy_bijective hkinds
  have hon : BuiltIn.chess.Indexed ⟨1, ⟨4, 1⟩, ⟨4, 3⟩⟩ := ⟨rfl, rfl⟩
  have hindex : BuiltIn.chess.moveIndex ⟨1, ⟨4, 1⟩, ⟨4, 3⟩⟩ = 796 := by decide
  have hsquares : ((⟨4, 1⟩, ⟨4, 3⟩) : Square × Square) ∈
      BuiltIn.chess.squares ×ˢ BuiltIn.chess.squares := ⟨rfl, rfl⟩
  have hmove := (hboard rfl 1).2.1 hsquares
  have hflip := (hframes ⟨true, true⟩).2.2 _ hon
  dsimp only at hmove
  rw [hindex] at hmove hflip
  exact ⟨hchess, hkinds, hmove, hflip, (hends rfl ⟨4, 5⟩).1.surjOn (by decide : 74 < 75)⟩

end BoardGame.RuleSet
