import BoardGame.Proofs.Ending.Games
/-!
# Gravity

No rule of Connect Four says that pieces fall. A piece comes from below its column and may
pass pieces but no empty square, so that the lowest empty square is the only one it can
reach. Boards that are played on are therefore filled without gaps, and the sides take
turns piece by piece.
-/

namespace BoardGame

open BuiltIn

/-! ## What a drop does -/

/-- Whether a column has an empty square. -/
def Position.hasRoom (pos : Position) (x : Nat) : Bool :=
  decide (∃ y < pos.size, pos.read ⟨x, y⟩ = 0)

/-- A piece of the side to move has come to the lowest empty square of a column. -/
structure Position.DropsInto (pos : Position) (x : Nat) (next : Position) : Prop where
  exists_lowest : ∃ y < pos.size, pos.read ⟨x, y⟩ = 0 ∧ (∀ j < y, pos.read ⟨x, j⟩ ≠ 0) ∧
    ∀ s : Square, pos.onBoard s = true →
      next.read s = if s = ⟨x, y⟩ then pos.mover.sign else pos.read s
  size_eq : next.size = pos.size
  cells_eq : next.board.size = pos.board.size
  mover_eq : next.mover = pos.mover.opponent

/-- Parts of no more than one entry each, one after the other. -/
theorem forall₂_filter_flatMap {α β : Type} {R : α → β → Prop} {p : α → Bool} {f : α → List β}
    {l : List α} (hsome : ∀ a ∈ l, p a = true → ∃ b, f a = [b] ∧ R a b)
    (hnone : ∀ a ∈ l, p a = false → f a = []) : List.Forall₂ R (l.filter p) (l.flatMap f) := by
  induction l with
  | nil => exact .nil
  | cons a l ih =>
      have ih := ih (fun b hb => hsome b (List.mem_cons_of_mem a hb))
        (fun b hb => hnone b (List.mem_cons_of_mem a hb))
      rw [List.flatMap_cons]
      cases hp : p a with
      | false =>
          rw [List.filter_cons_of_neg (by simp [hp]), hnone a List.mem_cons_self hp]
          exact ih
      | true =>
          obtain ⟨b, hb, hab⟩ := hsome a List.mem_cons_self hp
          rw [List.filter_cons_of_pos hp, hb]
          exact .cons hab ih

namespace RuleSet

theorem ofHighestPriority_of_forall {α : Type} {entries : List (Int × α)} {priority : Int}
    (h : ∀ e ∈ entries, e.1 = priority) : ofHighestPriority entries = entries.map (·.2) := by
  rw [ofHighestPriority_eq, List.filter_eq_self.mpr]
  intro e he
  rw [List.all_eq_true]
  intro d hd
  rw [h e he, h d hd, decide_eq_true_eq]

/-- Drops that pass no empty square and hand over the turn. -/
structure Falls (rules : RuleSet) (type : PieceType) (rule : MoveRule) : Prop
    extends rules.Drops type rule where
  empty : rule.jump.empty = .disallowed
  continues : rule.continues = false

theorem falls_connectFour : ∃ type rule, connectFour.Falls type rule := by
  obtain ⟨type, rule, h⟩ := drops_connectFour
  obtain rfl := List.singleton_inj.mp h.pieces
  obtain rfl := List.singleton_inj.mp h.moves
  exact ⟨_, _, h, rfl, rfl⟩

namespace Falls

variable {rules : RuleSet} {type : PieceType} {rule : MoveRule} {pos : Position} {c : Candidate}
  {x : Nat}

/-- The piece in hand below a column. -/
def below (pos : Position) (x : Nat) : Mover := ⟨pos.mover.sign, ⟨x, -1⟩⟩

theorem candidatesAt_above (h : rules.Falls type rule) (hfits : rules.Fits pos) :
    rules.candidatesAt pos ⟨pos.mover.sign, ⟨x, rules.edge⟩⟩ = [] := by
  rw [List.eq_nil_iff_forall_not_mem]
  intro c hc
  obtain ⟨type', htype, hrule, htarget, -, horigin, hadm⟩ := mem_candidatesAt.mp hc
  rw [h.pieceType?_sign, Option.some.injEq] at htype
  rw [← htype, h.moves, List.mem_singleton] at hrule
  rw [hrule] at htarget
  have hedge : rules.edge = rules.boardSize := Square.coordinate_of_lt h.boardSize_lt
  have hup := (of_mem_ahead h.symmetry h.templates htarget).2
  simp only [Candidate.admissible, Bool.and_eq_true, Position.onBoard, hfits.size,
    Square.onBoard_iff] at hadm
  dsimp only at hup
  omega

theorem lowest_of_mem (h : rules.Falls type rule) (hfits : rules.Fits pos)
    (hx : x < rules.boardSize) (hc : c ∈ rules.candidatesAt pos (below pos x)) :
    ∃ y < rules.boardSize, c = ⟨pos.mover.sign, ⟨x, -1⟩, ⟨x, y⟩, rule⟩ ∧
      pos.read ⟨x, y⟩ = 0 ∧ ∀ j < y, pos.read ⟨x, j⟩ ≠ 0 := by
  have hall : c ∈ rules.allCandidates pos := List.mem_flatMap.mpr ⟨_, h.mem_movers hx, hc⟩
  obtain ⟨hrule, -, -, hon, hempty⟩ := h.of_mem hfits hall
  obtain ⟨-, -, -, htarget, hpiece, horigin, hadm⟩ := mem_candidatesAt.mp hc
  obtain ⟨piece, origin, ⟨tx, ty⟩, rule'⟩ := c
  obtain rfl : rule' = rule := hrule
  obtain rfl : piece = pos.mover.sign := hpiece
  obtain rfl : origin = ⟨x, -1⟩ := horigin
  obtain rfl : tx = x := (of_mem_ahead h.symmetry h.templates htarget).1
  rw [Square.onBoard_iff] at hon
  dsimp only at hon
  obtain ⟨y, rfl⟩ := Int.eq_ofNat_of_zero_le hon.1.2
  refine ⟨y, by omega, rfl, hempty, fun j hj h0 => ?_⟩
  -- an empty square below would have been passed
  simp only [Candidate.admissible, Bool.and_eq_true] at hadm
  have hpass := List.all_eq_true.mp hadm.2 ⟨x, j⟩ (Square.mem_between_up.mpr ⟨j, hj, rfl⟩)
  have hcell : pos.cell ⟨x, j⟩ = 0 := by
    rw [Position.cell, h0, ite_self]
  rw [hcell, Occupant.classify_eq_empty.mpr rfl, SquarePolicy.get, h.empty] at hpass
  cases hpass

theorem nodup_candidatesAt (h : rules.Falls type rule) :
    (rules.candidatesAt pos (below pos x)).Nodup := by
  unfold candidatesAt below
  rw [h.pieceType?_sign]
  dsimp only
  rw [h.moves, List.flatMap_singleton, candidatesBy]
  refine List.Nodup.filter _ ((nodup_targetSquares rule).map fun s t hst => ?_)
  exact (Candidate.mk.inj hst).2.2.1

/-- A column with an empty square takes a piece in one way. -/
theorem candidatesAt_below (h : rules.Falls type rule) (hfits : rules.Fits pos)
    (hx : x < rules.boardSize) (hroom : pos.hasRoom x = true) :
    ∃ c, rules.candidatesAt pos (below pos x) = [c] := by
  have hroom : ∃ y < rules.boardSize, pos.read ⟨x, y⟩ = 0 := hfits.size ▸ of_decide_eq_true hroom
  let y := Nat.find hroom
  obtain ⟨hy, hempty⟩ : y < rules.boardSize ∧ pos.read ⟨x, y⟩ = 0 := Nat.find_spec hroom
  have hbelow : ∀ j < y, pos.read ⟨x, j⟩ ≠ 0 := fun j hj h0 =>
    Nat.find_min hroom hj ⟨by omega, h0⟩
  rw [Position.read, hfits.size] at hempty
  simp only [Position.read, hfits.size] at hbelow
  have hmem := h.mem_candidatesAt_below hfits hx hy hempty hbelow
  refine ⟨_, List.perm_singleton.mp ((List.perm_ext_iff_of_nodup h.nodup_candidatesAt
    (List.nodup_singleton ⟨pos.mover.sign, ⟨x, -1⟩, ⟨x, y⟩, rule⟩)).mpr fun c => ?_)⟩
  rw [List.mem_singleton]
  constructor
  · intro hc
    obtain ⟨y', hy', rfl, hempty', hbelow'⟩ := h.lowest_of_mem hfits hx hc
    simp only [Position.read, hfits.size] at hempty' hbelow'
    obtain heq | hlt | hlt := Nat.lt_trichotomy y' y
    · exact absurd hempty' (hbelow y' heq)
    · rw [hlt]
    · exact absurd hempty (hbelow' y hlt)
  · rintro rfl
    exact hmem

theorem movers_eq (h : rules.Falls type rule) :
    rules.movers pos =
      (List.range rules.boardSize).flatMap fun x =>
        [below pos x, ⟨pos.mover.sign, ⟨x, rules.edge⟩⟩] := by
  have hlines : rules.lines = List.range rules.boardSize := by
    rw [lines, edge, Square.coordinate_of_lt h.boardSize_lt, Int.toNat_natCast]
  have hcount : List.range (Int.bmod [type].length 256).toNat = [0] := by
    rw [List.length_singleton]
    decide
  have hcode : ((0 : Nat) + 1 : Int) * pos.mover.sign = pos.mover.sign := Int.one_mul _
  rw [movers, h.source]
  dsimp only
  simp only [virtualMovers, hlines, h.pieces, hcount, List.flatMap_singleton, hcode, below]

theorem allCandidates_eq (h : rules.Falls type rule) (hfits : rules.Fits pos) :
    rules.allCandidates pos =
      (List.range rules.boardSize).flatMap fun x => rules.candidatesAt pos (below pos x) := by
  rw [allCandidates, h.movers_eq, List.flatMap_assoc]
  congr 1
  funext x
  rw [List.flatMap_cons, List.flatMap_singleton, h.candidatesAt_above hfits, List.append_nil]

theorem dropsInto_of_mem (h : rules.Falls type rule) (hfits : rules.Fits pos)
    (hx : x < rules.boardSize) (hc : c ∈ rules.candidatesAt pos (below pos x)) :
    pos.DropsInto x (pos.successor (pos.board.write rules.boardSize c.target c.piece)
      pos.mover.opponent ⟨c.piece, c.origin, c.target⟩) := by
  obtain ⟨y, hy, rfl, hempty, hbelow⟩ := h.lowest_of_mem hfits hx hc
  refine ⟨⟨y, hfits.size.symm ▸ hy, hempty, hbelow, fun s hs => ?_⟩, rfl, Board.size_write, rfl⟩
  rw [Position.onBoard, hfits.size] at hs
  rw [Position.read, Position.read, Position.successor_size, Position.successor_board, hfits.size]
  exact Board.read_write hfits.cells (Square.onBoard_natCast hx hy) hs

/-- The successors are one for each column with an empty square, in order. -/
theorem successors_drop (h : rules.Falls type rule) (hfits : rules.Fits pos) :
    ∃ next, rules.successors pos = .ok next ∧
      List.Forall₂ pos.DropsInto ((List.range rules.boardSize).filter pos.hasRoom) next := by
  let result (c : Candidate) : Position :=
    pos.successor (pos.board.write rules.boardSize c.target c.piece) pos.mover.opponent
      ⟨c.piece, c.origin, c.target⟩
  have htypes : ∀ m ∈ rules.movers pos, (rules.pieceType? m.piece).isSome = true := by
    intro m hm
    obtain ⟨h0, hle, -⟩ := hfits.mover h.valid hm
    exact isSome_pieceType? h0 hle
  have happly : ∀ c ∈ rules.allCandidates pos, c.apply rules pos = .ok (result c) := by
    intro c hc
    rw [h.apply_eq hfits hc, h.continues]
    rfl
  have hpriority : ∀ e ∈ (rules.allCandidates pos).map fun c => (c.rule.priority, result c),
      e.1 = rule.priority := by
    intro e he
    obtain ⟨c, hc, rfl⟩ := List.mem_map.mp he
    rw [(h.of_mem hfits hc).1]
  refine ⟨_, successors_eq htypes happly, ?_⟩
  rw [ofHighestPriority_of_forall hpriority, List.map_map, h.allCandidates_eq hfits,
    List.map_flatMap]
  refine forall₂_filter_flatMap (fun x hx hroom => ?_) (fun x hx hfull => ?_)
  · have hx := List.mem_range.mp hx
    obtain ⟨c, hc⟩ := h.candidatesAt_below hfits hx hroom
    refine ⟨result c, by rw [hc]; rfl, h.dropsInto_of_mem hfits hx ?_⟩
    rw [hc]
    exact List.mem_singleton_self c
  · rw [List.map_eq_nil_iff, List.eq_nil_iff_forall_not_mem]
    intro c hc
    obtain ⟨y, hy, -, hempty, -⟩ := h.lowest_of_mem hfits (List.mem_range.mp hx) hc
    exact of_decide_eq_false hfull ⟨y, hfits.size.symm ▸ hy, hempty⟩

end Falls

end RuleSet

/-! ## Boards that are played on -/

namespace Board

variable {n : Nat} {board : Board} {s : Square} {code k : Int}

theorem count_write (hsize : board.size = n * n) (hs : s.onBoard n = true)
    (hempty : board.read n s = 0) (hk : k ≠ 0) :
    (board.write n s code).count k = board.count k + if code = k then 1 else 0 := by
  have hcount : (board.write n s code).countP (· == k) + _ = _ := countP_write _ hsize hs
  rw [hempty, if_neg (by simpa using hk.symm)] at hcount
  rw [Array.count_eq_countP, Array.count_eq_countP]
  simpa using hcount

theorem emptyCells_add_countP (board : Board) :
    board.emptyCells + board.countP (· ≠ 0) = board.size := by
  rw [emptyCells, Array.count_eq_countP]
  simp [Array.size_eq_countP_add_countP (p := (· == (0 : Int)))]

end Board

namespace Position

variable {pos next : Position} {x : Nat}

theorem DropsInto.exists_write (h : pos.DropsInto x next)
    (hcells : pos.board.size = pos.size * pos.size) (hx : x < pos.size) :
    ∃ y < pos.size, pos.read ⟨x, y⟩ = 0 ∧ (∀ j < y, pos.read ⟨x, j⟩ ≠ 0) ∧
      next.board = pos.board.write pos.size ⟨x, y⟩ pos.mover.sign := by
  obtain ⟨y, hy, hempty, hbelow, hread⟩ := h.exists_lowest
  refine ⟨y, hy, hempty, hbelow,
    Board.ext_read (h.cells_eq.trans hcells) (Board.size_write.trans hcells) fun s hs => ?_⟩
  rw [Board.read_write hcells (Square.onBoard_natCast hx hy) hs]
  have hnext := hread s hs
  rwa [Position.read, h.size_eq] at hnext

end Position

namespace ConnectFour

/-- Filled columns, and as many plies as pieces, the sides one after the other. -/
structure Stacked (p : Position) : Prop where
  fits : connectFour.Fits p
  columns : ∀ x j y : Nat, x < 7 → j < y → y < 7 → p.read ⟨x, y⟩ ≠ 0 → p.read ⟨x, j⟩ ≠ 0
  plies : p.board.emptyCells + p.depth = 49
  turns : p.board.countOf .white 1 =
    p.board.countOf .black 1 + if p.mover = .white then 0 else 1

variable {p q : Position} {x : Nat}

theorem stacked_initial (h : Game.initial ⟨connectFour, .template⟩ = .ok p) : Stacked p := by
  have hfits := RuleSet.fits_initial (by decide) (Game.initial_of_eq_ok h)
  obtain rfl := Except.ok.inj h
  refine ⟨hfits, fun x j y hx _ hy hne => absurd ?_ hne, by decide, by decide⟩
  have hon : Square.onBoard 7 ⟨x, y⟩ = true := Square.onBoard_natCast hx hy
  have hmem : (Board.clear 7).read 7 ⟨x, y⟩ ∈ Board.clear 7 := Board.mem_of_read rfl hon
  exact (Array.mem_replicate.mp hmem).2

/-- A drop puts a piece on top of its column. -/
theorem Stacked.columns_of_drop (h : Stacked p) (hdrop : p.DropsInto x q)
    {a j b : Nat} (ha : a < 7) (hj : j < b) (hb : b < 7) (hne : q.read ⟨a, b⟩ ≠ 0) :
    q.read ⟨a, j⟩ ≠ 0 := by
  have hsize : p.size = 7 := h.fits.size
  obtain ⟨y, hy, hempty, hbelow, hread⟩ := hdrop.exists_lowest
  have hlanded : p.mover.sign ≠ 0 := by cases p.mover <;> decide
  have hon {i k : Nat} (hi : i < 7) (hk : k < 7) : p.onBoard ⟨i, k⟩ = true := by
    rw [Position.onBoard, hsize]
    exact Square.onBoard_natCast hi hk
  rw [hread _ (hon ha hb)] at hne
  rw [hread _ (hon ha (by omega))]
  split
  · exact hlanded
  next hother =>
  split at hne
  next htop =>
    -- what stands below the new piece is what it came past
    simp only [Square.mk.injEq, Int.natCast_inj] at htop
    rw [htop.1]
    exact hbelow j (by omega)
  · exact h.columns a j b ha hj hb hne

theorem Stacked.drop (h : Stacked p) (hdrop : p.DropsInto x q) (hx : x < 7) (hq : q.Follows p)
    (hfits : connectFour.Fits q) : Stacked q := by
  have hsize : p.size = 7 := h.fits.size
  have hcells : p.board.size = 7 * 7 := h.fits.cells
  obtain ⟨y, hy, hempty, -, hboard⟩ := hdrop.exists_write (by rw [hsize, hcells]) (by omega)
  rw [hsize] at hy hboard
  rw [Position.read, hsize] at hempty
  have hon : Square.onBoard 7 ⟨x, y⟩ = true := Square.onBoard_natCast hx hy
  refine ⟨hfits, fun _ _ _ => h.columns_of_drop hdrop, ?_, ?_⟩
  · have hfill := Board.emptyCells_write hcells hon hempty
      (show p.mover.sign ≠ 0 by cases p.mover <;> decide)
    have hplies := h.plies
    have hmax : maxDepth = 65535 := rfl
    rw [hq.depth_eq, hboard]
    omega
  · have hturns := h.turns
    rw [hdrop.mover_eq, hboard]
    simp only [Board.countOf] at hturns ⊢
    rw [Board.count_write hcells hon hempty (by decide),
      Board.count_write hcells hon hempty (by decide), hturns]
    cases p.mover <;> rfl

theorem successors_drop (h : connectFour.Fits p) :
    ∃ next, Game.successors ⟨connectFour, .template⟩ p = .ok next ∧
      List.Forall₂ p.DropsInto ((List.range 7).filter p.hasRoom) next := by
  obtain ⟨type, rule, hfalls⟩ := RuleSet.falls_connectFour
  obtain ⟨next, hnext, hdrops⟩ := hfalls.successors_drop h
  exact ⟨next, Game.successors_template.mpr hnext, hdrops⟩

theorem stacked_of_reachable (h : Game.Reachable ⟨connectFour, .template⟩ p) : Stacked p := by
  induction h with
  | initial h => exact stacked_initial h
  | @step pos q positions hreach hs hmem ih =>
      obtain ⟨next, hnext, hdrops⟩ := successors_drop ih.fits
      obtain rfl := Except.ok.inj (hs.symm.trans hnext)
      obtain ⟨i, hi, rfl⟩ := List.mem_iff_getElem.mp hmem
      have hcolumn : i < ((List.range 7).filter pos.hasRoom).length := hdrops.length_eq ▸ hi
      have hx := List.mem_range.mp (List.mem_of_mem_filter (List.getElem_mem hcolumn))
      obtain ⟨type, rule, hfalls⟩ := RuleSet.falls_connectFour
      exact ih.drop (hdrops.get hcolumn hi) hx (Game.follows_of_mem_successors hs hmem)
        ((hreach.step hs hmem).playable.fits hfalls.valid)

/-- Connect Four is played by dropping pieces. On whatever board of its size, the successors
are one for each column with an empty square, in order, each with one piece more, of the side
to move, on the lowest empty square of the column. So in every game the columns are filled
without gaps, there is a piece for every ply, and white has made either as many plies as black
or, with black to move, one more. -/
theorem plays_by_gravity :
    (∀ p : Position, p.size = 7 → p.board.size = 49 →
      (∀ code ∈ p.board, code = 0 ∨ code = 1 ∨ code = -1) →
      ∃ next, Game.successors ⟨connectFour, .template⟩ p = .ok next ∧
        List.Forall₂ p.DropsInto ((List.range 7).filter p.hasRoom) next) ∧
    ∀ p : Position, Game.Reachable ⟨connectFour, .template⟩ p →
      (∀ x j y : Nat, x < 7 → j < y → y < 7 → p.read ⟨x, y⟩ ≠ 0 → p.read ⟨x, j⟩ ≠ 0) ∧
      p.board.countP (· ≠ 0) = p.depth ∧
      p.board.countOf .white 1 = p.board.countOf .black 1 + if p.mover = .white then 0 else 1 := by
  refine ⟨fun p hsize hcells hcodes => successors_drop ⟨hsize, hcells, fun code hcode => ?_⟩,
    fun p hp => ?_⟩
  · show code.natAbs ≤ 1
    have hcode := hcodes code hcode
    omega
  · have h := stacked_of_reachable hp
    have hcells : p.board.size = 49 := h.fits.cells
    have hpieces := p.board.emptyCells_add_countP
    have hplies := h.plies
    exact ⟨h.columns, by omega, h.turns⟩

/-- A column that is full, and one with a piece in the air, below which the next piece comes to
lie; and a game of three plies. -/
theorem plays_by_gravity_held :
    let board := ((List.range 7).foldl (fun b y => Board.write b 7 ⟨0, y⟩ 1)
      (Board.clear 7)).write 7 ⟨1, 2⟩ (-1)
    let p := Position.ofBoard 7 board .black .absent 8
    ((List.range 7).filter p.hasRoom = [1, 2, 3, 4, 5, 6] ∧
      ∃ next, Game.successors ⟨connectFour, .template⟩ p = .ok next ∧
        List.Forall₂ p.DropsInto [1, 2, 3, 4, 5, 6] next) ∧
    ∃ q, Game.after ⟨connectFour, .template⟩ [1, 1, 3] = some q ∧
      q.board.countP (· ≠ 0) = q.depth := by
  intro board p
  have hrooms : (List.range 7).filter p.hasRoom = [1, 2, 3, 4, 5, 6] := by decide +kernel
  obtain ⟨next, hnext, hdrops⟩ :=
    plays_by_gravity.1 p rfl (by decide +kernel) (by decide +kernel)
  obtain ⟨q, hq⟩ := Option.isSome_iff_exists.mp
    (show (Game.after ⟨connectFour, .template⟩ [1, 1, 3]).isSome = true by decide +kernel)
  exact ⟨⟨hrooms, next, hnext, hrooms ▸ hdrops⟩, q, hq,
    (plays_by_gravity.2 q (Game.reachable_of_after hq)).2.1⟩

end ConnectFour

end BoardGame
