import BoardGame.Proofs.Chess.Fen.Continuation
import BoardGame.Proofs.Chess.Names
/-!
# Moves from a record

A record may describe a board that no game leads to. Its en passant square is kept if the
pawn that passed over it is there, whatever stands on the square itself. An own man there
shuts the square off. A man of the opponent can be taken there in the ordinary way, and the
en passant capture then comes to the same move once more.
-/

namespace BoardGame.Chess

open Laws Fen

variable {pos q : Position} {s t : Square} {side : Side} {x : Int}

/-! ## The square passed over -/

/-- The square that a pawn's double step has passed over. -/
def passedSquare? (last : LastMove) : Option Square :=
  if DoubleStep last then some ⟨last.target.x, (last.origin.y + last.target.y) / 2⟩ else none

theorem Stepped.passedSquare?_eq (h : Stepped pos side x) :
    passedSquare? pos.last = some ⟨x, home side + 2 * side.sign⟩ := by
  rw [h.last]
  cases side <;> rfl

theorem Stepped.enPassantTarget?_eq_some (h : Stepped pos side x) :
    enPassantTarget? pos s = some t ↔
      t = ⟨x, home side + 2 * side.sign⟩ ∧ Piece.pawn.Reaches pos.mover (t - s) := by
  have hhome := home_cases side
  have hpawn : ((look pos.board ⟨x, home side + 3 * side.sign⟩).natAbs : Int) =
      Kind.pawn.code := by
    rw [h.pawn, natAbs_code_mul]
  have hranks : (home side + side.sign = 1 ∧ home side + 3 * side.sign = 3) ∨
      (home side + side.sign = 6 ∧ home side + 3 * side.sign = 4) := by omega
  unfold enPassantTarget?
  simp only [h.last, h.mover, Side.sign_opponent, hpawn, hranks, true_and,
    Option.ite_none_right_eq_some, Option.some.injEq, Piece.Reaches, Square.sub_x, Square.sub_y]
  constructor
  · rintro ⟨⟨hy, hx⟩, rfl⟩
    rw [Square.mk.injEq]
    dsimp only
    omega
  · rintro ⟨rfl, hx, hy⟩
    rw [Square.mk.injEq]
    dsimp only at hx hy
    omega

theorem Fen.Recorded.stepped (h : Recorded pos) :
    pos.last = .absent ∨ ∃ x, Stepped pos pos.mover.opponent x := by
  obtain ⟨field, hlast⟩ := h.last
  unfold lastMove at hlast
  cases hparse : Square.parse? field with
  | none =>
      rw [hparse] at hlast
      exact .inl hlast
  | some passed =>
      rw [hparse] at hlast
      cases hmover : pos.mover with
      | black =>
          rw [hmover] at hlast
          by_cases hstep : passed.y = 2 ∧ look pos.board ⟨passed.x, 3⟩ = Kind.pawn.code
          · exact .inr ⟨passed.x, hmover, hlast.trans (if_pos hstep), hstep.2⟩
          · exact .inl (hlast.trans (if_neg hstep))
      | white =>
          rw [hmover] at hlast
          by_cases hstep : passed.y = 5 ∧ look pos.board ⟨passed.x, 4⟩ = -Kind.pawn.code
          · exact .inr ⟨passed.x, hmover, hlast.trans (if_pos hstep), hstep.2⟩
          · exact .inl (hlast.trans (if_neg hstep))

theorem Fen.Recorded.enPassantTarget?_eq_some (h : Recorded pos) :
    enPassantTarget? pos s = some t ↔
      passedSquare? pos.last = some t ∧ Piece.pawn.Reaches pos.mover (t - s) := by
  rcases h.stepped with habsent | ⟨x, hstepped⟩
  · have hnone : enPassantTarget? pos s = none := by
      refine if_neg fun hopen => ?_
      rw [habsent] at hopen
      exact absurd hopen.1 (by decide)
    rw [hnone, habsent]
    exact iff_of_false nofun fun hpassed => nomatch hpassed.1
  · rw [hstepped.enPassantTarget?_eq_some, hstepped.passedSquare?_eq, Option.some.injEq,
      eq_comm (a := t)]

/-! ## En passant captures -/

/-- A pawn has changed its column and come onto the square passed over before. -/
def EnPassant (pos q : Position) : Prop :=
  (q.last.piece.natAbs : Int) = Kind.pawn.code ∧ q.last.origin.x ≠ q.last.target.x ∧
    passedSquare? pos.last = some q.last.target

instance (pos q : Position) : Decidable (EnPassant pos q) :=
  inferInstanceAs (Decidable (_ ∧ _))

/-- A move as an en passant capture should be: a pawn goes onto an empty square, and the pawn
that has passed over that square is all that leaves the board. -/
structure TakesPassedPawn (pos q : Position) : Prop where
  empty : look pos.board q.last.target = 0
  pawn : look pos.board q.last.origin = Kind.pawn.code * pos.mover.sign
  passed : look pos.board pos.last.target = Kind.pawn.code * pos.mover.opponent.sign
  look_board : ∀ s, look q.board s =
    if s = q.last.target then Kind.pawn.code * pos.mover.sign
    else if s = q.last.origin ∨ s = pos.last.target then 0
    else look pos.board s

/-- No man of the opponent stands on the square passed over. -/
def Unobstructed (pos : Position) : Prop :=
  ∀ s, passedSquare? pos.last = some s → (look pos.board s).sign ≠ pos.mover.opponent.sign

theorem look_boardAfter_aside {board : Board} {code : Int} (hboard : Valid board)
    (ht : OnBoard t) (hcode : code.natAbs ≤ 8)
    (hpawn : ((look board s).natAbs : Int) = Kind.pawn.code) (hempty : look board t = 0)
    (haside : s.x ≠ t.x ∧ s.y ≠ t.y) (hrank : s.y ≠ 0 ∧ s.y ≠ 7) (u : Square) :
    look (boardAfter board s t code) u =
      if u = t then code else if u = s ∨ u = ⟨t.x, s.y⟩ then 0 else look board u := by
  have hs : OnBoard s := by
    apply onBoard_of_look_ne_zero
    intro hzero
    rw [hzero] at hpawn
    exact absurd hpawn (by decide)
  have hbeside : OnBoard ⟨t.x, s.y⟩ := ⟨ht.1, hs.2⟩
  have hfirst := hboard.write ht hcode
  have hsecond : Valid (write (write board t code) s 0) := hfirst.write hs (by decide)
  have hcaptured : captureEnPassant board (write (write board t code) s 0) s t =
      write (write (write board t code) s 0) ⟨t.x, s.y⟩ 0 :=
    if_pos ⟨hpawn, haside.1, hempty⟩
  have hts : t ≠ s := fun heq => haside.1 (congrArg Square.x heq).symm
  have hbelow : t ≠ ⟨t.x, s.y⟩ := fun heq => haside.2 (congrArg Square.y heq).symm
  rw [boardAfter, hcaptured, giveUpCastling, if_pos hrank, hsecond.look_write hbeside,
    hfirst.look_write hs, hboard.look_write ht]
  by_cases hut : u = t
  · rw [if_pos hut, hut, if_neg hbelow, if_neg hts, if_pos rfl]
  · rw [if_neg hut, if_neg hut]
    by_cases hub : u = ⟨t.x, s.y⟩
    · rw [if_pos hub, if_pos (.inr hub)]
    · rw [if_neg hub]
      simp only [hub, or_false]

theorem nodup_steps_of_nodup {kind : Kind}
    (hs : look pos.board s = kind.code * pos.mover.sign) (h : (successors pos).Nodup) :
    (steps pos (kingSquare? pos.board pos.mover) s kind).Nodup := by
  have hcell := onBoard_iff_laws.mpr (onBoard_of_look_eq hs)
  have hmem := List.mem_range.mpr (Square.index_lt hcell)
  have hfrom := (List.nodup_flatMap.mp h).1 _ hmem
  rw [Square.ofIndex_index (by decide) hcell, movesFrom_eq hs] at hfrom
  exact (List.nodup_append.mp hfrom).1

namespace Fen.Recorded

theorem of_enPassant (h : Recorded pos) (hq : q ∈ successors pos) (hpassing : EnPassant pos q) :
    look pos.board q.last.origin = Kind.pawn.code * pos.mover.sign ∧
      enPassantTarget? pos q.last.origin = some q.last.target ∧
      move? pos (kingSquare? pos.board pos.mover) q.last.origin q.last.target
        (promoted q.last.origin q.last.target pos.mover.sign) = some q := by
  obtain ⟨hpawn, haside, hpassed⟩ := hpassing
  obtain ⟨s, hon, hmem⟩ := mem_successors.mp hq
  obtain ⟨kind, hs, hsteps | hcastles⟩ := exists_kind_of_mem hon hmem
  · obtain ⟨t, ht, hmoved⟩ := List.mem_filterMap.mp hsteps
    obtain ⟨-, -, -, hnext⟩ := move?_eq_some.mp hmoved
    have hlast : q.last = ⟨look pos.board s, s, t⟩ := congrArg Position.last hnext
    rw [hlast] at hpawn haside hpassed ⊢
    rw [hs, natAbs_code_mul] at hpawn
    obtain rfl := Kind.code_injective hpawn
    refine ⟨hs, ?_, hmoved⟩
    rcases List.mem_append.mp ht with hordinary | hpassing
    · rcases List.mem_append.mp hordinary with hahead | hcapture
      · exact absurd (x_of_mem_pawnSteps hahead).symm haside
      · exact h.enPassantTarget?_eq_some.mpr ⟨hpassed, (mem_pawnCaptures_iff.mp hcapture).1⟩
    · exact Option.mem_toList.mp hpassing
  · obtain ⟨rfl, ⟨hcastle, -⟩ | ⟨hcastle, -⟩⟩ := mem_castlings_cases hcastles
    all_goals
      have hpiece := congrArg LastMove.piece (last_of_castle? hcastle)
      rw [hs, sign_code_mul] at hpiece
      rw [hpiece, natAbs_code_mul] at hpawn
      cases Kind.code_injective hpawn

theorem enPassant_of_move? (h : Recorded pos) {king : Option Square} {code : Int}
    (hs : look pos.board s = Kind.pawn.code * pos.mover.sign)
    (hpassed : enPassantTarget? pos s = some t) (hmoved : move? pos king s t code = some q) :
    EnPassant pos q := by
  obtain ⟨-, -, -, rfl⟩ := move?_eq_some.mp hmoved
  obtain ⟨hsquare, hreach⟩ := h.enPassantTarget?_eq_some.mp hpassed
  have hbeside := hreach.1
  rw [Square.sub_x] at hbeside
  refine ⟨?_, ?_, hsquare⟩
  · show ((look pos.board s).natAbs : Int) = _
    rw [hs, natAbs_code_mul]
  · show s.x ≠ t.x
    omega

theorem takesPassedPawn (h : Recorded pos) (hq : q ∈ successors pos)
    (hpassing : EnPassant pos q) (hempty : look pos.board q.last.target = 0) :
    TakesPassedPawn pos q := by
  obtain ⟨hpawn, hpassed, hmoved⟩ := h.of_enPassant hq hpassing
  obtain ⟨hsquare, hx, hy⟩ := h.enPassantTarget?_eq_some.mp hpassed
  rw [Square.sub_x] at hx
  rw [Square.sub_y] at hy
  obtain ⟨x, hstepped⟩ : ∃ x, Stepped pos pos.mover.opponent x := by
    rcases h.stepped with habsent | hstepped
    · rw [habsent] at hsquare
      cases hsquare
    · exact hstepped
  rw [hstepped.passedSquare?_eq, Option.some.injEq, eq_comm, square_eq_iff] at hsquare
  obtain ⟨hcolumn, hrow⟩ := hsquare
  have hhome := home_cases pos.mover.opponent
  have hsign := Side.sign_opponent pos.mover
  have htarget : pos.last.target = ⟨q.last.target.x, q.last.origin.y⟩ := by
    rw [hstepped.last, Square.mk.injEq]
    omega
  have hpromoted : promoted q.last.origin q.last.target pos.mover.sign =
      Kind.pawn.code * pos.mover.sign :=
    if_neg (by omega)
  obtain ⟨hon, -, -, hnext⟩ := move?_eq_some.mp hmoved
  have hlook := look_boardAfter_aside h.warranted.valid hon (natAbs_code_mul_le .pawn pos.mover)
    (by rw [hpawn, natAbs_code_mul]) hempty (s := q.last.origin) (by omega) (by omega)
  refine ⟨hempty, hpawn, ?_, fun u => ?_⟩
  · rw [hstepped.last]
    exact hstepped.pawn
  · rw [htarget, ← hlook, ← hpromoted]
    exact congrArg (fun p : Position => look p.board u) hnext

/-- An own man on the square shuts it off, so a capture finds it empty. -/
theorem empty_of_unobstructed (h : Recorded pos) (hq : q ∈ successors pos)
    (hpassing : EnPassant pos q) (hfree : Unobstructed pos) :
    look pos.board q.last.target = 0 := by
  obtain ⟨-, hpassed, hmoved⟩ := h.of_enPassant hq hpassing
  obtain ⟨-, hown, -⟩ := move?_eq_some.mp hmoved
  have hother := hfree _ (h.enPassantTarget?_eq_some.mp hpassed).1
  by_contra hne
  obtain ⟨k, side, hk⟩ := exists_kind hne (h.warranted.valid.code_le _)
  have harrives : (promoted q.last.origin q.last.target pos.mover.sign).sign = pos.mover.sign :=
    sign_arrivalCode .pawn pos.mover q.last.origin q.last.target
  rw [hk, sign_code_mul, harrives, ne_eq, Side.sign_inj] at hown
  rw [hk, sign_code_mul, ne_eq, Side.sign_inj] at hother
  exact hother (Side.eq_opponent_of_ne (Ne.symm hown))

/-! ## Distinct moves -/

/-- If moves are listed once, an en passant capture finds its square empty. -/
theorem empty_of_nodup (h : Recorded pos) (hq : q ∈ successors pos)
    (hpassing : EnPassant pos q) (hnodup : (successors pos).Nodup) :
    look pos.board q.last.target = 0 := by
  obtain ⟨hpawn, hpassed, hmoved⟩ := h.of_enPassant hq hpassing
  by_contra hne
  have hordinary := (mem_pawnSteps_append_iff hpassed).mpr hne
  have hsteps := nodup_steps_of_nodup hpawn hnodup
  rw [steps, targets, pawnTargets_eq, List.filterMap_append] at hsteps
  -- the pawn takes the man there as well
  refine (List.nodup_append.mp hsteps).2.2 q ?_ q ?_ rfl
  · exact List.mem_filterMap.mpr ⟨_, hordinary, hmoved⟩
  · exact List.mem_filterMap.mpr ⟨_, Option.mem_toList.mpr hpassed, hmoved⟩

theorem nodup_of_takesPassedPawn (h : Recorded pos)
    (htakes : ∀ q ∈ successors pos, EnPassant pos q → TakesPassedPawn pos q) :
    (successors pos).Nodup := by
  refine List.Nodup.of_map moveOf (nodup_successors_of fun s t q hs hpassed hmoved => ?_)
  have hq : q ∈ successors pos := by
    refine mem_successors.mpr ⟨s, onBoard_of_look_eq hs, ?_⟩
    rw [movesFrom_eq hs]
    refine List.mem_append_left _ (List.mem_filterMap.mpr ⟨t, ?_, hmoved⟩)
    exact List.mem_append_right _ (Option.mem_toList.mpr hpassed)
  have hempty := (htakes q hq (h.enPassant_of_move? hs hpassed hmoved)).empty
  obtain ⟨-, -, -, rfl⟩ := move?_eq_some.mp hmoved
  exact hempty

end Fen.Recorded

theorem nodup_map_moveName_iff (pos : Position) :
    ((successors pos).map moveName).Nodup ↔ (successors pos).Nodup :=
  ⟨List.Nodup.of_map moveName, fun h => h.map_on fun _ hq _ hq' => eq_of_moveName_eq hq hq'⟩

/-- A record on which no man of the opponent stands on the square passed over lists different
positions with different names, and its en passant captures go onto an empty square and take
nothing but the passed pawn. Any other record lists its moves once, and their names once,
exactly if its en passant captures do so. -/
theorem moves_from_record {text : String} (h : read text = .ok pos) :
    game.successors pos = .ok (successors pos) ∧
    (Unobstructed pos → (successors pos).Nodup ∧ ((successors pos).map moveName).Nodup ∧
      ∀ q ∈ successors pos, EnPassant pos q → TakesPassedPawn pos q) ∧
    ((successors pos).Nodup ↔
      ∀ q ∈ successors pos, EnPassant pos q → TakesPassedPawn pos q) ∧
    (((successors pos).map moveName).Nodup ↔
      ∀ q ∈ successors pos, EnPassant pos q → TakesPassedPawn pos q) := by
  have hrecorded := recorded_of_readFields (read_eq_ok.mp h)
  have hsize : pos.size = boardSize := congrArg Position.size hrecorded.rest
  have hnames := nodup_map_moveName_iff pos
  have hnodup : (successors pos).Nodup ↔
      ∀ q ∈ successors pos, EnPassant pos q → TakesPassedPawn pos q := by
    constructor
    · intro hnodup q hq hpassing
      exact hrecorded.takesPassedPawn hq hpassing (hrecorded.empty_of_nodup hq hpassing hnodup)
    · exact hrecorded.nodup_of_takesPassedPawn
  refine ⟨Game.successors_chess hsize, fun hfree => ?_, hnodup, hnames.trans hnodup⟩
  have htakes : ∀ q ∈ successors pos, EnPassant pos q → TakesPassedPawn pos q := by
    intro q hq hpassing
    exact hrecorded.takesPassedPawn hq hpassing (hrecorded.empty_of_unobstructed hq hpassing hfree)
  exact ⟨hnodup.mpr htakes, hnames.mpr (hnodup.mpr htakes), htakes⟩

theorem exists_read_of_any {text : String} {p : Position → Bool}
    (h : (read text).toOption.any p = true) : ∃ pos, read text = .ok pos ∧ p pos = true := by
  obtain ⟨pos, hpos, hp⟩ := Option.any_eq_true _ _ |>.mp h
  exact ⟨pos, ok_of_toOption hpos, hp⟩

/-- White's pawn may capture en passant. -/
def passable : String := "4k3/8/8/3Pp3/8/8/8/4K3 w - e6 0 1"

theorem moves_from_record_passable :
    ∃ p, read passable = .ok p ∧ (successors p).Nodup ∧ ((successors p).map moveName).Nodup ∧
      ∃ q ∈ successors p, moveName q = "d5e6" ∧ TakesPassedPawn p q := by
  have hshown : (read passable).toOption.any (fun p =>
      passedSquare? p.last == some ⟨4, 5⟩ && look p.board ⟨4, 5⟩ == 0 &&
        (successors p).any fun q => moveName q == "d5e6" && decide (EnPassant p q)) = true := by
    decide +kernel
  obtain ⟨p, hread, hshown⟩ := exists_read_of_any hshown
  simp only [Bool.and_eq_true, beq_iff_eq, List.any_eq_true, decide_eq_true_eq] at hshown
  obtain ⟨⟨hpassed, hempty⟩, q, hq, hname, hpassing⟩ := hshown
  have hfree : Unobstructed p := by
    intro s hs
    rw [Option.some.inj (hs.symm.trans hpassed), hempty]
    cases p.mover <;> decide
  obtain ⟨-, hdistinct, -⟩ := moves_from_record hread
  obtain ⟨hnodup, hnames, htakes⟩ := hdistinct hfree
  exact ⟨p, hread, hnodup, hnames, q, hq, hname, htakes q hq hpassing⟩

/-- A knight of the opponent stands on the square that is said to be passed over. -/
def obstructed : String := "4k3/8/4n3/3Pp3/8/8/8/4K3 w - e6 0 1"

/-- The knight can be taken, which is listed once more as an en passant capture. -/
theorem moves_from_record_obstructed :
    ∃ p, read obstructed = .ok p ∧ ¬ (successors p).Nodup ∧
      ¬ ((successors p).map moveName).Nodup ∧
      ∃ q ∈ successors p, EnPassant p q ∧ ¬ TakesPassedPawn p q := by
  have hshown : (read obstructed).toOption.any (fun p =>
      !decide ((successors p).map moveName).Nodup &&
        (successors p).any fun q =>
          decide (EnPassant p q) && look p.board q.last.target != 0) = true := by
    decide +kernel
  obtain ⟨p, hread, hshown⟩ := exists_read_of_any hshown
  simp only [Bool.and_eq_true, Bool.not_eq_true', decide_eq_false_iff_not, List.any_eq_true,
    decide_eq_true_eq, bne_iff_ne] at hshown
  obtain ⟨hnames, q, hq, hpassing, hoccupied⟩ := hshown
  exact ⟨p, hread, mt (nodup_map_moveName_iff p).mpr hnames, hnames, q, hq, hpassing,
    fun htakes => hoccupied htakes.empty⟩

end BoardGame.Chess
