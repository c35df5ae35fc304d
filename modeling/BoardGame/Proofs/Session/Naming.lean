import BoardGame.Proofs.Chess.Names
import BoardGame.Proofs.Session.Line
import BoardGame.Proofs.Text.Reading
/-!
# Names that are typed

A square is named by the letter of its file and the number of its rank. There are ranks for
every board but only 26 letters, and the files beyond them are written as a dash, so on
boards of up to 26 files each square has a name of its own that is read as the square, and
on the six sizes above that only the squares on the first 26 files have one.
-/

namespace BoardGame

/-! ## Numbers within a text -/

namespace Text

variable {cs ds : List Char}

/-- The text does not go on with a digit. -/
def Stops (cs : List Char) : Prop :=
  ∀ c ∈ cs.head?, c.isDigit = false

theorem stops_nil : Stops [] :=
  nofun

theorem stops_cons {c : Char} (h : c.isDigit = false) (cs : List Char) : Stops (c :: cs) :=
  fun _ hc => Option.some.inj hc ▸ h

theorem takeWhile_toString_append (n : Nat) (h : Stops cs) :
    ((toString n).toList ++ cs).takeWhile Char.isDigit = (toString n).toList := by
  have hrest : cs.takeWhile Char.isDigit = [] := by
    cases cs with
    | nil => rfl
    | cons c cs => exact List.takeWhile_cons_of_neg (by simp [h c rfl])
  rw [List.takeWhile_append_of_pos fun c hc => isDigit_of_mem_toString hc, hrest,
    List.append_nil]

/-- A number ends where its digits end. -/
theorem toString_append_inj {m n : Nat} (hcs : Stops cs) (hds : Stops ds)
    (h : (toString m).toList ++ cs = (toString n).toList ++ ds) : m = n ∧ cs = ds := by
  have hdigits : (toString m).toList = (toString n).toList := by
    rw [← takeWhile_toString_append m hcs, h, takeWhile_toString_append n hds]
  rw [hdigits] at h
  have hvalue := digits?_toString m
  rw [hdigits, digits?_toString n] at hvalue
  exact ⟨(Option.some.inj hvalue).symm, List.append_cancel_left h⟩

end Text

/-! ## Squares -/

namespace Square

variable {s t : Square} {n : Nat} {cs ds : List Char}

/-- The file of the square has a letter. -/
def Lettered (s : Square) : Prop :=
  s.x < 26

instance (s : Square) : Decidable s.Lettered :=
  inferInstanceAs (Decidable (_ < _))

theorem name_of_not_lettered (h : ¬ s.Lettered) : s.name = "-" :=
  if_pos (Or.inr (Or.inr (Int.not_lt.mp h)))

theorem Lettered.toNat_lt (h : s.Lettered) : s.x.toNat < 26 := by
  unfold Lettered at h
  omega

theorem toList_name_of_lettered (hs : s.onBoard n = true) (h : s.Lettered) :
    s.name.toList =
      Char.ofNat ('a'.toNat + s.x.toNat) :: (toString (s.y.toNat + 1)).toList := by
  rw [onBoard_iff] at hs
  exact toList_name_eq ⟨hs.1.1, h⟩ hs.1.2

theorem stops_name (hs : s.onBoard n = true) (cs : List Char) :
    Text.Stops (s.name.toList ++ cs) := by
  have hletter : ∀ i : Fin 26, (Char.ofNat ('a'.toNat + i)).isDigit = false := by decide
  by_cases h : s.Lettered
  · rw [toList_name_of_lettered hs h]
    exact Text.stops_cons (hletter ⟨s.x.toNat, h.toNat_lt⟩) _
  · rw [name_of_not_lettered h]
    exact Text.stops_cons (by decide) _

theorem eq_of_name_append (hs : s.onBoard n = true) (ht : t.onBoard n = true) (h : s.Lettered)
    (hcs : Text.Stops cs) (hds : Text.Stops ds)
    (heq : s.name.toList ++ cs = t.name.toList ++ ds) : s = t ∧ cs = ds := by
  have hletter : ∀ i j : Fin 26,
      Char.ofNat ('a'.toNat + i) = Char.ofNat ('a'.toNat + j) → i = j := by decide
  have hdash : ∀ i : Fin 26, Char.ofNat ('a'.toNat + i) ≠ '-' := by decide
  rw [toList_name_of_lettered hs h] at heq
  by_cases h' : t.Lettered
  · rw [toList_name_of_lettered ht h', List.cons_append, List.cons_append, List.cons.injEq] at heq
    obtain ⟨hfile, hrank⟩ := heq
    have ex := Fin.mk.inj (hletter ⟨s.x.toNat, h.toNat_lt⟩ ⟨t.x.toNat, h'.toNat_lt⟩ hfile)
    obtain ⟨ey, hrest⟩ := Text.toString_append_inj hcs hds hrank
    rw [onBoard_iff] at hs ht
    obtain ⟨sx, sy⟩ := s
    obtain ⟨tx, ty⟩ := t
    dsimp only at hs ht ex ey
    refine ⟨?_, hrest⟩
    rw [Square.mk.injEq]
    omega
  · rw [name_of_not_lettered h', List.cons_append] at heq
    exact absurd (List.cons.inj heq).1 (hdash ⟨s.x.toNat, h.toNat_lt⟩)

theorem name_eq_iff (hs : s.onBoard n = true) (ht : t.onBoard n = true) :
    s.name = t.name ↔ s = t ∨ ¬ s.Lettered ∧ ¬ t.Lettered := by
  constructor
  · intro hname
    have hlist : s.name.toList ++ [] = t.name.toList ++ [] := by rw [hname]
    by_cases h : s.Lettered
    · exact Or.inl (eq_of_name_append hs ht h Text.stops_nil Text.stops_nil hlist).1
    by_cases h' : t.Lettered
    · exact Or.inl (eq_of_name_append ht hs h' Text.stops_nil Text.stops_nil hlist.symm).1.symm
    · exact Or.inr ⟨h, h'⟩
  · rintro (rfl | ⟨h, h'⟩)
    · rfl
    · rw [name_of_not_lettered h, name_of_not_lettered h']

theorem parse?_name_iff (hn : n ≤ maxBoardSize) (hs : s.onBoard n = true) :
    parse? s.name.toList = some s ↔ s.Lettered := by
  have hlimit : n ≤ 32 := hn
  have hon := onBoard_iff.mp hs
  constructor
  · intro h
    by_contra hdash
    have hnone : parse? "-".toList = none := by decide
    rw [name_of_not_lettered hdash, hnone] at h
    cases h
  · intro h
    exact parse?_name ⟨hon.1.1, h⟩ ⟨hon.1.2, by omega⟩

end Square

/-! ## Moves -/

namespace RuleSet

variable {rules : RuleSet} {pos q r : Position} {next : List Position}

theorem piece_of_mem_allCandidates (hsize : rules.boardSize < 0x80000000)
    (hsource : rules.moveSource = .piecesOnBoard) {c : Candidate}
    (hc : c ∈ rules.allCandidates pos) : c.piece = pos.read c.origin := by
  obtain ⟨m, hm, hmem⟩ := List.mem_flatMap.mp hc
  obtain ⟨-, -, -, -, hpiece, horigin, -⟩ := mem_candidatesAt.mp hmem
  rw [movers, hsource] at hm
  rw [hpiece, horigin, ((mem_boardMovers hsize).mp hm).2.1]

/-- A move whose squares have letters shares its name only with moves to the same target,
and with none but moves of the same piece from the same origin if it has one on the board. -/
theorem last_of_moveName_eq (hvalid : rules.Valid) (hpos : pos.size = rules.boardSize)
    (hnext : rules.successors pos = .ok next) (hq : q ∈ next) (hr : r ∈ next)
    (htarget : q.last.target.Lettered)
    (horigin : q.onBoard q.last.origin = true → q.last.origin.Lettered)
    (hname : Game.moveName ⟨rules, .template⟩ q = Game.moveName ⟨rules, .template⟩ r) :
    r.last.target = q.last.target ∧ (q.onBoard q.last.origin = true → r.last = q.last) := by
  obtain ⟨c, hc, happly⟩ := exists_candidate hnext hq
  obtain ⟨c', hc', happly'⟩ := exists_candidate hnext hr
  have hplaced := origin_of_mem_allCandidates hvalid.boardSize_lt hvalid.pieces_le hc
  have hplaced' := origin_of_mem_allCandidates hvalid.boardSize_lt hvalid.pieces_le hc'
  have hon := target_of_mem_allCandidates hc
  have hon' := target_of_mem_allCandidates hc'
  rw [hpos] at hon hon'
  have hqsize : q.size = rules.boardSize := (follows_of_mem_successors hnext hq).size_eq.trans hpos
  have hrsize : r.size = rules.boardSize := (follows_of_mem_successors hnext hr).size_eq.trans hpos
  have hlist := congrArg String.toList hname
  simp only [Game.moveName, Position.onBoard, hqsize, hrsize, last_of_apply happly,
    last_of_apply happly'] at hlist horigin htarget ⊢
  by_cases hsource : rules.moveSource = .piecesOnBoard
  · have hfrom := hplaced.mpr hsource
    have hfrom' := hplaced'.mpr hsource
    rw [if_pos hfrom, if_pos hfrom', String.toList_append, String.toList_append,
      ← List.append_nil c.target.name.toList, ← List.append_nil c'.target.name.toList] at hlist
    obtain ⟨hsame, hrest⟩ := Square.eq_of_name_append hfrom hfrom' (horigin hfrom)
      (Square.stops_name hon []) (Square.stops_name hon' []) hlist
    obtain ⟨hto, -⟩ := Square.eq_of_name_append hon hon' htarget Text.stops_nil Text.stops_nil hrest
    refine ⟨hto.symm, fun _ => ?_⟩
    rw [piece_of_mem_allCandidates hvalid.boardSize_lt hsource hc,
      piece_of_mem_allCandidates hvalid.boardSize_lt hsource hc', hsame, hto]
  · rw [if_neg (mt hplaced.mp hsource), if_neg (mt hplaced'.mp hsource),
      ← List.append_nil c.target.name.toList, ← List.append_nil c'.target.name.toList] at hlist
    obtain ⟨hto, -⟩ := Square.eq_of_name_append hon hon' htarget Text.stops_nil Text.stops_nil hlist
    exact ⟨hto.symm, fun hfrom => absurd (hplaced.mp hfrom) hsource⟩

end RuleSet

namespace Game

variable {game : Game} {pos q : Position} {next : List Position}

/-- The squares of the move that led to a position have letters, except for an origin off
the board. -/
def LetteredMove (q : Position) : Prop :=
  q.last.target.Lettered ∧ (q.onBoard q.last.origin = true → q.last.origin.Lettered)

theorem exists_meant?_moveName (game : Game) (hq : q ∈ next) : ∃ r ∈ next,
    game.meant? next (game.moveName q) = some r ∧ game.moveName q = game.moveName r := by
  cases hfind : next.find? fun r => game.moveName r == game.moveName q with
  | none => exact absurd (beq_self_eq_true _) (List.find?_eq_none.mp hfind q hq)
  | some r =>
      have hname := List.find?_some hfind
      refine ⟨r, List.mem_of_find?_eq_some hfind, ?_, (beq_iff_eq.mp hname).symm⟩
      rw [meant?, hfind]

theorem letteredMove_of_boardSize_le {rules : RuleSet} (hsmall : rules.boardSize ≤ 26)
    (hpos : pos.size = rules.boardSize) (hnext : rules.successors pos = .ok next)
    (hq : q ∈ next) : LetteredMove q := by
  obtain ⟨c, hc, happly⟩ := RuleSet.exists_candidate hnext hq
  have hsize : q.size = rules.boardSize :=
    (RuleSet.follows_of_mem_successors hnext hq).size_eq.trans hpos
  have hlettered {s : Square} (hs : s.onBoard rules.boardSize = true) : s.Lettered := by
    rw [Square.onBoard_iff] at hs
    unfold Square.Lettered
    omega
  refine ⟨?_, fun horigin => hlettered (hsize ▸ horigin)⟩
  rw [RuleSet.last_of_apply happly]
  exact hlettered (hpos ▸ RuleSet.target_of_mem_allCandidates hc)

theorem meant?_moveName (hvalid : game.rules.Valid) (hpos : pos.size = game.rules.boardSize)
    (hnext : game.successors pos = .ok next) (hq : q ∈ next)
    (hlettered : game.rules.boardSize ≤ 26 ∨ LetteredMove q) :
    ∃ r ∈ next, game.meant? next (game.moveName q) = some r ∧
      r.last.target = q.last.target ∧ (q.onBoard q.last.origin = true → r.last = q.last) := by
  obtain ⟨r, hr, hmeant, hname⟩ := exists_meant?_moveName game hq
  refine ⟨r, hr, hmeant, ?_⟩
  obtain ⟨rules, engine⟩ := game
  cases engine with
  | template =>
      have hnext := successors_template.mp hnext
      have hmove : LetteredMove q :=
        hlettered.elim (letteredMove_of_boardSize_le · hpos hnext hq) id
      exact RuleSet.last_of_moveName_eq hvalid hpos hnext hq hr hmove.1 hmove.2 hname
  | chess =>
      obtain ⟨-, -, hlist⟩ := bind_eq_ok.mp hnext
      obtain rfl := Except.ok.inj hlist
      obtain rfl := Chess.eq_of_moveName_eq hq hr hname
      exact ⟨rfl, fun _ => rfl⟩

/-- A board with a file that has no letter. Stones are dropped on its first two ranks. -/
def wide : RuleSet where
  name := "wide"
  boardSize := 27
  symmetry := .shared
  moveSource := .ends
  pieces := [
    { name := "X"
      moves := [{ templates := BuiltIn.ahead 2
                  land := { empty := .deploy }
                  jump := BuiltIn.leap }] }]

/-- On an admissible board a square is read by its name exactly if its file has a letter,
and squares share a name only where no file has one. A move on files that have letters is
found by its name. -/
theorem names_typed_back (game : Game) (hvalid : game.rules.validate = .ok ()) :
    (∀ s : Square, s.onBoard game.rules.boardSize = true →
      (Square.parse? s.name.toList = some s ↔ s.Lettered)) ∧
    (∀ s t : Square, s.onBoard game.rules.boardSize = true → t.onBoard game.rules.boardSize = true →
      (s.name = t.name ↔ s = t ∨ ¬ s.Lettered ∧ ¬ t.Lettered)) ∧
    ∀ pos next, pos.size = game.rules.boardSize → game.successors pos = .ok next →
      ∀ q ∈ next, game.rules.boardSize ≤ 26 ∨ LetteredMove q →
        ∃ r ∈ next, game.meant? next (game.moveName q) = some r ∧
          r.last.target = q.last.target ∧
          (q.onBoard q.last.origin = true → r.last = q.last) := by
  have hrules := RuleSet.valid_of_validate hvalid
  exact ⟨fun s hs => Square.parse?_name_iff hrules.boardSize_le hs,
    fun s t hs ht => Square.name_eq_iff hs ht,
    fun pos next hpos hnext q hq hlettered => meant?_moveName hrules hpos hnext hq hlettered⟩

/-- The corner of the last file that has a letter is the square `z27`. -/
theorem names_typed_back_corner :
    wide.validate = .ok () ∧ (Square.mk 25 26).name = "z27" ∧
      Square.parse? "z27".toList = some ⟨25, 26⟩ := by
  have hvalid : wide.validate = .ok () := by decide
  obtain ⟨hread, -⟩ := names_typed_back ⟨wide, .template⟩ hvalid
  exact ⟨hvalid, by decide, (hread ⟨25, 26⟩ (by decide)).mpr (by decide)⟩

/-- The squares of the last file are written as a dash, which is read as no square. The
drops on two of them share their name, and only the first is found by it. -/
theorem names_typed_back_dash :
    wide.validate = .ok () ∧
      (Square.mk 26 0).onBoard wide.boardSize = true ∧
      (Square.mk 26 1).onBoard wide.boardSize = true ∧
      (Square.mk 26 0).name = (Square.mk 26 1).name ∧
      Square.parse? (Square.mk 26 0).name.toList = none ∧
      ((Position.initial wide).toOption.bind fun p => (wide.successors p).toOption.map fun next =>
        ((next.filter (moveName ⟨wide, .template⟩ · == "-")).map (·.last.target),
          (meant? ⟨wide, .template⟩ next "-").map (·.last.target))) =
        some ([⟨26, 0⟩, ⟨26, 1⟩], some ⟨26, 0⟩) := by
  decide +kernel

end Game

end BoardGame
