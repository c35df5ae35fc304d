import BoardGame.BuiltIn
import BoardGame.Proofs.Moves.Generation
import BoardGame.Proofs.Othello.Moves
import BoardGame.Proofs.Rules.Validity
import BoardGame.Proofs.Succession
import BoardGame.Proofs.Text.Reading
/-!
# Names of moves

On boards of at most nine ranks the name of a square is a letter and a digit, so a name
made of two of them falls apart in one way only. Under the built-in rules a move is told
by its target, and by its origin if it has one on the board; hence moves of the same name
lead to the same position.
-/

namespace BoardGame

namespace Square

variable {s t : Square} {n : Nat}

/-- The name of the square is a letter and a digit. -/
def Short (s : Square) : Prop :=
  (0 ≤ s.x ∧ s.x < 26) ∧ 0 ≤ s.y ∧ s.y < 9

theorem short_of_onBoard (hn : n ≤ 9) (h : s.onBoard n = true) : s.Short := by
  rw [onBoard_iff] at h
  unfold Short
  omega

theorem toList_name (h : s.Short) :
    s.name.toList = [Char.ofNat ('a'.toNat + s.x.toNat), Char.ofNat ('1'.toNat + s.y.toNat)] := by
  have hdigit : ∀ k : Fin 9, (toString ((k : Nat) + 1)).toList =
      [Char.ofNat ('1'.toNat + k)] := by decide
  obtain ⟨hx, hy, hy9⟩ := h
  rw [toList_name_eq hx hy, hdigit ⟨s.y.toNat, by omega⟩]

theorem name_of_neg (h : s.x < 0) : s.name = "-" :=
  if_pos (Or.inl h)

theorem name_append_inj (hs : s.Short) (ht : t.Short) {cs ds : List Char}
    (h : s.name.toList ++ cs = t.name.toList ++ ds) : s = t ∧ cs = ds := by
  have hletter : ∀ i j : Fin 26,
      Char.ofNat ('a'.toNat + i) = Char.ofNat ('a'.toNat + j) → i = j := by decide
  have hdigit : ∀ i j : Fin 9,
      Char.ofNat ('1'.toNat + i) = Char.ofNat ('1'.toNat + j) → i = j := by decide
  rw [toList_name hs, toList_name ht] at h
  simp only [List.cons_append, List.nil_append, List.cons.injEq] at h
  obtain ⟨hx, hy, hrest⟩ := h
  obtain ⟨⟨hsx, hsx26⟩, hsy, hsy9⟩ := hs
  obtain ⟨⟨htx, htx26⟩, hty, hty9⟩ := ht
  have ex := hletter ⟨s.x.toNat, by omega⟩ ⟨t.x.toNat, by omega⟩ hx
  have ey := hdigit ⟨s.y.toNat, by omega⟩ ⟨t.y.toNat, by omega⟩ hy
  rw [Fin.mk.injEq] at ex ey
  obtain ⟨sx, sy⟩ := s
  obtain ⟨tx, ty⟩ := t
  simp only at *
  refine ⟨?_, hrest⟩
  rw [Square.mk.injEq]
  omega

end Square

namespace RuleSet

variable {rules : RuleSet} {pos q q' : Position} {next : List Position}

/-- An admissible move is told by its target, together with its origin where pieces on the
board move. -/
def Told (rules : RuleSet) : Prop :=
  ∀ pos : Position, pos.size = rules.boardSize →
    ∀ c ∈ rules.allCandidates pos, ∀ c' ∈ rules.allCandidates pos,
      (rules.moveSource = .piecesOnBoard → c.origin = c'.origin) → c.target = c'.target → c = c'

theorem last_of_apply {c : Candidate} (h : c.apply rules pos = .ok q) :
    q.last = ⟨c.piece, c.origin, c.target⟩ := by
  obtain ⟨writes, -, hq⟩ := bind_eq_ok.mp h
  rw [← Except.ok.inj hq]
  rfl

theorem origin_of_mem_allCandidates (hsize : rules.boardSize < 0x80000000)
    (hpieces : rules.pieces.length ≤ maxPieceTypes) {c : Candidate}
    (hc : c ∈ rules.allCandidates pos) :
    c.origin.onBoard rules.boardSize = true ↔ rules.moveSource = .piecesOnBoard := by
  obtain ⟨m, hm, hmem⟩ := List.mem_flatMap.mp hc
  obtain ⟨-, -, -, -, -, horigin, -⟩ := mem_candidatesAt.mp hmem
  rw [horigin]
  unfold movers at hm
  cases hsource : rules.moveSource with
  | piecesOnBoard =>
      rw [hsource] at hm
      exact iff_of_true ((mem_boardMovers hsize).mp hm).1 rfl
  | ends =>
      rw [hsource] at hm
      obtain ⟨-, -, hy⟩ := (mem_virtualMovers hsize hpieces).mp hm
      refine iff_of_false ?_ nofun
      rw [Square.onBoard_iff]
      omega

theorem target_of_mem_allCandidates {c : Candidate} (hc : c ∈ rules.allCandidates pos) :
    c.target.onBoard pos.size = true := by
  obtain ⟨m, -, hmem⟩ := List.mem_flatMap.mp hc
  obtain ⟨-, -, -, -, -, -, hadm⟩ := mem_candidatesAt.mp hmem
  simp only [Candidate.admissible, Bool.and_eq_true] at hadm
  exact hadm.1.1

theorem eq_of_moveName_eq (htold : rules.Told) (hsize : rules.boardSize ≤ 9)
    (hpieces : rules.pieces.length ≤ maxPieceTypes) (hpos : pos.size = rules.boardSize)
    (hnext : rules.successors pos = .ok next) (hq : q ∈ next) (hq' : q' ∈ next)
    (hname : Game.moveName ⟨rules, .template⟩ q = Game.moveName ⟨rules, .template⟩ q') :
    q = q' := by
  obtain ⟨c, hc, happly⟩ := exists_candidate hnext hq
  obtain ⟨c', hc', happly'⟩ := exists_candidate hnext hq'
  have horigin := origin_of_mem_allCandidates (by omega) hpieces hc
  have horigin' := origin_of_mem_allCandidates (by omega) hpieces hc'
  have htarget := target_of_mem_allCandidates hc
  have htarget' := target_of_mem_allCandidates hc'
  rw [hpos] at htarget htarget'
  have hqsize : q.size = rules.boardSize := (follows_of_mem_successors hnext hq).size_eq.trans hpos
  have hqsize' : q'.size = rules.boardSize :=
    (follows_of_mem_successors hnext hq').size_eq.trans hpos
  have hlist := congrArg String.toList hname
  simp only [Game.moveName, Position.onBoard, hqsize, hqsize', last_of_apply happly,
    last_of_apply happly'] at hlist
  have hsame : c = c' := by
    by_cases hsource : rules.moveSource = .piecesOnBoard
    · rw [if_pos (horigin.mpr hsource), if_pos (horigin'.mpr hsource), String.toList_append,
        String.toList_append] at hlist
      obtain ⟨heq, hrest⟩ := Square.name_append_inj
        (Square.short_of_onBoard hsize (horigin.mpr hsource))
        (Square.short_of_onBoard hsize (horigin'.mpr hsource)) hlist
      rw [← List.append_nil c.target.name.toList, ← List.append_nil c'.target.name.toList] at hrest
      exact htold pos hpos c hc c' hc' (fun _ => heq) (Square.name_append_inj
        (Square.short_of_onBoard hsize htarget) (Square.short_of_onBoard hsize htarget') hrest).1
    · rw [if_neg (mt horigin.mp hsource), if_neg (mt horigin'.mp hsource),
        ← List.append_nil c.target.name.toList, ← List.append_nil c'.target.name.toList] at hlist
      exact htold pos hpos c hc c' hc' (fun h => absurd h hsource) (Square.name_append_inj
        (Square.short_of_onBoard hsize htarget) (Square.short_of_onBoard hsize htarget') hlist).1
  subst hsame
  exact Except.ok.inj (happly.symm.trans happly')

theorem Told.nodup_successors (htold : rules.Told) (hsize : rules.boardSize < 0x80000000)
    (hmoves : ∀ type ∈ rules.pieces, type.moves.Nodup) (hpos : pos.size = rules.boardSize)
    (hnext : rules.successors pos = .ok next) : next.Nodup := by
  let move (c : Choice) : LastMove := ⟨c.mover.piece, c.mover.origin, c.target⟩
  have hcandidate {c : Choice} (hc : c ∈ rules.choices pos) :
      c.candidate ∈ rules.allCandidates pos ∧ ∃ type ∈ rules.pieces,
        rules.pieceType? c.mover.piece = some type ∧ type.moves[c.index]? = some c.rule := by
    obtain ⟨m, hm, hmem⟩ := List.mem_flatMap.mp hc
    obtain ⟨rfl, ⟨type, htype, hrule⟩, -⟩ := mem_choicesAt.mp hmem
    refine ⟨List.mem_flatMap.mpr ⟨c.mover, hm, ?_⟩, type, mem_pieces_of_pieceType? htype, htype,
      hrule⟩
    rw [← map_candidate_choicesAt]
    exact List.mem_map_of_mem hmem
  -- squares tell the rule, and a rule that is listed once tells its index
  have hinjective : ∀ c ∈ rules.choices pos, ∀ d ∈ rules.choices pos, move c = move d → c = d := by
    intro c hc d hd heq
    obtain ⟨hpiece, horigin, htarget⟩ := LastMove.mk.inj heq
    obtain ⟨hcmem, type, htype, hcode, hrule⟩ := hcandidate hc
    obtain ⟨hdmem, type', -, hcode', hrule'⟩ := hcandidate hd
    have hsame := htold pos hpos _ hcmem _ hdmem (fun _ => horigin) htarget
    have hrules : c.rule = d.rule := congrArg Candidate.rule hsame
    rw [← hpiece, hcode, Option.some.injEq] at hcode'
    rw [← hcode', ← hrules] at hrule'
    have hlt := (List.getElem?_eq_some_iff.mp hrule).1
    have hindex := (List.getElem?_inj hlt (hmoves type htype)).mp (hrule.trans hrule'.symm)
    obtain ⟨⟨piece, origin⟩, index, rule, target⟩ := c
    obtain ⟨⟨piece', origin'⟩, index', rule', target'⟩ := d
    rw [Choice.mk.injEq, Mover.mk.injEq]
    exact ⟨⟨hpiece, horigin⟩, hindex, hrules, htarget⟩
  obtain ⟨-, entries, hentries, rfl⟩ := successors_eq_ok.mp hnext
  have hplayed := forall₂_ofHighestPriority (mapM_eq_ok_iff.mp hentries)
  have hlasts : ((rules.choices pos).filter (Choice.isTop (rules.choices pos))).map move =
      (ofHighestPriority entries).map (·.last) := by
    rw [← List.forall₂_eq_eq_eq, List.forall₂_map_left_iff, List.forall₂_map_right_iff]
    exact hplayed.imp fun c q hq => (last_of_apply hq).symm
  apply List.Nodup.of_map (·.last)
  rw [← hlasts]
  refine List.Nodup.map_on ?_ ((nodup_choices hsize pos).filter _)
  intro c hc d hd
  exact hinjective c (List.mem_filter.mp hc).1 d (List.mem_filter.mp hd).1

/-! ## The built-in rules -/

/-- Pieces on the board, none of which reaches a square by two of its rules. -/
theorem told_of_pieces (hsize : rules.boardSize < 0x80000000)
    (hsource : rules.moveSource = .piecesOnBoard)
    (hrules : ∀ type ∈ rules.pieces, ∀ r ∈ type.moves, ∀ r' ∈ type.moves, ∀ side origin target,
      target ∈ rules.targetSquares side origin r → target ∈ rules.targetSquares side origin r' →
        r = r') : rules.Told := by
  intro pos _ c hc c' hc' horigin htarget
  obtain ⟨m, hm, hmem⟩ := List.mem_flatMap.mp hc
  obtain ⟨m', hm', hmem'⟩ := List.mem_flatMap.mp hc'
  obtain ⟨type, htype, hrule, htargets, hpiece, ho, -⟩ := mem_candidatesAt.mp hmem
  obtain ⟨type', htype', hrule', htargets', hpiece', ho', -⟩ := mem_candidatesAt.mp hmem'
  have hsame : m'.origin = m.origin := by rw [← ho, ← ho', horigin hsource]
  unfold movers at hm hm'
  rw [hsource] at hm hm'
  have hread := ((mem_boardMovers hsize).mp hm).2.1
  have hread' := ((mem_boardMovers hsize).mp hm').2.1
  rw [hsame, hread] at hread'
  rw [← hread', htype] at htype'
  rw [hsame, ← htarget] at htargets'
  have hrules' := hrules type (mem_pieces_of_pieceType? htype) c.rule hrule c'.rule
    (Option.some.inj htype' ▸ hrule') _ _ _ htargets htargets'
  obtain ⟨piece, origin, target, rule⟩ := c
  obtain ⟨piece', origin', target', rule'⟩ := c'
  rw [Candidate.mk.injEq]
  exact ⟨hpiece.trans (hread'.trans hpiece'.symm), horigin hsource, htarget, hrules'⟩

/-- One piece that is dropped by one rule, which takes it straight up. -/
theorem told_of_drops (hsize : rules.boardSize < 0x80000000) (hsource : rules.moveSource = .ends)
    {type : PieceType} {rule : MoveRule} (hpieces : rules.pieces = [type])
    (hmoves : type.moves = [rule])
    (hup : ∀ side origin target, target ∈ rules.targetSquares side origin rule →
      target.x = origin.x ∧ origin.y < target.y) : rules.Told := by
  have hcount : rules.pieces.length = 1 := congrArg List.length hpieces
  -- the only piece comes from below the target by the only rule
  have hdrop : ∀ pos : Position, pos.size = rules.boardSize → ∀ c ∈ rules.allCandidates pos,
      c = ⟨pos.mover.sign, ⟨c.target.x, -1⟩, c.target, rule⟩ := by
    intro pos hpos c hc
    have hon := target_of_mem_allCandidates hc
    rw [hpos, Square.onBoard_iff] at hon
    obtain ⟨m, hm, hmem⟩ := List.mem_flatMap.mp hc
    obtain ⟨type', htype, hrule, htarget, hpiece, ho, -⟩ := mem_candidatesAt.mp hmem
    unfold movers at hm
    rw [hsource] at hm
    obtain ⟨⟨i, hi, hcode⟩, -, hy⟩ :=
      (mem_virtualMovers hsize (Nat.le_trans (Nat.le_of_eq hcount) (by decide))).mp hm
    have htype' := mem_pieces_of_pieceType? htype
    rw [hpieces, List.mem_singleton] at htype'
    rw [htype', hmoves, List.mem_singleton] at hrule
    rw [hrule] at htarget
    obtain ⟨hx, hlt⟩ := hup _ _ _ htarget
    obtain ⟨piece, origin, target, rule'⟩ := c
    obtain ⟨code, x, y⟩ := m
    dsimp only at hx hlt hon hy hcode hpiece ho hrule ⊢
    obtain rfl : i = 0 := by omega
    rw [Candidate.mk.injEq]
    refine ⟨?_, ?_, rfl, hrule⟩
    · rw [hpiece, hcode]
      exact Int.one_mul _
    · rw [ho, Square.mk.injEq]
      omega
  intro pos hpos c hc c' hc' _ htarget
  rw [hdrop pos hpos c hc, hdrop pos hpos c' hc', htarget]

open BuiltIn

theorem of_mem_ahead (hsymmetry : rules.symmetry = .shared) {rule : MoveRule}
    (hrule : rule.templates = ahead 0) {side : Side} {origin target : Square}
    (h : target ∈ rules.targetSquares side origin rule) :
    target.x = origin.x ∧ origin.y < target.y := by
  have hsign : rules.forwardSign side = 1 := by
    rw [forwardSign, hsymmetry]
    exact if_neg fun hc => nomatch hc.2
  rw [mem_targetSquares, hrule] at h
  simp only [ahead, List.foldl_cons, List.foldl_nil, SetOp.holds, covers, hsign, Bool.false_or,
    Bool.and_eq_true, Bool.or_eq_true, beq_iff_eq, decide_eq_true_eq, Square.sub_x,
    Square.sub_y] at h
  omega

theorem told_ticTacToe : ticTacToe.Told :=
  told_of_drops (by decide) rfl rfl rfl fun _ _ _ h => of_mem_ahead rfl rfl h

theorem told_connectFour : connectFour.Told :=
  told_of_drops (by decide) rfl rfl rfl fun _ _ _ h => of_mem_ahead rfl rfl h

/-- A helper turns a line far away or settles where it stands. -/
theorem told_othello : othello.Told := by
  have hapart : ∀ {side : Side} {o t : Square}, t ∈ othello.targetSquares side o Othello.turning →
      t ∈ othello.targetSquares side o Othello.settling → False := by
    intro side o t hturn hsettle
    obtain ⟨d, hd, n, -, -, hray⟩ := (Othello.mem_farLines rfl).mp hturn
    rw [Othello.mem_settling.mp hsettle] at hray
    exact Square.ray_ne_self hd (Nat.succ_pos n) hray.symm
  refine told_of_pieces (by decide) rfl ?_
  intro type htype r hr r' hr' side o t ht ht'
  rcases List.mem_cons.mp htype with rfl | htype
  · rw [List.mem_singleton.mp hr, List.mem_singleton.mp hr']
  · rw [List.mem_singleton.mp htype] at hr hr'
    rcases List.mem_pair.mp hr with rfl | rfl <;> rcases List.mem_pair.mp hr' with rfl | rfl
    · rfl
    · exact (hapart ht ht').elim
    · exact (hapart ht' ht).elim
    · rfl

theorem of_mem_pawnTargets {side : Side} {o t : Square} {r : MoveRule} (hr : r ∈ pawnMoves)
    (h : t ∈ chess.targetSquares side o r) :
    (r.land = quiet ↔ t.x = o.x) ∧ (r.jump = slide ↔ (t.y - o.y).natAbs = 2) ∧
      (r.exchange = some "Q" ↔ chess.covers side o (onRank 8) t = true) := by
  have hextent : ∀ op pattern, chess.extent ⟨op, pattern, 1⟩ = 1 ∧
      chess.extent ⟨op, pattern, 2⟩ = 2 ∧ chess.extent ⟨op, pattern, 4⟩ = 4 ∧
      chess.extent ⟨op, pattern, 8⟩ = 8 := fun _ _ => ⟨rfl, rfl, rfl, rfl⟩
  have hsign : chess.forwardSign side = 1 ∨ chess.forwardSign side = -1 := by
    cases side <;> decide
  have hedge : chess.edge = 8 := rfl
  rw [mem_targetSquares] at h
  simp only [pawnMoves, List.mem_cons, List.not_mem_nil, or_false] at hr
  rcases hr with rfl | rfl | rfl | rfl | rfl
  all_goals
    simp only [ahead, aheadDiagonally, onRank, offRank, List.cons_append, List.nil_append,
      List.foldl_cons, List.foldl_nil, SetOp.holds, covers, hextent, Bool.false_or,
      Bool.and_eq_true, Bool.or_eq_true, Bool.not_eq_true', beq_iff_eq, Pattern.within_iff,
      Square.sub_x, Square.sub_y, decide_eq_true_eq, ← Bool.not_eq_true, rankRow, hedge] at h ⊢
    simp only [quiet, slide, take, reduceCtorEq, SquarePolicy.mk.injEq, true_iff, false_iff,
      and_false, and_true]
    rcases hsign with hs | hs <;> simp only [hs] at h ⊢ <;> omega

theorem told_chess : chess.Told := by
  have hpawn : ∀ r ∈ pawnMoves, ∀ r' ∈ pawnMoves, (r.land = quiet ↔ r'.land = quiet) →
      (r.jump = slide ↔ r'.jump = slide) → (r.exchange = some "Q" ↔ r'.exchange = some "Q") →
        r = r' := by decide
  refine told_of_pieces (by decide) rfl ?_
  intro type htype r hr r' hr' side o t ht ht'
  simp only [chess, List.mem_cons, List.not_mem_nil, or_false] at htype
  rcases htype with rfl | rfl | rfl | rfl | rfl | rfl
  · obtain ⟨hland, hjump, hexchange⟩ := of_mem_pawnTargets hr ht
    obtain ⟨hland', hjump', hexchange'⟩ := of_mem_pawnTargets hr' ht'
    exact hpawn r hr r' hr' (hland.trans hland'.symm) (hjump.trans hjump'.symm)
      (hexchange.trans hexchange'.symm)
  all_goals rw [List.mem_singleton.mp hr, List.mem_singleton.mp hr']

end RuleSet

end BoardGame
