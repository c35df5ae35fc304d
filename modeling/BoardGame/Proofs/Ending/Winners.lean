import BoardGame.Proofs.Chess.Engines
import BoardGame.Proofs.Ending.Games
/-!
# Who wins

A board is judged by itself, white first, whoever has made the last move. Yet the side to move
never finds that it has won: what it could win by, a line of its own or a king that the other
side has lost, the other side's last move did not bring about, so it would have been there
before that move.
-/

namespace BoardGame

open BuiltIn

variable {game : Game} {rules : RuleSet} {p q pos : Position} {side : Side} {o : Outcome}
  {ending : EndRule}

namespace RuleSet

/-! ## What a side wins by -/

/-- What a side has to show for a win by an ending: a line, or that the other side has too few
of some key piece. -/
def WonBy (rules : RuleSet) (ending : EndRule) (pos : Position) (side : Side) : Prop :=
  match ending.condition with
  | .nInARow =>
    let n := Int.bmod ending.param 0x100000000
    n ≤ pos.longestRun side n
  | .keyPiecesCaptured =>
    ∃ entry ∈ rules.pieces.zipIdx,
      pos.board.countOf side.opponent (entry.2 + 1) < entry.1.min
  | _ => False

/-- Whether an ending comes to a draw, or to a win of a side that has something to show for it. -/
def fairly (ending : EndRule) : Bool :=
  match ending.condition with
  | .nInARow | .keyPiecesCaptured | .repeatedPosition => true
  | .noLegalMove | .moveLimit | .boardFull => ending.decision == .draw
  | .noPiecesOnBoard => false

section

variable {ε : Type} {noMoves noMoves' : Except ε Bool}

theorem not_wonBy (h : rules.endOutcome pos noMoves ending = .ok none) (side : Side) :
    ¬ rules.WonBy ending pos side := by
  unfold endOutcome at h
  unfold WonBy
  cases hcondition : ending.condition with
  | nInARow =>
      rw [hcondition] at h
      exact lineOutcome_eq_none_iff.mp (Except.ok.inj h) side
  | keyPiecesCaptured =>
      rw [hcondition] at h
      rintro ⟨entry, hentry, hfew⟩
      exact keyPiecesOutcome_eq_none (Except.ok.inj h) side.opponent entry hentry hfew
  | _ => exact id

theorem draw_or_wonBy (hfair : fairly ending = true)
    (h : rules.endOutcome pos noMoves ending = .ok (some o)) :
    o = .draw ∨ ∃ side, o = .ofWinner side pos.mover ∧ rules.WonBy ending pos side := by
  unfold fairly at hfair
  unfold WonBy
  rcases endOutcome_cases h with ⟨hcondition | hcondition | hcondition, ho⟩ |
    ⟨hcondition, ho⟩ | ⟨hcondition, ho⟩ | ⟨hcondition, ho⟩ | ⟨hcondition, ho⟩ <;>
    rw [hcondition] at hfair ⊢
  iterate 3
    rw [eq_of_beq hfair] at ho
    exact .inl ho
  · exact .inl ho
  · exact .inr (exists_winner_of_keyPiecesOutcome ho)
  · cases hfair
  · exact .inr (exists_winner_of_lineOutcome ho)

/-- The side to move has not won if whatever it could show for it was there one move before,
when the game still went on. -/
theorem outcome_ne_win (hfair : rules.endings.all fairly = true)
    (hopen : rules.outcome p noMoves = .ok .undetermined)
    (hkept : ∀ ending ∈ rules.endings, rules.WonBy ending q q.mover →
      rules.WonBy ending p q.mover) : rules.outcome q noMoves' ≠ .ok .win := by
  intro hwin
  obtain ⟨ending, hmem, hending⟩ := exists_endOutcome hwin (by decide)
  rcases draw_or_wonBy (List.all_eq_true.mp hfair ending hmem) hending with hdraw |
    ⟨side, hside, hwon⟩
  · cases hdraw
  · obtain rfl := ofWinner_eq_win_iff.mp hside.symm
    exact not_wonBy (endOutcome_eq_none hopen ending hmem) _ (hkept ending hmem hwon)

end

theorem WonBy.of_noGain (h : Position.NoGain side q p)
    (hcondition : ending.condition ≠ .keyPiecesCaptured) (hwon : rules.WonBy ending q side) :
    rules.WonBy ending p side := by
  unfold WonBy at *
  cases hc : ending.condition with
  | nInARow =>
      rw [hc] at hwon
      exact Int.le_trans hwon (h.longestRun_le _)
  | keyPiecesCaptured => exact absurd hc hcondition
  | _ =>
      rw [hc] at hwon
      exact hwon

theorem WonBy.of_counts (h : ∀ entry ∈ rules.pieces.zipIdx,
      q.board.countOf side.opponent (entry.2 + 1) < entry.1.min →
        p.board.countOf side.opponent (entry.2 + 1) < entry.1.min)
    (hcondition : ending.condition ≠ .nInARow) (hwon : rules.WonBy ending q side) :
    rules.WonBy ending p side := by
  unfold WonBy at *
  cases hc : ending.condition with
  | nInARow => exact absurd hc hcondition
  | keyPiecesCaptured =>
      rw [hc] at hwon
      obtain ⟨entry, hentry, hfew⟩ := hwon
      exact ⟨entry, hentry, h entry hentry hfew⟩
  | _ =>
      rw [hc] at hwon
      exact hwon

/-! ## Drops -/

/-- A drop is worth nothing to the other side. -/
theorem Drops.noGain {type : PieceType} {rule : MoveRule} {next : List Position}
    (h : rules.Drops type rule) (hfits : rules.Fits p) (hnext : rules.successors p = .ok next)
    (hq : q ∈ next) : Position.NoGain p.mover.opponent q p := by
  obtain ⟨s, last, hon, hempty, rfl⟩ := h.exists_write hfits hnext hq
  refine ⟨rfl, fun t => ?_⟩
  rw [Position.cell, Position.cell]
  by_cases ht : p.onBoard t = true
  · have ht' : t.onBoard rules.boardSize = true := hfits.size ▸ ht
    rw [if_pos ht, if_pos (show (p.successor _ _ last).onBoard t = true from ht)]
    show _ * ((p.board.write rules.boardSize s p.mover.sign).read p.size t).sign ≤ _
    rw [hfits.size, Board.read_write hfits.cells hon ht']
    by_cases hts : t = s
    · rw [if_pos hts, hts, hempty]
      cases p.mover <;> decide
    · rw [if_neg hts, Position.read, hfits.size]
  · rw [if_neg ht, if_neg (show ¬ (p.successor _ _ last).onBoard t = true from ht)]

end RuleSet

/-! ## Chess by templates -/

namespace Chess

open Laws RuleSet

theorem countOf_king_pos_iff (hboard : Valid pos.board) :
    0 < pos.board.countOf side 6 ↔
      ∃ s, OnBoard s ∧ look pos.board s = Kind.king.code * side.sign := by
  have hcode : side.sign * ((6 : Nat) : Int) = Kind.king.code * side.sign := Int.mul_comm _ _
  unfold Board.countOf
  rw [hcode, Array.count_pos_iff, Board.mem_iff_exists_read hboard.size]
  refine exists_congr fun s => ?_
  rw [onBoard_iff_laws]
  exact and_congr_right fun hon => by rw [look_eq_read hon]

theorem exists_king_after (h : BuiltIn.chess.Fits p) {kind : Kind} {s t : Square} {rule : MoveRule}
    (hs : look p.board s = kind.code * p.mover.sign) (hrule : rule ∈ rulesOf kind)
    (hadm : (Candidate.mk (look p.board s) s t rule).admissible p = true) {code : Int}
    (hcode : code.natAbs ≤ 8) (hplain : kind ≠ .pawn → code = look p.board s)
    (hking : ∃ k, OnBoard k ∧ look p.board k = Kind.king.code * p.mover.sign) :
    ∃ k, OnBoard k ∧
      look (write (write p.board t code) s 0) k = Kind.king.code * p.mover.sign := by
  have hboard := valid_of_fits h
  have hon : OnBoard s := onBoard_of_look_eq hs
  have ht : OnBoard t := ((admissible_iff h.size).mp hadm).1
  have hfree := free_of_admissible h hs hrule hadm
  have hlook (u : Square) : look (write (write p.board t code) s 0) u =
      if u = s then 0 else if u = t then code else look p.board u := by
    rw [(hboard.write ht hcode).look_write hon, hboard.look_write ht]
  obtain ⟨k, hk, hking⟩ := hking
  by_cases hks : k = s
  -- the king itself has moved
  · rw [hks, hs] at hking
    obtain ⟨rfl, -⟩ := code_mul_inj hking
    have hts : t ≠ s := by
      rintro rfl
      exact hfree (by rw [hs, sign_code_mul])
    refine ⟨t, ht, ?_⟩
    rw [hlook, if_neg hts, if_pos rfl, hplain (by decide), hs]
  · have hkt : k ≠ t := by
      rintro rfl
      exact hfree (by rw [hking, sign_code_mul])
    refine ⟨k, hk, ?_⟩
    rw [hlook, if_neg hks, if_neg hkt, hking]

theorem king_kept (h : BuiltIn.chess.Fits p) {next : List Position}
    (hnext : BuiltIn.chess.successors p = .ok next) (hq : q ∈ next) :
    q.mover = p.mover.opponent ∧
      (0 < p.board.countOf p.mover 6 → 0 < q.board.countOf p.mover 6) := by
  have hboard := valid_of_fits h
  obtain ⟨c, hc, happly⟩ := exists_candidate hnext hq
  obtain ⟨kind, s, t, hs, rule, hrule, -, hadm, rfl⟩ := (mem_allCandidates_of_fits h).mp hc
  have hon : OnBoard s := onBoard_of_look_eq hs
  have ht : OnBoard t := ((admissible_iff h.size).mp hadm).1
  rw [apply_of_fits h hs hrule hadm] at happly
  obtain rfl := Except.ok.inj happly
  generalize hcode : (if rule.exchange = none then look p.board s
    else Kind.queen.code * p.mover.sign) = code
  have hle : code.natAbs ≤ 8 := by
    rw [← hcode]
    split
    · exact hboard.code_le s
    · exact natAbs_code_mul_le _ _
  have hplain (hkind : kind ≠ .pawn) : code = look p.board s := by
    rw [← hcode, if_pos (policies_of_mem_of_ne hrule hkind).1]
  have hafter := (hboard.write ht hle).write hon (by decide : (0 : Int).natAbs ≤ 8)
  refine ⟨rfl, fun hking => (countOf_king_pos_iff hafter).mpr ?_⟩
  exact exists_king_after h hs hrule hadm hle hplain ((countOf_king_pos_iff hboard).mp hking)

/-! ## Chess by its own engine -/

theorem mover_of_castle? {s : Square} {corner dir : Int} (h : castle? p s corner dir = some q) :
    q.mover = p.mover.opponent := by
  unfold castle? at h
  simp only [Option.ite_none_left_eq_some] at h
  obtain ⟨-, -, -, hq⟩ := h
  rw [← Option.some.inj hq]
  rfl

theorem mover_of_mem_successors (h : q ∈ successors p) : q.mover = p.mover.opponent := by
  obtain ⟨s, hon, hmem⟩ := mem_successors.mp h
  obtain ⟨kind, -, hsteps | hcastles⟩ := exists_kind_of_mem hon hmem
  · obtain ⟨t, -, hmoved⟩ := List.mem_filterMap.mp hsteps
    obtain ⟨-, -, -, rfl⟩ := move?_eq_some.mp hmoved
    rfl
  · obtain ⟨-, ⟨hcastle, -⟩ | ⟨hcastle, -⟩⟩ := mem_castlings_cases hcastles <;>
      exact mover_of_castle? hcastle

theorem outcome_ne_win (pos : Position) (noMoves : Bool) : outcome pos noMoves ≠ .win := by
  unfold outcome
  split
  · split <;> decide
  · split <;> decide

end Chess

/-! ## Games -/

namespace Game

/-- The turn passes with every move, and no move wins for the side that is to move then. -/
structure WonByMover (game : Game) : Prop where
  initial : ∃ start, game.initial = .ok start ∧ (game.outcome start).toOption = some .undetermined
  step : ∀ p next q, game.Playable p → game.outcome p = .ok .undetermined →
    game.successors p = .ok next → q ∈ next →
    q.mover = p.mover.opponent ∧ game.outcome q ≠ .ok .win

theorem wonByMover_drops (hdrops : ∃ type rule, rules.Drops type rule)
    (hpasses : ∀ type ∈ rules.pieces, ∀ rule ∈ type.moves, rule.continues = false)
    (hlines : ∀ ending ∈ rules.endings,
      RuleSet.fairly ending = true ∧ ending.condition ≠ .keyPiecesCaptured)
    (hinitial : ∃ start, initial ⟨rules, .template⟩ = .ok start ∧
      (outcome ⟨rules, .template⟩ start).toOption = some .undetermined) :
    WonByMover ⟨rules, .template⟩ where
  initial := hinitial
  step p next q hp hopen hnext hq := by
    obtain ⟨type, rule, h⟩ := hdrops
    have hfits := hp.fits h.valid
    have hnext' := successors_template.mp hnext
    have hcontinues : rule.continues = false := by
      apply hpasses type
      · rw [h.pieces]
        exact List.mem_singleton_self type
      · rw [h.moves]
        exact List.mem_singleton_self rule
    have hmover : q.mover = p.mover.opponent := by
      obtain ⟨s, last, -, -, rfl⟩ := h.exists_write hfits hnext' hq
      exact if_neg (by rw [hcontinues]; decide)
    have hgain := h.noGain hfits hnext' hq
    rw [← hmover] at hgain
    refine ⟨hmover, RuleSet.outcome_ne_win ?_ hopen fun ending hmem => ?_⟩
    · exact List.all_eq_true.mpr fun ending hmem => (hlines ending hmem).1
    · exact .of_noGain hgain (hlines ending hmem).2

theorem wonByMover_chess : WonByMover ⟨chess, .template⟩ where
  initial := exists_initial _ _ (by decide +kernel)
  step p next q hp hopen hnext hq := by
    have hfits := hp.fits (RuleSet.valid_of_validate rfl)
    obtain ⟨hmover, hkept⟩ := Chess.king_kept hfits (successors_template.mp hnext) hq
    have hking : ∀ entry ∈ chess.pieces.zipIdx, 0 < entry.1.min →
        entry.1.min = 1 ∧ entry.2 + 1 = 6 := by decide
    have hlines : ∀ ending ∈ chess.endings, ending.condition ≠ .nInARow := by decide
    refine ⟨hmover, RuleSet.outcome_ne_win (by decide) hopen fun ending hmem => ?_⟩
    refine .of_counts (fun entry hentry hfew => ?_) (hlines ending hmem)
    obtain ⟨hmin, hcode⟩ := hking entry hentry (by omega)
    rw [hmover, Side.opponent_opponent, hmin, hcode] at hfew ⊢
    by_contra hleft
    exact absurd (hkept (by omega)) (by omega)

theorem wonByMover_fullChess : WonByMover ⟨fullChess, .chess⟩ where
  initial := exists_initial _ _ (by decide +kernel)
  step p next q hp _ hnext hq := by
    have hsize : p.size = Chess.boardSize := hp.size_eq rfl
    have hnext' : successors ⟨fullChess, .chess⟩ p = .ok (Chess.successors p) :=
      successors_chess hsize
    rw [hnext] at hnext'
    refine ⟨Chess.mover_of_mem_successors (Except.ok.inj hnext' ▸ hq), fun hwin => ?_⟩
    obtain ⟨u, -, hwin⟩ := bind_eq_ok.mp hwin
    obtain ⟨noMoves, -, hwin⟩ := bind_eq_ok.mp hwin
    exact Chess.outcome_ne_win q noMoves (Except.ok.inj hwin)

/-- In a course of such a game only the side that made the last move has won. -/
theorem WonByMover.course (h : game.WonByMover) {n : Nat} (hcourse : game.Course n p)
    (ho : game.outcome p = .ok o) : o ≠ .win ∧ ∀ side, o.winner p.mover = some side →
      ∃ m q next, n = m + 1 ∧ game.Course m q ∧ game.outcome q = .ok .undetermined ∧
        game.successors q = .ok next ∧ p ∈ next ∧ q.mover = side := by
  cases hcourse with
  | initial hp =>
      obtain ⟨start, hstart, hopen⟩ := h.initial
      rw [hstart] at hp
      obtain rfl := Except.ok.inj hp
      rw [ok_of_toOption hopen] at ho
      obtain rfl := Except.ok.inj ho
      exact ⟨by decide, nofun⟩
  | @step m q _ next hcourse hopen hnext hmem =>
      obtain ⟨hmover, hne⟩ := h.step q next p hcourse.reachable.playable hopen hnext hmem
      have hlost : o ≠ .win := fun hwin => hne (hwin ▸ ho)
      refine ⟨hlost, fun side hside => ⟨m, q, next, rfl, hcourse, hopen, hnext, hmem, ?_⟩⟩
      cases o with
      | win => exact absurd rfl hlost
      | lose =>
          rw [Outcome.winner, hmover, Side.opponent_opponent] at hside
          exact Option.some.inj hside
      | undetermined | draw => cases hside

end Game

namespace Registry

theorem wonByMover_of_mem {id : String} (h : id ∈ ["tictactoe", "connect4", "chess", "chess2"]) :
    ∃ game, builtIn.create id = .ok game ∧ game.WonByMover := by
  simp only [List.mem_cons, List.not_mem_nil, or_false] at h
  rcases h with rfl | rfl | rfl | rfl
  · exact ⟨⟨ticTacToe, .template⟩, create_eq_ok.mpr (by simp [builtInGames]),
      Game.wonByMover_drops RuleSet.drops_ticTacToe (by decide) (by decide)
        (exists_initial _ _ (by decide +kernel))⟩
  · exact ⟨⟨connectFour, .template⟩, create_eq_ok.mpr (by simp [builtInGames]),
      Game.wonByMover_drops RuleSet.drops_connectFour (by decide) (by decide)
        (exists_initial _ _ (by decide +kernel))⟩
  · exact ⟨_, create_eq_ok.mpr (by simp [builtInGames]), Game.wonByMover_chess⟩
  · exact ⟨_, create_eq_ok.mpr (by simp [builtInGames]), Game.wonByMover_fullChess⟩

/-- In Tic-tac-toe, Connect Four and both kinds of chess a game that is over has been lost or
drawn by the side to move. If it has a winner, it is the side that made the last move. -/
theorem last_mover_wins {id : String} (h : id ∈ ["tictactoe", "connect4", "chess", "chess2"]) :
    ∃ game, builtIn.create id = .ok game ∧ ∀ n p, game.Course n p →
      ∃ o, game.outcome p = .ok o ∧ (o.isTerminal = true → o = .lose ∨ o = .draw) ∧
        ∀ side, o.winner p.mover = some side →
          ∃ m q next, n = m + 1 ∧ game.Course m q ∧ game.outcome q = .ok .undetermined ∧
            game.successors q = .ok next ∧ p ∈ next ∧ q.mover = side := by
  obtain ⟨game, hgame, hwon⟩ := wonByMover_of_mem h
  refine ⟨game, hgame, fun n p hcourse => ?_⟩
  obtain ⟨next, o, -, ho, -⟩ :=
    (endsWithin_of_reachable hgame hcourse.reachable).exists_next
  obtain ⟨hne, hwinner⟩ := hwon.course hcourse ho
  refine ⟨o, ho, fun hover => ?_, hwinner⟩
  cases o with
  | win => exact absurd rfl hne
  | lose => exact .inl rfl
  | draw => exact .inr rfl
  | undetermined => cases hover

/-- White fills a column of Tic-tac-toe in five plies. Black, who is to move, has lost, and white
has made the last move. -/
theorem last_mover_wins_ticTacToe :
    let game : Game := ⟨ticTacToe, .template⟩
    ∃ p, game.Course 5 p ∧ p.mover = .black ∧ game.outcome p = .ok .lose ∧
      ∃ q next, game.Course 4 q ∧ game.outcome q = .ok .undetermined ∧
        game.successors q = .ok next ∧ p ∈ next ∧ q.mover = .white := by
  intro game
  have hopen : ∀ earlier ∈ [0, 1, 0, 2, 0].tails.tail,
      ((game.after earlier).bind fun q => (game.outcome q).toOption) = some .undetermined := by
    decide +kernel
  have hlast : ((game.after [0, 1, 0, 2, 0]).any fun p => decide (p.mover = .black ∧
      (game.outcome p).toOption = some .lose)) = true := by
    decide +kernel
  cases hplayed : game.after [0, 1, 0, 2, 0] with
  | none =>
      rw [hplayed] at hlast
      cases hlast
  | some p =>
      rw [hplayed] at hlast
      obtain ⟨hmover, hlost⟩ := of_decide_eq_true hlast
      have hlost := ok_of_toOption hlost
      have hcourse := Game.course_of_after hopen hplayed
      have hknown : "tictactoe" ∈ ["tictactoe", "connect4", "chess", "chess2"] :=
        List.mem_cons_self
      have hgame : builtIn.create "tictactoe" = .ok game := create_eq_ok.mpr List.mem_cons_self
      obtain ⟨game', hgame', hwins⟩ := last_mover_wins hknown
      obtain rfl := Except.ok.inj (hgame.symm.trans hgame')
      obtain ⟨o, ho, -, hwinner⟩ := hwins 5 p hcourse
      rw [hlost] at ho
      obtain rfl := Except.ok.inj ho
      rw [hmover] at hwinner
      obtain ⟨m, q, next, hm, hearlier, hrest⟩ := hwinner .white rfl
      obtain rfl := Nat.succ.inj hm
      exact ⟨p, hcourse, hmover, hlost, q, next, hearlier, hrest⟩

end Registry

end BoardGame
