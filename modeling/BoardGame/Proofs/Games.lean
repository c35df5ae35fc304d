import BoardGame.Registry
import BoardGame.Proofs.Chess.Fen.Record
import BoardGame.Proofs.Chess.Names
import BoardGame.Proofs.Moves.Totality
/-!
# What the built-in games have in common

Lines of moves start at the initial position of a game or at one that the game reads from
text. As far as lines go, the built-in games never fail, and successors whose moves have
the same name are the same position.
-/

namespace BoardGame

variable {game : Game} {rules : RuleSet} {p q : Position} {next : List Position}

/-! ## Regular games -/

namespace Game

/-- The positions that lines of moves pass through. -/
inductive Playable (game : Game) : Position → Prop where
  | initial {p : Position} (h : game.initial = .ok p) : game.Playable p
  | read {text : String} {p : Position} (h : game.readPosition text = .ok p) : game.Playable p
  | step {p q : Position} {next : List Position} (h : game.Playable p)
      (hnext : game.successors p = .ok next) (hq : q ∈ next) : game.Playable q

theorem Reachable.playable (h : game.Reachable p) : game.Playable p := by
  induction h with
  | initial h => exact .initial h
  | step _ hnext hq ih => exact .step ih hnext hq

/-- A game that does not fail on the way and whose moves are told by their names. -/
structure Regular (game : Game) : Prop where
  depth_le : ∀ p, game.Playable p → p.depth ≤ maxDepth
  successors : ∀ p, game.Playable p → ∃ next, game.successors p = .ok next
  outcome : ∀ p, game.Playable p → ∃ o, game.outcome p = .ok o
  moveName : ∀ p next, game.Playable p → game.successors p = .ok next →
    ∀ q ∈ next, ∀ q' ∈ next, game.moveName q = game.moveName q' → q = q'

theorem exists_outcome (h : game.successors p = .ok next) : ∃ o, game.outcome p = .ok o := by
  obtain ⟨rules, engine⟩ := game
  have hmoves : stuck ⟨rules, engine⟩ p = .ok next.isEmpty := by
    rw [stuck_eq_isEmpty, h]
    rfl
  unfold outcome
  rw [hmoves]
  cases engine with
  | template => exact RuleSet.exists_outcome rules p rfl
  | chess =>
      obtain ⟨u, hcheck, -⟩ := bind_eq_ok.mp h
      show ∃ o, (Chess.checkBoard p >>= fun _ => _) = _
      rw [hcheck]
      exact ⟨_, rfl⟩

theorem initial_of_eq_ok (h : game.initial = .ok p) : Position.initial game.rules = .ok p :=
  liftM_eq_ok.mp h

theorem of_readPosition {text : String} (h : readPosition ⟨rules, .chess⟩ text = .ok p) :
    p.size = Chess.boardSize ∧ p.depth ≤ maxDepth := by
  have hread : (Chess.Fen.read text).mapError EngineError.parse = .ok p := h
  cases htext : Chess.Fen.read text with
  | error fault =>
      rw [htext] at hread
      cases hread
  | ok p' =>
      rw [htext] at hread
      cases hread
      have hrecorded := Chess.Fen.recorded_of_readFields (Chess.Fen.read_eq_ok.mp htext)
      obtain ⟨number, hdepth⟩ := hrecorded.depth
      exact ⟨congrArg Position.size hrecorded.rest, (Chess.Fen.depthOf_eq_ok.mp hdepth).2⟩

theorem Playable.depth_le (h : game.Playable p) : p.depth ≤ maxDepth := by
  induction h with
  | initial h =>
      rw [RuleSet.depth_initial (initial_of_eq_ok h)]
      exact Nat.zero_le _
  | read h =>
      obtain ⟨rules, engine⟩ := game
      cases engine with
      | template => cases h
      | chess => exact (of_readPosition h).2
  | step _ hnext hq => exact (follows_of_mem_successors hnext hq).depth_le

/-! ## Games by templates -/

theorem successors_template :
    successors ⟨rules, .template⟩ p = .ok next ↔ rules.successors p = .ok next :=
  liftM_eq_ok

theorem Playable.fits (hvalid : rules.Valid) (h : Playable ⟨rules, .template⟩ p) :
    rules.Fits p := by
  induction h with
  | initial h =>
      have hp := initial_of_eq_ok h
      exact RuleSet.fits_initial hvalid.pieces_le hp
  | read h => cases h
  | step _ hnext hq ih =>
      have hnext' := successors_template.mp hnext
      obtain ⟨positions, hpositions, hfits⟩ := ih.exists_successors hvalid
      rw [hnext'] at hpositions
      exact hfits _ (Except.ok.inj hpositions ▸ hq)

theorem regular_template (hvalid : rules.validate = .ok ()) (htold : rules.Told)
    (hsize : rules.boardSize ≤ 9) : Regular ⟨rules, .template⟩ := by
  have valid := RuleSet.valid_of_validate hvalid
  refine ⟨fun p h => h.depth_le, ?_, ?_, ?_⟩
  · intro p h
    obtain ⟨next, hnext, -⟩ := (h.fits valid).exists_successors valid
    exact ⟨next, successors_template.mpr hnext⟩
  · intro p h
    obtain ⟨next, hnext, -⟩ := (h.fits valid).exists_successors valid
    exact exists_outcome (successors_template.mpr hnext)
  · intro p next h hnext q hq q' hq' hname
    exact RuleSet.eq_of_moveName_eq htold hsize valid.pieces_le (h.fits valid).size
      (successors_template.mp hnext) hq hq' hname

/-! ## Chess -/

theorem successors_chess (hsize : p.size = Chess.boardSize) :
    successors ⟨rules, .chess⟩ p = .ok (Chess.successors p) := by
  have hcheck : Chess.checkBoard p = .ok () := if_pos hsize
  show (Chess.checkBoard p >>= fun _ => _) = _
  rw [hcheck]
  rfl

theorem readPosition_chess {text : String} (h : Chess.Fen.read text = .ok p) :
    readPosition ⟨rules, .chess⟩ text = .ok p := by
  unfold readPosition
  dsimp only
  rw [h]
  rfl

theorem Playable.size_eq (hrules : rules.boardSize = Chess.boardSize)
    (h : Playable ⟨rules, .chess⟩ p) : p.size = Chess.boardSize := by
  induction h with
  | initial h =>
      obtain ⟨board, -, hpos⟩ := bind_eq_ok.mp (initial_of_eq_ok h)
      rw [← Except.ok.inj hpos]
      exact hrules
  | read h => exact (of_readPosition h).1
  | step _ hnext hq ih => exact (follows_of_mem_successors hnext hq).size_eq.trans ih

theorem regular_chess (hrules : rules.boardSize = Chess.boardSize) :
    Regular ⟨rules, .chess⟩ := by
  refine ⟨fun p h => h.depth_le, ?_, ?_, ?_⟩
  · intro p h
    exact ⟨_, successors_chess (h.size_eq hrules)⟩
  · intro p h
    exact exists_outcome (successors_chess (h.size_eq hrules))
  · intro p next h hnext q hq q' hq' hname
    rw [successors_chess (h.size_eq hrules)] at hnext
    obtain rfl := Except.ok.inj hnext
    exact Chess.eq_of_moveName_eq hq hq' hname

end Game

/-! ## The registry -/

namespace Registry

variable {id : String}

theorem create_register (registry : Registry) (id' : String) (made : Except EngineError Game) :
    (registry.register id' made).create id = if id' = id then made else registry.create id := by
  unfold create register
  rw [Std.TreeMap.getElem?_insert]
  by_cases h : id' = id
  · rw [if_pos h, if_pos (Std.LawfulEqCmp.compare_eq_iff_eq.mpr h)]
  · rw [if_neg h, if_neg (mt Std.LawfulEqCmp.compare_eq_iff_eq.mp h)]

theorem create_empty : empty.create id = .error (.unknownGame id) := by
  unfold create empty
  rw [Std.TreeMap.getElem?_emptyc]

open BuiltIn

/-- The built-in games by their identifiers. -/
def builtInGames : List (String × Game) :=
  [("tictactoe", ⟨ticTacToe, .template⟩), ("connect4", ⟨connectFour, .template⟩),
    ("othello", ⟨othello, .template⟩), ("chess", ⟨chess, .template⟩),
    ("chess2", ⟨fullChess, .chess⟩)]

/-- The built-in registry makes these games and no other. -/
theorem create_eq_ok : builtIn.create id = .ok game ↔ (id, game) ∈ builtInGames := by
  have hticTacToe : Game.ofRules ticTacToe .template = .ok ⟨ticTacToe, .template⟩ := rfl
  have hconnectFour : Game.ofRules connectFour .template = .ok ⟨connectFour, .template⟩ := rfl
  have hothello : Game.ofRules othello .template = .ok ⟨othello, .template⟩ := rfl
  have hchess : Game.ofRules chess .template = .ok ⟨chess, .template⟩ := rfl
  have hfullChess : Game.ofRules fullChess .chess = .ok ⟨fullChess, .chess⟩ := rfl
  unfold builtIn builtInGames
  simp only [create_register, create_empty, hticTacToe, hconnectFour, hothello, hchess, hfullChess,
    List.mem_cons, Prod.mk.injEq, List.not_mem_nil, or_false, @eq_comm _ id, @eq_comm _ game]
  constructor
  · intro h
    split at h
    · next heq => exact .inr (.inr (.inr (.inr ⟨heq, Except.ok.inj h⟩)))
    split at h
    · next heq => exact .inr (.inr (.inr (.inl ⟨heq, Except.ok.inj h⟩)))
    split at h
    · next heq => exact .inr (.inr (.inl ⟨heq, Except.ok.inj h⟩))
    split at h
    · next heq => exact .inr (.inl ⟨heq, Except.ok.inj h⟩)
    split at h
    · next heq => exact .inl ⟨heq, Except.ok.inj h⟩
    · cases h
  · rintro (⟨rfl, rfl⟩ | ⟨rfl, rfl⟩ | ⟨rfl, rfl⟩ | ⟨rfl, rfl⟩ | ⟨rfl, rfl⟩) <;>
      simp only [String.reduceEq, if_true, if_false]

theorem regular_of_create (h : builtIn.create id = .ok game) : game.Regular := by
  have hmem := create_eq_ok.mp h
  simp only [builtInGames, List.mem_cons, Prod.mk.injEq, List.not_mem_nil, or_false] at hmem
  rcases hmem with ⟨-, rfl⟩ | ⟨-, rfl⟩ | ⟨-, rfl⟩ | ⟨-, rfl⟩ | ⟨-, rfl⟩
  · exact Game.regular_template rfl RuleSet.told_ticTacToe (by decide)
  · exact Game.regular_template rfl RuleSet.told_connectFour (by decide)
  · exact Game.regular_template rfl RuleSet.told_othello (by decide)
  · exact Game.regular_template rfl RuleSet.told_chess (by decide)
  · exact Game.regular_chess rfl

end Registry

end BoardGame
