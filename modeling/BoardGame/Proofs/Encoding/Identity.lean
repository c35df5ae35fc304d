import BoardGame.Proofs.Search.Decision
/-!
# What moves are known by

Two successors of a position of a built-in game never have the same squares. So each move
has a name of its own and a place of its own in the policy, and a tree that is asked for the
name of a successor's move finds that successor.
-/

namespace BoardGame

open GameTree (Coherent)

variable {game : Game} {rules : RuleSet} {p q : Position} {next : List Position}

/-! ## Indices -/

/-- An index gives the target, and the origin where pieces on the board move. -/
theorem RuleSet.Indexed.squares_eq {m m' : LastMove} (h : rules.Indexed m)
    (h' : rules.Indexed m') (hindex : rules.moveIndex m = rules.moveIndex m') :
    (rules.moveSource = .piecesOnBoard → m.origin = m'.origin) ∧ m.target = m'.target := by
  have htarget : m.target.index rules.boardSize = m'.target.index rules.boardSize := by
    rw [← moveIndex_mod h, hindex, moveIndex_mod h']
  refine ⟨fun hsource => ?_, Square.index_injective h.target h'.target htarget⟩
  have horigin := h.source
  have horigin' := h'.source
  rw [hsource] at horigin horigin'
  have hsame : rules.sourceOf m = rules.sourceOf m' := by
    rw [← moveIndex_div h, hindex, moveIndex_div h']
  unfold sourceOf at hsame
  rw [hsource] at hsame
  exact Square.index_injective horigin horigin' hsame

/-! ## Squares -/

namespace Game

/-- A game that lists no successor twice and tells its moves by their squares. -/
structure Tells (game : Game) : Prop where
  nodup : ∀ p next, game.Reachable p → game.successors p = .ok next → next.Nodup
  squares : ∀ p next, game.Reachable p → game.successors p = .ok next →
    ∀ q ∈ next, ∀ q' ∈ next,
      (game.rules.moveSource = .piecesOnBoard → q.last.origin = q'.last.origin) →
        q.last.target = q'.last.target → q = q'

theorem tells_template (hvalid : rules.Valid) (htold : rules.Told)
    (hmoves : ∀ type ∈ rules.pieces, type.moves.Nodup) : Tells ⟨rules, .template⟩ := by
  have hboard := hvalid.boardSize_lt
  refine ⟨fun p next hp hnext => ?_, fun p next hp hnext q hq q' hq' horigin htarget => ?_⟩
  · have hnext := successors_template.mp hnext
    exact htold.nodup_successors hboard hmoves (hp.playable.fits hvalid).size hnext
  · have hnext := successors_template.mp hnext
    obtain ⟨c, hc, happly⟩ := RuleSet.exists_candidate hnext hq
    obtain ⟨c', hc', happly'⟩ := RuleSet.exists_candidate hnext hq'
    rw [RuleSet.last_of_apply happly, RuleSet.last_of_apply happly'] at horigin htarget
    obtain rfl := htold p (hp.playable.fits hvalid).size c hc c' hc' horigin htarget
    exact Except.ok.inj (happly.symm.trans happly')

theorem tells_chess : Tells Chess.game := by
  refine ⟨fun p next hp hnext => ?_, fun p next hp hnext q hq q' hq' horigin htarget => ?_⟩
  all_goals
    obtain ⟨moves, hplayed⟩ := Chess.exists_played hp
    obtain ⟨hagrees, hsound⟩ := Chess.agrees_of_played hplayed
    rw [hagrees.successors_eq] at hnext
    obtain rfl := Except.ok.inj hnext
  · exact (hagrees.nodup_successors hsound).of_map
  · apply List.inj_on_of_nodup_map (hagrees.nodup_successors hsound) hq hq'
    unfold Chess.moveOf
    rw [horigin rfl, htarget]

end Game

theorem Registry.tells_of_create {id : String} (h : builtIn.create id = .ok game) :
    game.Tells := by
  have hmem := create_eq_ok.mp h
  simp only [builtInGames, List.mem_cons, Prod.mk.injEq, List.not_mem_nil, or_false] at hmem
  rcases hmem with ⟨-, rfl⟩ | ⟨-, rfl⟩ | ⟨-, rfl⟩ | ⟨-, rfl⟩ | ⟨-, rfl⟩
  · exact Game.tells_template (RuleSet.valid_of_validate rfl) RuleSet.told_ticTacToe (by decide)
  · exact Game.tells_template (RuleSet.valid_of_validate rfl) RuleSet.told_connectFour (by decide)
  · exact Game.tells_template (RuleSet.valid_of_validate rfl) RuleSet.told_othello (by decide)
  · exact Game.tells_template (RuleSet.valid_of_validate rfl) RuleSet.told_chess (by decide)
  · exact Game.tells_chess

/-! ## Names in a tree -/

theorem find?_eq_some_of_nodup {α β : Type} [BEq β] [LawfulBEq β] {key : α → β} {l : List α}
    {a : α} (h : (l.map key).Nodup) (ha : a ∈ l) :
    l.find? (fun b => key b == key a) = some a := by
  cases hfound : l.find? fun b => key b == key a with
  | none => exact absurd (beq_self_eq_true (key a)) (List.find?_eq_none.mp hfound a ha)
  | some b =>
      have hkey := List.find?_some hfound
      rw [List.inj_on_of_nodup_map h (List.mem_of_find?_eq_some hfound) ha (eq_of_beq hkey)]

namespace GameTree

variable {tree : GameTree} {node c : NodeId} {moves : List NodeId}

theorem findNamed_moveName (h : Coherent game tree) (hp : tree.position? node = some p)
    (hnext : game.successors p = .ok next) (hnames : (next.map game.moveName).Nodup)
    (hmoves : tree.children? node = some moves) (hc : c ∈ moves) :
    ∃ name, value (moveNameFrom node c) tree = .ok name ∧
      value (findNamed node name) tree = .ok (some c) := by
  obtain ⟨hlisted, hlistedexec⟩ := legalMoves_of_children? hmoves
  obtain ⟨-, -, hspec⟩ := legalMoves_spec h hp
  rw [hnext] at hspec
  obtain ⟨ids, hids, hpositions⟩ := hspec
  obtain rfl := Except.ok.inj (hlisted.symm.trans hids)
  rw [hlistedexec] at hpositions
  obtain ⟨q, hq, hposition⟩ := exists_position_of_mem hpositions hc
  obtain ⟨hname, -⟩ := value_moveNameFrom h.game_eq hp hposition
  refine ⟨_, hname, ?_⟩
  have htest := fun a b hab => named_spec (c := a) (q := b) (game.moveName q) h.game_eq hab
  obtain ⟨r, hvalue, -, hshows, hmem⟩ := findM?_spec htest hpositions
  rw [find?_eq_some_of_nodup hnames hq] at hshows
  obtain ⟨c', rfl, hposition'⟩ := hshows.exists_slot
  have hslots : (moves.map tree.position?).Nodup := by
    rw [hpositions]
    exact hnames.of_map.map (Option.some_injective _)
  have hsame : c' = c := List.inj_on_of_nodup_map hslots (hmem c' rfl) hc
    (hposition'.trans hposition.symm)
  calc value (findNamed node (game.moveName q)) tree
      = value (legalMoves node >>= fun ids =>
          ids.findM? fun c => do return (← moveName c) == game.moveName q) tree :=
        congrArg Prod.fst (run_findNamed h hp _)
    _ = value (moves.findM? fun c => do return (← moveName c) == game.moveName q) tree := by
        rw [value_bind_of_ok hlisted, hlistedexec]
    _ = .ok (some c) := by rw [hvalue, hsame]

end GameTree

/-- The moves of a built-in game are known by their names and by their indices: wherever the
game has come to, no two successors share either, each index has its place in the policy, and
on a tree every successor of a node is what is found under the name of its move. -/
theorem moves_told_apart {id : String} (hgame : Registry.builtIn.create id = .ok game)
    (hp : game.Reachable p) :
    ∃ next, game.successors p = .ok next ∧ (next.map game.moveName).Nodup ∧
      (next.map fun q => game.rules.moveIndex q.last).Nodup ∧
      (∀ q ∈ next, game.rules.moveIndex q.last < game.rules.policySize) ∧
      ∀ (start : Position) (tree : GameTree) (node : NodeId), start.depth < maxDepth →
        GameTree.Grown game start tree → tree.position? node = some p →
        ∃ moves, GameTree.value (GameTree.legalMoves node) tree = .ok moves ∧
          let after := GameTree.exec (GameTree.legalMoves node) tree
          moves.map after.position? = next.map some ∧
          ∀ c ∈ moves, ∃ name, GameTree.value (GameTree.moveNameFrom node c) after = .ok name ∧
            GameTree.value (GameTree.findNamed node name) after = .ok (some c) := by
  have hregular := Registry.regular_of_create hgame
  have hencodable := Registry.encodable_of_create hgame
  have htells := Registry.tells_of_create hgame
  obtain ⟨next, hnext⟩ := hregular.successors p hp.playable
  have hnodup := htells.nodup p next hp hnext
  have hindexed := hencodable.indexed p next hp hnext
  have hnames : (next.map game.moveName).Nodup :=
    hnodup.map_on (hregular.moveName p next hp.playable hnext)
  refine ⟨next, hnext, hnames, hnodup.map_on fun q hq q' hq' hindex => ?_,
    fun q hq => (hindexed q hq).moveIndex_lt, fun start tree node hstart htree hnode => ?_⟩
  · obtain ⟨horigin, htarget⟩ := (hindexed q hq).squares_eq (hindexed q' hq') hindex
    exact htells.squares p next hp hnext q hq q' hq' horigin htarget
  · obtain ⟨hcoherent, -⟩ := htree.coherent hstart
    obtain ⟨hafter, hgrows, hspec⟩ := GameTree.legalMoves_spec hcoherent hnode
    rw [hnext] at hspec
    obtain ⟨moves, hmoves, hpositions⟩ := hspec
    refine ⟨moves, hmoves, hpositions, fun c hc => ?_⟩
    exact GameTree.findNamed_moveName hafter (hgrows.position? node p hnode) hnext hnames
      (GameTree.children?_legalMoves hcoherent.arena hmoves) hc

/-- The first moves of a game of chess. -/
theorem moves_told_apart_chess :
    ∃ start next, Chess.game.initial = .ok start ∧ Chess.game.successors start = .ok next ∧
      next.length = 20 ∧ (next.map Chess.game.moveName).Nodup ∧
      let tree := GameTree.ofPosition Chess.game start
      ∃ moves, GameTree.value (GameTree.legalMoves tree.start) tree = .ok moves ∧
        let after := GameTree.exec (GameTree.legalMoves tree.start) tree
        ∀ c ∈ moves, ∃ name,
          GameTree.value (GameTree.moveNameFrom tree.start c) after = .ok name ∧
          GameTree.value (GameTree.findNamed tree.start name) after = .ok (some c) := by
  have hstart := Chess.initial_eq
  obtain ⟨next, hnext, hnames, -, -, htree⟩ :=
    moves_told_apart Chess.create_chess2 (.initial hstart)
  refine ⟨_, next, hstart, hnext, ?_, hnames, ?_⟩
  · have hsize : Chess.startPosition.size = Chess.boardSize := rfl
    have hmoves : Chess.game.successors Chess.startPosition =
        .ok (Chess.successors Chess.startPosition) := Game.successors_chess hsize
    rw [Except.ok.inj (hnext.symm.trans hmoves)]
    decide +kernel
  · obtain ⟨moves, hmoves, -, hfound⟩ :=
      htree _ _ _ (by decide) .ofPosition (GameTree.rooted_ofPosition Chess.game _)
    exact ⟨moves, hmoves, hfound⟩

end BoardGame
