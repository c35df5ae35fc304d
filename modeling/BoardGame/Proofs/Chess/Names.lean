import BoardGame.Proofs.Chess.Generator
import BoardGame.Proofs.Moves.Names
/-!
# Names of chess moves

A chess move is told by its origin and its target, and both can be read off its name. That
holds for any board, also for one that no game leads to: there castling may take the king
beyond the edge, to a square with a name of its own or to one that is written as a dash.
-/

namespace BoardGame.Chess

open Laws

variable {pos q q' : Position} {s t : Square} {king : Option Square}

/-! ## Origin and target -/

theorem moveOf_of_mem_movesFrom (hon : OnBoard s) (h : q ∈ movesFrom pos king s) :
    (moveOf q).origin = s ∧
      ((moveOf q).target.Short ∨ (moveOf q).target = ⟨s.x - 2, s.y⟩ ∧ s.x < 2) := by
  have hs := hon
  unfold OnBoard at hs
  obtain ⟨kind, -, hsteps | hcastles⟩ := exists_kind_of_mem hon h
  · obtain ⟨t, -, hmove, ht, -⟩ := moveOf_of_mem_steps hsteps
    rw [hmove]
    exact ⟨rfl, Or.inl (Square.short_of_onBoard (by decide) (onBoard_iff_laws.mpr ht))⟩
  · obtain ⟨-, ⟨-, hmove⟩ | ⟨-, hmove⟩⟩ := mem_castlings_cases hcastles
    · rw [hmove]
      refine ⟨rfl, ?_⟩
      by_cases hx : s.x < 2
      · exact Or.inr ⟨rfl, hx⟩
      · refine Or.inl ?_
        unfold Square.Short
        dsimp only
        omega
    · rw [hmove]
      refine ⟨rfl, Or.inl ?_⟩
      unfold Square.Short
      dsimp only
      omega

theorem eq_of_moveOf_eq (hon : OnBoard s) (h : q ∈ movesFrom pos king s)
    (h' : q' ∈ movesFrom pos king s) (hmove : moveOf q = moveOf q') : q = q' := by
  obtain ⟨kind, hs, hmem⟩ := exists_kind_of_mem hon h
  obtain ⟨kind', hs', hmem'⟩ := exists_kind_of_mem hon h'
  obtain rfl : kind = kind' := (code_mul_inj (hs.symm.trans hs')).1
  rcases hmem with hstep | hcastle <;> rcases hmem' with hstep' | hcastle'
  · obtain ⟨t, -, hq, -, hmoved⟩ := moveOf_of_mem_steps hstep
    obtain ⟨t', -, hq', -, hmoved'⟩ := moveOf_of_mem_steps hstep'
    rw [hq, hq'] at hmove
    obtain rfl : t = t' := (Move.mk.inj hmove).2
    exact Option.some.inj (hmoved.symm.trans hmoved')
  · exact absurd hmove (moveOf_step_ne_castling hstep hcastle')
  · exact absurd hmove.symm (moveOf_step_ne_castling hstep' hcastle)
  · obtain ⟨-, hcases⟩ := mem_castlings_cases hcastle
    obtain ⟨-, hcases'⟩ := mem_castlings_cases hcastle'
    rw [hmove] at hcases
    rcases hcases with ⟨hq, hto⟩ | ⟨hq, hto⟩ <;> rcases hcases' with ⟨hq', hto'⟩ | ⟨hq', hto'⟩
    · exact Option.some.inj (hq.symm.trans hq')
    · exact absurd (hto.symm.trans hto') (castlings_apart s)
    · exact absurd (hto'.symm.trans hto) (castlings_apart s)
    · exact Option.some.inj (hq.symm.trans hq')

/-! ## Names -/

theorem toList_moveName (q : Position) : ∃ mark : List Char, (moveName q).toList =
    (moveOf q).origin.name.toList ++ ((moveOf q).target.name.toList ++ mark) := by
  unfold moveName
  dsimp only
  rw [String.toList_append, String.toList_append, List.append_assoc]
  exact ⟨_, rfl⟩

theorem toList_name_ne_dash (ht : t.Short) {cs ds : List Char} :
    t.name.toList ++ cs ≠ "-".toList ++ ds := by
  have hletter : ∀ i : Fin 26, Char.ofNat ('a'.toNat + i) ≠ '-' := by decide
  obtain ⟨⟨hx, hx26⟩, -⟩ := id ht
  rw [Square.toList_name ht]
  intro heq
  exact hletter ⟨t.x.toNat, by omega⟩ (List.cons.inj heq).1

/-- Moves of the same name lead to the same position. -/
theorem eq_of_moveName_eq (h : q ∈ successors pos) (h' : q' ∈ successors pos)
    (hname : moveName q = moveName q') : q = q' := by
  obtain ⟨s, hon, hmem⟩ := mem_successors.mp h
  obtain ⟨s', hon', hmem'⟩ := mem_successors.mp h'
  obtain ⟨horigin, htarget⟩ := moveOf_of_mem_movesFrom hon hmem
  obtain ⟨horigin', htarget'⟩ := moveOf_of_mem_movesFrom hon' hmem'
  obtain ⟨mark, hlist⟩ := toList_moveName q
  obtain ⟨mark', hlist'⟩ := toList_moveName q'
  rw [hname, hlist', horigin, horigin'] at hlist
  obtain ⟨rfl, hrest⟩ := Square.name_append_inj
    (Square.short_of_onBoard (by decide) (onBoard_iff_laws.mpr hon'))
    (Square.short_of_onBoard (by decide) (onBoard_iff_laws.mpr hon)) hlist
  apply eq_of_moveOf_eq hon hmem hmem'
  suffices hsame : (moveOf q).target = (moveOf q').target by
    cases hq : moveOf q
    cases hq' : moveOf q'
    rw [hq] at horigin hsame
    rw [hq'] at horigin' hsame
    rw [Move.mk.injEq]
    exact ⟨horigin.trans horigin'.symm, hsame⟩
  rcases htarget with hshort | ⟨hdash, hx⟩ <;> rcases htarget' with hshort' | ⟨hdash', hx'⟩
  · exact (Square.name_append_inj hshort hshort' hrest.symm).1
  · rw [Square.name_of_neg (by rw [hdash']; dsimp only; omega)] at hrest
    exact absurd hrest.symm (toList_name_ne_dash hshort)
  · rw [Square.name_of_neg (s := (moveOf q).target) (by rw [hdash]; dsimp only; omega)] at hrest
    exact absurd hrest (toList_name_ne_dash hshort')
  · rw [hdash, hdash']

end BoardGame.Chess
