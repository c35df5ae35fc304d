import BoardGame.Search.Rollout
import BoardGame.Proofs.Computation
import BoardGame.Proofs.Ending.Conditions
import BoardGame.Proofs.Games
import BoardGame.Proofs.Search.Picking
/-!
# Games that end

A game comes to its end if every position that is not decided has successors and a number
of plies that are left gets smaller with each of them. Then the courses that a game can
take are bounded, and every rollout arrives at an outcome.
-/

namespace BoardGame

variable {game : Game} {p q : Position} {next : List Position} {n m bound : Nat}

/-! ## Courses of a game -/

namespace Game

/-- The positions that a game comes to in a number of plies, none of which was made in a
position that had been decided. -/
inductive Course (game : Game) : Nat → Position → Prop where
  | initial {p : Position} (h : game.initial = .ok p) : game.Course 0 p
  | step {n : Nat} {p q : Position} {next : List Position} (h : game.Course n p)
      (hopen : game.outcome p = .ok .undetermined) (hnext : game.successors p = .ok next)
      (hq : q ∈ next) : game.Course (n + 1) q

theorem Course.reachable (h : game.Course n p) : game.Reachable p := by
  induction h with
  | initial h => exact .initial h
  | step _ _ hnext hq ih => exact ih.step hnext hq

theorem course_of_after {plies : List Nat} (hopen : ∀ earlier ∈ plies.tails.tail,
      ((game.after earlier).bind fun q => (game.outcome q).toOption) = some .undetermined)
    (h : game.after plies = some p) : game.Course plies.length p := by
  induction plies generalizing p with
  | nil => exact .initial (ok_of_toOption h)
  | cons i earlier ih =>
      obtain ⟨before, hbefore, h⟩ := Option.bind_eq_some_iff.mp h
      obtain ⟨positions, hpositions, h⟩ := Option.bind_eq_some_iff.mp h
      rw [List.tails_cons, List.tail_cons] at hopen
      have hcourse := ih (fun e he => hopen e (List.mem_of_mem_tail he)) hbefore
      have hundetermined := hopen earlier ((List.mem_tails earlier earlier).mpr List.suffix_rfl)
      rw [hbefore, Option.bind_some] at hundetermined
      exact hcourse.step (ok_of_toOption hundetermined) (ok_of_toOption hpositions)
        (List.mem_of_getElem? h)

/-- The game is over after at most so many plies from a position, whichever moves are made,
and until then there are moves. -/
inductive EndsWithin (game : Game) : Nat → Position → Prop where
  | ended {n : Nat} {p : Position} {next : List Position} {o : Outcome}
      (hnext : game.successors p = .ok next) (houtcome : game.outcome p = .ok o)
      (hover : o ≠ .undetermined) : game.EndsWithin n p
  | onward {n : Nat} {p : Position} {next : List Position}
      (hnext : game.successors p = .ok next) (hopen : game.outcome p = .ok .undetermined)
      (hmoves : next ≠ []) (h : ∀ q ∈ next, game.EndsWithin n q) : game.EndsWithin (n + 1) p

/-- From wherever it has come to, the game ends before a rollout is given up. -/
def Ends (game : Game) : Prop :=
  ∀ p, game.Reachable p → ∃ n < Rollout.maxPlies, game.EndsWithin n p

namespace EndsWithin

/-- What a position has until the end: successors, an outcome, and a move if it is open. -/
theorem exists_next (h : game.EndsWithin n p) :
    ∃ next o, game.successors p = .ok next ∧ game.outcome p = .ok o ∧
      (o = .undetermined → next ≠ []) := by
  cases h with
  | ended hnext houtcome hover => exact ⟨_, _, hnext, houtcome, fun ho => absurd ho hover⟩
  | onward hnext hopen hmoves _ => exact ⟨_, _, hnext, hopen, fun _ => hmoves⟩

theorem step (h : game.EndsWithin n p) (hopen : game.outcome p = .ok .undetermined)
    (hnext : game.successors p = .ok next) (hq : q ∈ next) :
    ∃ m, n = m + 1 ∧ game.EndsWithin m q := by
  cases h with
  | ended _ houtcome hover =>
      rw [hopen] at houtcome
      exact absurd (Except.ok.inj houtcome).symm hover
  | onward hnext' _ _ h =>
      rw [hnext] at hnext'
      exact ⟨_, rfl, h q (Except.ok.inj hnext' ▸ hq)⟩

theorem mono (h : game.EndsWithin n p) (hle : n ≤ m) : game.EndsWithin m p := by
  induction h generalizing m with
  | ended hnext houtcome hover => exact .ended hnext houtcome hover
  | onward hnext hopen hmoves _ ih =>
      obtain ⟨m, rfl⟩ : ∃ k, m = k + 1 := ⟨m - 1, by omega⟩
      exact .onward hnext hopen hmoves fun q hq => ih q hq (by omega)

end EndsWithin

theorem Course.endsWithin (hstart : ∀ p, game.initial = .ok p → game.EndsWithin bound p)
    (h : game.Course n p) : ∃ m, n + m = bound ∧ game.EndsWithin m p := by
  induction h with
  | initial h => exact ⟨bound, Nat.zero_add _, hstart _ h⟩
  | step _ hopen hnext hq ih =>
      obtain ⟨m, hm, hends⟩ := ih
      obtain ⟨k, rfl, hk⟩ := hends.step hopen hnext hq
      exact ⟨k, by omega, hk⟩

/-! ## Counting plies -/

/-- `left` counts plies: none is left for ever in an open position, and there is one less
after each. -/
structure Measure (game : Game) (bound : Nat) (left : Nat → Position → Prop) : Prop where
  initial : ∀ p, game.initial = .ok p → left bound p
  successors : ∀ n p, left n p → ∃ next, game.successors p = .ok next ∧ ∀ q ∈ next, left (n - 1) q
  onward : ∀ n p next, left n p → game.successors p = .ok next →
    game.outcome p = .ok .undetermined → next ≠ [] ∧ 0 < n

namespace Measure

variable {left : Nat → Position → Prop}

theorem endsWithin (h : game.Measure bound left) (hp : left n p) : game.EndsWithin n p := by
  induction n generalizing p with
  | zero =>
      obtain ⟨next, hnext, -⟩ := h.successors 0 p hp
      obtain ⟨o, ho⟩ := exists_outcome hnext
      refine .ended hnext ho fun hopen => ?_
      exact absurd (h.onward 0 p next hp hnext (hopen ▸ ho)).2 (Nat.lt_irrefl 0)
  | succ n ih =>
      obtain ⟨next, hnext, hleft⟩ := h.successors (n + 1) p hp
      obtain ⟨o, ho⟩ := exists_outcome hnext
      by_cases hopen : o = .undetermined
      · rw [hopen] at ho
        have hmoves := (h.onward (n + 1) p next hp hnext ho).1
        exact .onward hnext ho hmoves fun q hq => ih (hleft q hq)
      · exact .ended hnext ho hopen

theorem exists_left (h : game.Measure bound left) (hp : game.Reachable p) :
    ∃ n ≤ bound, left n p := by
  induction hp with
  | initial hp => exact ⟨bound, Nat.le_refl _, h.initial _ hp⟩
  | step _ hnext hq ih =>
      obtain ⟨n, hn, hp⟩ := ih
      obtain ⟨next, hnext', hleft⟩ := h.successors n _ hp
      rw [hnext] at hnext'
      exact ⟨n - 1, by omega, hleft _ (Except.ok.inj hnext' ▸ hq)⟩

/-- A game that counts its plies ends from wherever it has come to. -/
theorem endsWithin_of_reachable (h : game.Measure bound left) (hp : game.Reachable p) :
    game.EndsWithin bound p := by
  obtain ⟨n, hn, hleft⟩ := h.exists_left hp
  exact (h.endsWithin hleft).mono hn

end Measure

end Game

/-! ## Rollouts -/

namespace Rollout

open Stateful

variable {g : Generator}

theorem runs_liftM {α : Type} {x : Except EngineError α} {a : α} (h : x = .ok a) :
    Runs (liftM x : ChanceM α) g (.ok a) g := by
  rw [h]
  rfl

theorem exists_verdicts (mover : Side)
    (houtcome : ∀ q ∈ next, ∃ o, game.outcome q = .ok o) :
    ∃ verdicts, Rollout.verdicts game mover next = .ok verdicts ∧
      verdicts.length = next.length := by
  obtain ⟨verdicts, hverdicts⟩ : ∃ verdicts, Rollout.verdicts game mover next = .ok verdicts := by
    apply exists_mapM_eq_ok
    intro q hq
    obtain ⟨o, ho⟩ := houtcome q hq
    rw [ho]
    exact ⟨_, rfl⟩
  exact ⟨verdicts, hverdicts, (mapM_eq_ok_iff.mp hverdicts).length_eq.symm⟩

/-- A rollout of enough plies arrives at an outcome. -/
theorem exists_playFrom (h : game.EndsWithin n p) (fuel : Nat) (hfuel : n < fuel)
    (g : Generator) : ∃ side o after, Runs (playFrom game fuel p) g (.ok (side, o)) after ∧
      o ≠ .undetermined := by
  induction h generalizing fuel g with
  | @ended n p next o hnext houtcome hover =>
      obtain ⟨fuel, rfl⟩ : ∃ k, fuel = k + 1 := ⟨fuel - 1, by omega⟩
      refine ⟨p.mover, o, g, ?_, hover⟩
      refine (runs_liftM houtcome).bind ?_
      rw [if_pos (by simpa [Outcome.isTerminal] using hover)]
      rfl
  | @onward n p next hnext hopen hmoves h ih =>
      obtain ⟨fuel, rfl⟩ : ∃ k, fuel = k + 1 := ⟨fuel - 1, by omega⟩
      have houtcome : ∀ q ∈ next, ∃ o, game.outcome q = .ok o := by
        intro q hq
        obtain ⟨_, o, -, ho, -⟩ := (h q hq).exists_next
        exact ⟨o, ho⟩
      obtain ⟨verdicts, hverdicts, hlength⟩ := exists_verdicts p.mover houtcome
      have hne : verdicts ≠ [] := by
        rw [← List.length_pos_iff, hlength]
        exact List.length_pos_iff.mpr hmoves
      obtain ⟨i, hpick, hi, -⟩ := pickIndex_spec hne (next.map fun _ => 1) g
      obtain ⟨q, hq⟩ : ∃ q, next[i]? = some q := ⟨_, List.getElem?_eq_getElem (hlength ▸ hi)⟩
      have hdraw : Runs (liftM (pickIndex verdicts (next.map fun _ => 1)) : ChanceM _) g
          (.ok (some i)) (pickIndex verdicts (next.map fun _ => 1) g).2 := by
        rw [← hpick]
        rfl
      obtain ⟨side, o, after, hruns, ho⟩ := ih q (List.mem_of_getElem? hq) fuel (by omega)
        (pickIndex verdicts (next.map fun _ => 1) g).2
      refine ⟨side, o, after, ?_, ho⟩
      refine (runs_liftM hopen).bind ?_
      rw [if_neg (by decide)]
      refine (runs_liftM hnext).bind ((runs_liftM hverdicts).bind (hdraw.bind ?_))
      rw [Option.bind_some, hq]
      exact hruns

end Rollout

theorem exists_rollout (h : game.EndsWithin n p) (hn : n < Rollout.maxPlies) (g : Generator) :
    ∃ side o after, Stateful.Runs (rollout game p) g (.ok (side, o)) after ∧ o ≠ .undetermined :=
  Rollout.exists_playFrom h Rollout.maxPlies hn g

end BoardGame
