import BoardGame.Proofs.Computation
/-!
# Computations under audit

A ledger is kept beside a state and notes what the state does not remember. Every basic step
of a computation says what it makes of the ledger, and for a step that is out of order there
is no entry. So a computation that can be traced to its end has taken no such step.
-/

namespace BoardGame.Stateful

variable {ε σ γ α β : Type} {Step : ∀ α : Type, ExceptT ε (StateM σ) α → σ → γ → γ → Prop}

/-- The computation, begun in a state with a ledger, is made of basic steps that lead to another
ledger. -/
inductive Traced (Step : ∀ α : Type, ExceptT ε (StateM σ) α → σ → γ → γ → Prop) :
    ∀ {α : Type}, ExceptT ε (StateM σ) α → σ → γ → γ → Prop
  | step {α : Type} {x : ExceptT ε (StateM σ) α} {s : σ} {g g' : γ} (h : Step α x s g g') :
      Traced Step x s g g'
  | pure {α : Type} (a : α) (s : σ) (g : γ) : Traced Step (Pure.pure a) s g g
  | throw {α : Type} (e : ε) (s : σ) (g : γ) :
      Traced Step (MonadExcept.throw e : ExceptT ε (StateM σ) α) s g g
  | bind {α β : Type} {x : ExceptT ε (StateM σ) α} {f : α → ExceptT ε (StateM σ) β} {s : σ}
      {g m g' : γ} {a : α} (hx : Traced Step x s g m) (ha : value x s = .ok a)
      (hf : Traced Step (f a) (exec x s) m g') : Traced Step (x >>= f) s g g'
  | bind_error {α β : Type} {x : ExceptT ε (StateM σ) α} {f : α → ExceptT ε (StateM σ) β}
      {s : σ} {g g' : γ} {e : ε} (hx : Traced Step x s g g') (he : value x s = .error e) :
      Traced Step (x >>= f) s g g'
  | tryCatch {α : Type} {x : ExceptT ε (StateM σ) α} {handle : ε → ExceptT ε (StateM σ) α}
      {s : σ} {g g' : γ} {a : α} (hx : Traced Step x s g g') (ha : value x s = .ok a) :
      Traced Step (MonadExcept.tryCatch x handle) s g g'
  | tryCatch_error {α : Type} {x : ExceptT ε (StateM σ) α}
      {handle : ε → ExceptT ε (StateM σ) α} {s : σ} {g m g' : γ} {e : ε}
      (hx : Traced Step x s g m) (he : value x s = .error e)
      (hhandle : Traced Step (handle e) (exec x s) m g') :
      Traced Step (MonadExcept.tryCatch x handle) s g g'

/-- Begun where `pre` holds of state and ledger, the computation can be traced to a ledger for
which `post` holds of its result and the state it leaves. -/
def Audited (Step : ∀ α : Type, ExceptT ε (StateM σ) α → σ → γ → γ → Prop) (pre : σ → γ → Prop)
    (x : ExceptT ε (StateM σ) α) (post : Except ε α → σ → γ → Prop) : Prop :=
  ∀ s g, pre s g → ∃ g', Traced Step x s g g' ∧ post (value x s) (exec x s) g'

namespace Audited

variable {pre pre' : σ → γ → Prop} {x : ExceptT ε (StateM σ) α}
  {f : α → ExceptT ε (StateM σ) β} {mid post' : Except ε α → σ → γ → Prop}
  {post : Except ε β → σ → γ → Prop}

theorem pure {a : β} (h : ∀ s g, pre s g → post (.ok a) s g) :
    Audited Step pre (Pure.pure a) post :=
  fun s g hs => ⟨g, .pure a s g, h s g hs⟩

theorem throw {e : ε} (h : ∀ s g, pre s g → post (.error e) s g) :
    Audited Step pre (MonadExcept.throw e) post :=
  fun s g hs => ⟨g, .throw e s g, h s g hs⟩

theorem bind (hx : Audited Step pre x mid) (hf : ∀ a, Audited Step (mid (.ok a)) (f a) post)
    (he : ∀ e s g, mid (.error e) s g → post (.error e) s g) :
    Audited Step pre (x >>= f) post := by
  intro s g hs
  obtain ⟨m, htraced, hm⟩ := hx s g hs
  cases hvalue : value x s with
  | error e =>
      rw [hvalue] at hm
      rw [value_bind_of_error hvalue, exec_bind_of_error hvalue]
      exact ⟨m, .bind_error htraced hvalue, he e _ m hm⟩
  | ok a =>
      rw [hvalue] at hm
      obtain ⟨g', htraced', hg⟩ := hf a _ m hm
      rw [value_bind_of_ok hvalue, exec_bind_of_ok hvalue]
      exact ⟨g', .bind htraced hvalue htraced', hg⟩

theorem imp (hx : Audited Step pre x mid) (hpre : ∀ s g, pre' s g → pre s g)
    (hpost : ∀ r s g, mid r s g → post' r s g) : Audited Step pre' x post' := by
  intro s g hs
  obtain ⟨g', htraced, hg⟩ := hx s g (hpre s g hs)
  exact ⟨g', htraced, hpost _ _ g' hg⟩

theorem ite {c : Prop} [Decidable c] {y : ExceptT ε (StateM σ) α} (hx : Audited Step pre x mid)
    (hy : Audited Step pre y mid) : Audited Step pre (if c then x else y) mid := by
  split
  · exact hx
  · exact hy

theorem tryCatch {handle : ε → ExceptT ε (StateM σ) α} (hx : Audited Step pre x mid)
    (hok : ∀ a s g, mid (.ok a) s g → post' (.ok a) s g)
    (hhandle : ∀ e, Audited Step (mid (.error e)) (handle e) post') :
    Audited Step pre (MonadExcept.tryCatch x handle) post' := by
  intro s g hs
  obtain ⟨m, htraced, hm⟩ := hx s g hs
  cases hvalue : value x s with
  | ok a =>
      rw [hvalue] at hm
      have hruns : Runs (MonadExcept.tryCatch x handle) s (.ok a) (exec x s) :=
        Runs.tryCatch_ok (Runs.of_value hvalue)
      rw [hruns.value_eq, hruns.exec_eq]
      exact ⟨m, .tryCatch htraced hvalue, hok a _ m hm⟩
  | error e =>
      rw [hvalue] at hm
      obtain ⟨g', htraced', hg⟩ := hhandle e _ m hm
      have hfails : Runs x s (.error e) (exec x s) := Prod.ext hvalue rfl
      have hruns := Runs.tryCatch_error hfails (Runs.self (handle e) (exec x s))
      rw [hruns.value_eq, hruns.exec_eq]
      exact ⟨g', .tryCatch_error htraced hvalue htraced', hg⟩

/-! ### What every step keeps -/

variable {I : σ → γ → Prop}

theorem forM {f : α → ExceptT ε (StateM σ) PUnit} (h : ∀ a, Audited Step I (f a) fun _ => I)
    (l : List α) : Audited Step I (l.forM f) fun _ => I := by
  induction l with
  | nil => exact pure fun _ _ => id
  | cons a l ih => exact bind (h a) (fun _ => ih) fun _ _ _ => id

end Audited

end BoardGame.Stateful
