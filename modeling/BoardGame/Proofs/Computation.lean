import Mathlib.Order.Defs.Unbundled
/-!
# Computations with a state

A computation that fails keeps what it has changed. What each of its steps does to the
state in the sense of a preorder, the whole computation does.
-/

namespace BoardGame.Stateful

variable {ε σ α β : Type}

/-- The result of a computation from a state. -/
def value (x : ExceptT ε (StateM σ) α) (s : σ) : Except ε α :=
  (x.run.run s).1

/-- The state that a computation leaves. -/
def exec (x : ExceptT ε (StateM σ) α) (s : σ) : σ :=
  (x.run.run s).2

variable {x : ExceptT ε (StateM σ) α} {f : α → ExceptT ε (StateM σ) β} {s : σ} {a : α} {e : ε}

theorem run_bind (x : ExceptT ε (StateM σ) α) (f : α → ExceptT ε (StateM σ) β) (s : σ) :
    (x >>= f).run.run s =
      match value x s with
      | .ok a => (f a).run.run (exec x s)
      | .error e => (.error e, exec x s) := by
  unfold value exec
  rw [ExceptT.run_bind, StateT.run_bind]
  generalize x.run.run s = result
  obtain ⟨r, after⟩ := result
  cases r <;> rfl

theorem value_bind_of_ok (h : value x s = .ok a) : value (x >>= f) s = value (f a) (exec x s) := by
  unfold value at h ⊢
  rw [run_bind, value, h]

theorem exec_bind_of_ok (h : value x s = .ok a) : exec (x >>= f) s = exec (f a) (exec x s) := by
  unfold exec
  rw [run_bind, h]
  rfl

theorem value_bind_of_error (h : value x s = .error e) : value (x >>= f) s = .error e := by
  unfold value at h ⊢
  rw [run_bind, value, h]

theorem exec_bind_of_error (h : value x s = .error e) : exec (x >>= f) s = exec x s := by
  unfold exec
  rw [run_bind, h]
  rfl

theorem run_bind_congr {g : α → ExceptT ε (StateM σ) β}
    (h : ∀ a, value x s = .ok a → (f a).run.run (exec x s) = (g a).run.run (exec x s)) :
    (x >>= f).run.run s = (x >>= g).run.run s := by
  rw [run_bind, run_bind]
  cases hx : value x s with
  | error e => rfl
  | ok a => exact h a hx

theorem run_bind_of_run_eq {y : ExceptT ε (StateM σ) α} (h : x.run.run s = y.run.run s) :
    (x >>= f).run.run s = (y >>= f).run.run s := by
  rw [run_bind, run_bind, value, exec, h]
  rfl

theorem value_bind_eq_ok {b : β} (h : value (x >>= f) s = .ok b) :
    ∃ a, value x s = .ok a ∧ value (f a) (exec x s) = .ok b := by
  cases hx : value x s with
  | error e =>
      rw [value_bind_of_error hx] at h
      cases h
  | ok a =>
      rw [value_bind_of_ok hx] at h
      exact ⟨a, rfl, h⟩

theorem run_tryCatch (x : ExceptT ε (StateM σ) α) (handle : ε → ExceptT ε (StateM σ) α) (s : σ) :
    (tryCatch x handle).run.run s =
      match value x s with
      | .ok a => (.ok a, exec x s)
      | .error e => (handle e).run.run (exec x s) := by
  unfold value exec
  show (x.run >>= fun result => match result with
    | .ok a => (Pure.pure (Except.ok a) : StateM σ (Except ε α))
    | .error e => (handle e).run).run s = _
  rw [StateT.run_bind]
  generalize x.run.run s = result
  obtain ⟨r, after⟩ := result
  cases r <;> rfl

/-! ## Runs -/

/-- From the state `s` the computation comes to `r` and leaves `after`. -/
def Runs (x : ExceptT ε (StateM σ) α) (s : σ) (r : Except ε α) (after : σ) : Prop :=
  x.run.run s = (r, after)

namespace Runs

variable {after later : σ} {r : Except ε α} {r' : Except ε β}

theorem self (x : ExceptT ε (StateM σ) α) (s : σ) : Runs x s (value x s) (exec x s) := rfl

theorem of_value (h : value x s = .ok a) : Runs x s (.ok a) (exec x s) :=
  Prod.ext h rfl

theorem value_eq (h : Runs x s r after) : value x s = r :=
  congrArg Prod.fst h

theorem exec_eq (h : Runs x s r after) : exec x s = after :=
  congrArg Prod.snd h

theorem bind (hx : Runs x s (.ok a) after) (hf : Runs (f a) after r' later) :
    Runs (x >>= f) s r' later := by
  unfold Runs at *
  rw [run_bind, value, exec, hx]
  exact hf

theorem bind_error (hx : Runs x s (.error e) after) : Runs (x >>= f) s (.error e) after := by
  unfold Runs at *
  rw [run_bind, value, exec, hx]

theorem tryCatch_ok {handle : ε → ExceptT ε (StateM σ) α} (hx : Runs x s (.ok a) after) :
    Runs (tryCatch x handle) s (.ok a) after := by
  unfold Runs at *
  rw [run_tryCatch, value, exec, hx]

theorem tryCatch_error {handle : ε → ExceptT ε (StateM σ) α} (hx : Runs x s (.error e) after)
    (hhandle : Runs (handle e) after r later) : Runs (tryCatch x handle) s r later := by
  unfold Runs at *
  rw [run_tryCatch, value, exec, hx]
  exact hhandle

end Runs

/-! ## What a computation does to the state -/

/-- Every run of `x` leads to a state that `R` allows. -/
def Keeps (R : σ → σ → Prop) (x : ExceptT ε (StateM σ) α) : Prop :=
  ∀ s, R s (exec x s)

namespace Keeps

variable {R : σ → σ → Prop} [IsPreorder σ R]

theorem of_exec_eq (h : ∀ s, exec x s = s) : Keeps R x := by
  intro s
  rw [h s]
  exact refl_of R s

theorem pure (a : α) : Keeps R (Pure.pure a : ExceptT ε (StateM σ) α) :=
  of_exec_eq fun _ => rfl

theorem throw (e : ε) : Keeps R (throw e : ExceptT ε (StateM σ) α) :=
  of_exec_eq fun _ => rfl

theorem get : Keeps R (get : ExceptT ε (StateM σ) σ) :=
  of_exec_eq fun _ => rfl

theorem bind (hx : Keeps R x) (hf : ∀ a, Keeps R (f a)) : Keeps R (x >>= f) := by
  intro s
  cases hvalue : value x s with
  | error e =>
      rw [exec_bind_of_error hvalue]
      exact hx s
  | ok a =>
      rw [exec_bind_of_ok hvalue]
      exact trans_of R (hx s) (hf a _)

omit [IsPreorder σ R] in
theorem ite {c : Prop} [Decidable c] {y : ExceptT ε (StateM σ) α} (hx : Keeps R x)
    (hy : Keeps R y) : Keeps R (if c then x else y) := by
  split
  · exact hx
  · exact hy

theorem mapM {g : α → ExceptT ε (StateM σ) β} (h : ∀ a, Keeps R (g a)) (l : List α) :
    Keeps R (l.mapM g) := by
  induction l with
  | nil => exact pure []
  | cons a l ih =>
      rw [List.mapM_cons]
      exact bind (h a) fun _ => bind ih fun _ => pure _

theorem forM {g : α → ExceptT ε (StateM σ) PUnit} (h : ∀ a, Keeps R (g a)) (l : List α) :
    Keeps R (l.forM g) := by
  induction l with
  | nil => exact pure _
  | cons a l ih => exact bind (h a) fun _ => ih

theorem findM? {test : α → ExceptT ε (StateM σ) Bool} (h : ∀ a, Keeps R (test a)) (l : List α) :
    Keeps R (l.findM? test) := by
  induction l with
  | nil => exact pure none
  | cons a l ih =>
      unfold List.findM?
      refine bind (h a) fun found => ?_
      cases found with
      | true => exact pure (some a)
      | false => exact ih

end Keeps

/-! ## What a computation comes to -/

/-- Every result of `x` has a property. -/
def Returns (P : α → Prop) (x : ExceptT ε (StateM σ) α) : Prop :=
  ∀ s a, value x s = .ok a → P a

namespace Returns

variable {P : β → Prop}

theorem bind (hf : ∀ a, Returns P (f a)) : Returns P (x >>= f) := by
  intro s b hb
  obtain ⟨a, -, ha⟩ := value_bind_eq_ok hb
  exact hf a _ b ha

theorem pure {b : β} (h : P b) : Returns P (Pure.pure b : ExceptT ε (StateM σ) β) :=
  fun _ _ hb => Except.ok.inj hb ▸ h

theorem throw (e : ε) : Returns P (throw e : ExceptT ε (StateM σ) β) :=
  fun _ _ hb => nomatch hb

end Returns

/-! ## What a failure leaves -/

/-- No error of `x` is in `E`. -/
def Avoids (E : ε → Prop) (x : ExceptT ε (StateM σ) α) : Prop :=
  ∀ s e, value x s = .error e → ¬ E e

/-- Where `x` fails by an error in `E`, it leaves a state that `R` allows. -/
def FailsWithin (E : ε → Prop) (R : σ → σ → Prop) (x : ExceptT ε (StateM σ) α) : Prop :=
  ∀ s e, value x s = .error e → E e → R s (exec x s)

section

variable {E : ε → Prop} {R : σ → σ → Prop}

theorem value_bind_eq_error (h : value (x >>= f) s = .error e) :
    (value x s = .error e ∧ exec (x >>= f) s = exec x s) ∨
      ∃ a, value x s = .ok a ∧ value (f a) (exec x s) = .error e ∧
        exec (x >>= f) s = exec (f a) (exec x s) := by
  cases hx : value x s with
  | error e' =>
      rw [value_bind_of_error hx] at h
      exact .inl ⟨congrArg Except.error (Except.error.inj h), exec_bind_of_error hx⟩
  | ok a =>
      rw [value_bind_of_ok hx] at h
      exact .inr ⟨a, rfl, h, exec_bind_of_ok hx⟩

namespace Avoids

theorem pure (a : α) : Avoids E (Pure.pure a : ExceptT ε (StateM σ) α) :=
  fun _ _ he => nomatch he

theorem throw (h : ¬ E e) : Avoids E (throw e : ExceptT ε (StateM σ) α) :=
  fun _ _ he => Except.error.inj he ▸ h

theorem get : Avoids E (get : ExceptT ε (StateM σ) σ) :=
  fun _ _ he => nomatch he

theorem modifyGet (change : σ → α × σ) :
    Avoids E (modifyGet change : ExceptT ε (StateM σ) α) := by
  intro s e he
  have hok : value (MonadStateOf.modifyGet change : ExceptT ε (StateM σ) α) s =
    .ok (change s).1 := rfl
  cases hok.symm.trans he

theorem bind (hx : Avoids E x) (hf : ∀ a, Avoids E (f a)) : Avoids E (x >>= f) := by
  intro s e he
  rcases value_bind_eq_error he with ⟨hfirst, -⟩ | ⟨a, -, hlast, -⟩
  · exact hx s e hfirst
  · exact hf a _ e hlast

theorem ite {c : Prop} [Decidable c] {y : ExceptT ε (StateM σ) α} (hx : Avoids E x)
    (hy : Avoids E y) : Avoids E (if c then x else y) := by
  split
  · exact hx
  · exact hy

theorem mapM {g : α → ExceptT ε (StateM σ) β} (h : ∀ a, Avoids E (g a)) (l : List α) :
    Avoids E (l.mapM g) := by
  induction l with
  | nil => exact pure []
  | cons a l ih =>
      rw [List.mapM_cons]
      exact bind (h a) fun _ => bind ih fun _ => pure _

theorem forM {g : α → ExceptT ε (StateM σ) PUnit} (h : ∀ a, Avoids E (g a)) (l : List α) :
    Avoids E (l.forM g) := by
  induction l with
  | nil => exact pure _
  | cons a l ih => exact bind (h a) fun _ => ih

end Avoids

namespace FailsWithin

theorem ite {c : Prop} [Decidable c] {y : ExceptT ε (StateM σ) α} (hx : FailsWithin E R x)
    (hy : FailsWithin E R y) : FailsWithin E R (if c then x else y) := by
  split
  · exact hx
  · exact hy

theorem of_keeps (h : Keeps R x) : FailsWithin E R x :=
  fun s _ _ _ => h s

theorem of_avoids (h : Avoids E x) : FailsWithin E R x :=
  fun s e he hin => absurd hin (h s e he)

/-- Where only the last part can fail badly, the parts before it must keep within `R`. -/
theorem bind [IsPreorder σ R] (hx : Keeps R x) (hf : ∀ a, FailsWithin E R (f a)) :
    FailsWithin E R (x >>= f) := by
  intro s e he hin
  rcases value_bind_eq_error he with ⟨-, hexec⟩ | ⟨a, -, hlast, hexec⟩
  · rw [hexec]
    exact hx s
  · rw [hexec]
    exact trans_of R (hx s) (hf a _ e hlast hin)

/-- What comes after the last failure in `E` does not matter. -/
theorem bind_avoids (hx : FailsWithin E R x) (hf : ∀ a, Avoids E (f a)) :
    FailsWithin E R (x >>= f) := by
  intro s e he hin
  rcases value_bind_eq_error he with ⟨hfirst, hexec⟩ | ⟨a, -, hlast, -⟩
  · rw [hexec]
    exact hx s e hfirst hin
  · exact absurd hin (hf a _ e hlast)

end FailsWithin

end

end BoardGame.Stateful
