import Mathlib.Data.List.Forall2
import Mathlib.Data.List.Perm.Basic
/-!
# Computations that may fail

What a computation that did not fail has gone through: the parts of a sequence, the
checks that it passed, the steps of a traversal. A traversal fails with the first failure.
-/

namespace BoardGame

variable {ε α β γ : Type}

theorem bind_eq_ok {x : Except ε α} {f : α → Except ε β} {b : β} :
    (x >>= f) = .ok b ↔ ∃ a, x = .ok a ∧ f a = .ok b := by
  cases x with
  | error e => exact ⟨fun h => (nomatch h), fun ⟨_, h, _⟩ => (nomatch h)⟩
  | ok a => exact ⟨fun h => ⟨a, rfl, h⟩, fun ⟨_, ha, h⟩ => Except.ok.inj ha ▸ h⟩

theorem bind_eq_error {x : Except ε α} {f : α → Except ε β} {e : ε} :
    (x >>= f) = .error e ↔ x = .error e ∨ ∃ a, x = .ok a ∧ f a = .error e := by
  cases x with
  | error e' =>
      exact ⟨fun h => .inl (Except.error.inj h ▸ rfl),
        Or.rec (fun h => Except.error.inj h ▸ rfl) nofun⟩
  | ok a =>
      exact ⟨fun h => .inr ⟨a, rfl, h⟩, Or.rec nofun fun ⟨_, ha, h⟩ => Except.ok.inj ha ▸ h⟩

theorem ok_of_toOption {x : Except ε α} {a : α} (h : x.toOption = some a) : x = .ok a := by
  cases x with
  | error e => cases h
  | ok b => exact congrArg _ (Option.some.inj h)

theorem of_check {check : Prop} [Decidable check] {e : ε} {rest : Unit → Except ε α} {a : α}
    (h : (if check then throw e >>= rest else rest ()) = .ok a) : ¬check ∧ rest () = .ok a := by
  by_cases hcheck : check
  · rw [if_pos hcheck] at h
    cases h
  · rw [if_neg hcheck] at h
    exact ⟨hcheck, h⟩

theorem forall_mem_of_forM_eq_ok {f : α → Except ε Unit} {l : List α}
    (h : l.forM f = .ok ()) : ∀ a ∈ l, f a = .ok () := by
  induction l with
  | nil => simp
  | cons a l ih =>
      obtain ⟨u, ha, hl⟩ := bind_eq_ok.mp h
      exact List.forall_mem_cons.mpr ⟨ha, ih hl⟩

theorem foldlM_keeps {f : β → α → Except ε β} {l : List α} {P : β → Prop}
    (hstep : ∀ b b', ∀ a ∈ l, P b → f b a = .ok b' → P b') {b c : β} (hb : P b)
    (h : l.foldlM f b = .ok c) : P c := by
  induction l generalizing b with
  | nil =>
      cases h
      exact hb
  | cons a l ih =>
      rw [List.foldlM_cons] at h
      obtain ⟨b', hfirst, hrest⟩ := bind_eq_ok.mp h
      have hb' : P b' := hstep b b' a List.mem_cons_self hb hfirst
      exact ih (fun b b' a ha => hstep b b' a (List.mem_cons_of_mem _ ha)) hb' hrest

/-! ## Traversals -/

section Traversal

variable {f : α → Except ε β} {l : List α}

theorem mapM_eq_ok_iff {bs : List β} :
    l.mapM f = .ok bs ↔ List.Forall₂ (fun a b => f a = .ok b) l bs := by
  induction l generalizing bs with
  | nil =>
      rw [List.mapM_nil, List.forall₂_nil_left_iff]
      exact ⟨fun h => (Except.ok.inj h).symm, fun h => h ▸ rfl⟩
  | cons a l ih =>
      rw [List.mapM_cons, List.forall₂_cons_left_iff, bind_eq_ok]
      constructor
      · rintro ⟨b, hb, h⟩
        obtain ⟨rest, hrest, h⟩ := bind_eq_ok.mp h
        exact ⟨b, rest, hb, ih.mp hrest, (Except.ok.inj h).symm⟩
      · rintro ⟨b, rest, hb, hrest, rfl⟩
        refine ⟨b, hb, bind_eq_ok.mpr ⟨rest, ih.mpr hrest, rfl⟩⟩

theorem exists_mem_of_mapM_eq_ok {bs : List β} (h : l.mapM f = .ok bs) {b : β} (hb : b ∈ bs) :
    ∃ a ∈ l, f a = .ok b := by
  have hforall := mapM_eq_ok_iff.mp h
  clear h
  induction hforall with
  | nil => cases hb
  | cons ha _ ih =>
      rcases List.mem_cons.mp hb with rfl | hmem
      · exact ⟨_, List.mem_cons_self, ha⟩
      · obtain ⟨c, hc, hfc⟩ := ih hmem
        exact ⟨c, List.mem_cons_of_mem _ hc, hfc⟩

theorem exists_eq_ok_of_mapM {bs : List β} (h : l.mapM f = .ok bs) {a : α} (ha : a ∈ l) :
    ∃ b ∈ bs, f a = .ok b := by
  have hforall := mapM_eq_ok_iff.mp h
  clear h
  induction hforall with
  | nil => cases ha
  | cons hb _ ih =>
      rcases List.mem_cons.mp ha with rfl | hmem
      · exact ⟨_, List.mem_cons_self, hb⟩
      · obtain ⟨c, hc, hac⟩ := ih hmem
        exact ⟨c, List.mem_cons_of_mem _ hc, hac⟩

/-- In another order a traversal has the same results in another order. -/
theorem exists_mapM_of_perm {l' : List α} (hperm : l'.Perm l) {bs : List β}
    (h : l.mapM f = .ok bs) : ∃ bs', l'.mapM f = .ok bs' ∧ bs'.Perm bs := by
  obtain ⟨bs', hforall, hbs⟩ := List.perm_comp_forall₂ hperm (mapM_eq_ok_iff.mp h)
  exact ⟨bs', mapM_eq_ok_iff.mpr hforall, hbs⟩

theorem mapM_eq_ok {g : α → β} (h : ∀ a ∈ l, f a = .ok (g a)) : l.mapM f = .ok (l.map g) :=
  mapM_eq_ok_iff.mpr (List.forall₂_map_right_iff.mpr (List.forall₂_same.mpr h))

theorem exists_mapM_eq_ok (h : ∀ a ∈ l, ∃ b, f a = .ok b) : ∃ bs, l.mapM f = .ok bs := by
  induction l with
  | nil => exact ⟨[], rfl⟩
  | cons a l ih =>
      obtain ⟨b, hb⟩ := h a List.mem_cons_self
      obtain ⟨rest, hrest⟩ := ih fun c hc => h c (List.mem_cons_of_mem a hc)
      refine ⟨b :: rest, ?_⟩
      rw [List.mapM_cons, hb, hrest]
      rfl

theorem mapM_eq_error {before after : List α} {a : α} {e : ε}
    (hbefore : ∀ b ∈ before, ∃ c, f b = .ok c) (ha : f a = .error e) :
    (before ++ a :: after).mapM f = .error e := by
  obtain ⟨bs, hbs⟩ := exists_mapM_eq_ok hbefore
  rw [List.mapM_append, hbs, List.mapM_cons, ha]
  rfl

theorem mapM_congr {g : α → Except ε β} (h : ∀ a ∈ l, f a = g a) : l.mapM f = l.mapM g := by
  induction l with
  | nil => rfl
  | cons a l ih =>
      rw [List.mapM_cons, List.mapM_cons, h a List.mem_cons_self,
        ih fun b hb => h b (List.mem_cons_of_mem a hb)]

theorem mapM_flatMap (g : γ → List α) (l : List γ) :
    (l.flatMap g).mapM f = List.flatten <$> l.mapM fun c => (g c).mapM f := by
  induction l with
  | nil => rfl
  | cons c l ih =>
      rw [List.flatMap_cons, List.mapM_append, ih, List.mapM_cons]
      cases (g c).mapM f with
      | error e => rfl
      | ok bs =>
          cases l.mapM fun c => (g c).mapM f with
          | error e => rfl
          | ok rest => rfl

end Traversal

end BoardGame
