import BoardGame.Text.Blank
import BoardGame.Square
/-!
# Reading what is written

Numbers written in decimal digits, words with a blank between them and the names of
squares are read back as what they were.
-/

namespace BoardGame

namespace Text

/-! ## Numbers -/

theorem toList_toString (n : Nat) : (toString n).toList = Nat.toDigits 10 n := by
  rw [Nat.toString_eq_repr, Nat.toList_repr]

theorem isDigit_of_mem_toString {n : Nat} {c : Char} (h : c ∈ (toString n).toList) :
    c.isDigit = true := by
  rw [toList_toString] at h
  exact Nat.isDigit_of_mem_toDigits (by decide) (by decide) h

theorem toList_toString_ne_nil (n : Nat) : (toString n).toList ≠ [] := by
  rw [toList_toString]
  exact Nat.toDigits_ne_nil

theorem digits?_toString (n : Nat) : digits? (toString n).toList = some n := by
  have hall : (toString n).toList.all Char.isDigit = true :=
    List.all_eq_true.mpr fun c hc => isDigit_of_mem_toString hc
  have hvalue : (toString n).toList.foldl (fun n c => 10 * n + (c.toNat - '0'.toNat)) 0 = n := by
    rw [toList_toString]
    exact Nat.ofDigitChars_ten_toDigits
  cases hcs : (toString n).toList with
  | nil => exact absurd hcs (toList_toString_ne_nil n)
  | cons c cs =>
      rw [hcs] at hall hvalue
      rw [digits?, if_pos hall, hvalue]
      exact List.cons_ne_nil c cs

theorem natural?_toString {bound n : Nat} (h : n < bound) :
    natural? bound (toString n).toList = some n := by
  have hsigned : ∀ rest, (toString n).toList ≠ '+' :: rest := by
    intro rest heq
    have hplus : '+' ∈ (toString n).toList := heq ▸ List.mem_cons_self
    exact absurd (isDigit_of_mem_toString hplus) (by decide)
  unfold natural?
  split
  next rest heq => exact absurd heq (hsigned rest)
  next =>
    dsimp only
    rw [digits?_toString, Option.filter_some, decide_eq_true h, if_pos rfl]

theorem integer?_toString {half n : Nat} (h : n < half) :
    integer? half (toString n).toList = some (n : Int) := by
  have hsigned : ∀ rest, (toString n).toList ≠ '-' :: rest := by
    intro rest heq
    have hminus : '-' ∈ (toString n).toList := heq ▸ List.mem_cons_self
    exact absurd (isDigit_of_mem_toString hminus) (by decide)
  unfold integer?
  split
  next rest heq => exact absurd heq (hsigned rest)
  next =>
    rw [natural?_toString h]
    rfl

/-! ## Words -/

/-- A word is not empty and has no blank in it. -/
structure IsWord (cs : List Char) : Prop where
  ne_nil : cs ≠ []
  not_blank : ∀ c ∈ cs, isBlank c = false

theorem isBlank_eq_false_of_isAlphanum {c : Char} (h : c.isAlphanum = true) :
    isBlank c = false := by
  change ((decide (65 ≤ c.val ∧ c.val ≤ 90) || (decide (97 ≤ c.val) && decide (c.val ≤ 122))) ||
    (decide (48 ≤ c.val) && decide (c.val ≤ 57))) = true at h
  simp only [Bool.or_eq_true, Bool.and_eq_true, decide_eq_true_eq, UInt32.le_iff_toNat_le] at h
  simp only [isBlank, blankRanges, List.any_cons, List.any_nil, Bool.or_eq_false_iff,
    Bool.and_eq_false_iff, decide_eq_false_iff_not, and_true]
  change (((65 ≤ c.toNat ∧ c.toNat ≤ 90) ∨ (97 ≤ c.toNat ∧ c.toNat ≤ 122)) ∨
    (48 ≤ c.toNat ∧ c.toNat ≤ 57)) at h
  omega

theorem isWord_singleton {c : Char} (h : isBlank c = false) : IsWord [c] where
  ne_nil := List.cons_ne_nil c []
  not_blank _ hc := List.mem_singleton.mp hc ▸ h

theorem isWord_toString (n : Nat) : IsWord (toString n).toList where
  ne_nil := toList_toString_ne_nil n
  not_blank c hc := by
    refine isBlank_eq_false_of_isAlphanum ?_
    rw [Char.isAlphanum, isDigit_of_mem_toString hc, Bool.or_true]

theorem wordsFrom_append {word cs rest : List Char} (h : ∀ c ∈ cs, isBlank c = false) :
    wordsFrom word (cs ++ rest) = wordsFrom (cs.reverse ++ word) rest := by
  induction cs generalizing word with
  | nil => rfl
  | cons c cs ih =>
      obtain ⟨hc, hcs⟩ := List.forall_mem_cons.mp h
      rw [List.cons_append, wordsFrom, if_neg (by simp [hc]), ih hcs, List.reverse_cons,
        List.append_assoc]
      rfl

theorem of_mem_intercalate {sep : List Char} {texts : List (List Char)} {c : Char}
    (h : c ∈ sep.intercalate texts) : c ∈ sep ∨ ∃ t ∈ texts, c ∈ t := by
  induction texts with
  | nil => cases h
  | cons t rest ih =>
      cases rest with
      | nil =>
          rw [List.intercalate_singleton] at h
          exact Or.inr ⟨t, List.mem_singleton_self t, h⟩
      | cons t' rest =>
          rw [List.intercalate_cons_cons, List.append_assoc, List.mem_append, List.mem_append] at h
          rcases h with h | h | h
          · exact Or.inr ⟨t, List.mem_cons_self, h⟩
          · exact Or.inl h
          · rcases ih h with h | ⟨u, hu, h⟩
            · exact Or.inl h
            · exact Or.inr ⟨u, List.mem_cons_of_mem t hu, h⟩

theorem words_intercalate {texts : List (List Char)} (h : ∀ t ∈ texts, IsWord t) :
    words ([' '].intercalate texts) = texts := by
  induction texts with
  | nil => rfl
  | cons t rest ih =>
      obtain ⟨ht, hrest⟩ := List.forall_mem_cons.mp h
      have hread : (t.reverse ++ []).isEmpty = false := by simp [ht.ne_nil]
      cases rest with
      | nil =>
          rw [List.intercalate_singleton, words, ← List.append_nil t,
            wordsFrom_append (List.append_nil t ▸ ht.not_blank), List.append_nil t, wordsFrom,
            hread, if_neg Bool.false_ne_true, List.append_nil, List.reverse_reverse]
      | cons t' rest =>
          have hblank : isBlank ' ' = true := by decide
          rw [List.intercalate_cons_cons, List.append_assoc, words, wordsFrom_append ht.not_blank,
            List.singleton_append, wordsFrom, if_pos hblank, hread, if_neg Bool.false_ne_true,
            List.append_nil, List.reverse_reverse, ← words, ih hrest]

end Text

/-! ## Squares -/

namespace Square

variable {s : Square}

theorem toList_name_eq (hx : 0 ≤ s.x ∧ s.x < 26) (hy : 0 ≤ s.y) :
    s.name.toList =
      Char.ofNat ('a'.toNat + s.x.toNat) :: (toString (s.y.toNat + 1)).toList := by
  obtain ⟨x, y⟩ := s
  obtain ⟨j, rfl⟩ := Int.eq_ofNat_of_zero_le hy
  have hwritten : ¬ (x < 0 ∨ (j : Int) < 0 ∨ 26 ≤ x) := by
    dsimp only at hx
    omega
  rw [name, if_neg hwritten, String.toList_append, String.toList_singleton]
  rfl

theorem isWord_name (hx : 0 ≤ s.x) (hy : 0 ≤ s.y) (hfile : s.x < 26) :
    Text.IsWord s.name.toList := by
  have hletter : ∀ i : Fin 26, Text.isBlank (Char.ofNat ('a'.toNat + i)) = false := by
    decide
  rw [toList_name_eq ⟨hx, hfile⟩ hy]
  refine ⟨List.cons_ne_nil _ _, List.forall_mem_cons.mpr ⟨hletter ⟨s.x.toNat, by omega⟩, ?_⟩⟩
  exact (Text.isWord_toString (s.y.toNat + 1)).not_blank

theorem parse?_name (hx : 0 ≤ s.x ∧ s.x < 26) (hy : 0 ≤ s.y ∧ s.y < 0x7FFFFFFF) :
    parse? s.name.toList = some s := by
  have hletter : ∀ i : Fin 26, (Char.ofNat ('a'.toNat + i)).toLower = Char.ofNat ('a'.toNat + i) ∧
      ('a' ≤ Char.ofNat ('a'.toNat + i) ∧ Char.ofNat ('a'.toNat + i) ≤ 'z') ∧
      (Char.ofNat ('a'.toNat + i)).toNat - 'a'.toNat = i := by
    decide
  obtain ⟨hlower, hfile, hcolumn⟩ := hletter ⟨s.x.toNat, by omega⟩
  dsimp only at hlower hfile hcolumn
  have hrank : Text.integer? 0x80000000 (toString (s.y.toNat + 1)).toList =
      some ((s.y.toNat + 1 : Nat) : Int) := Text.integer?_toString (by omega)
  rw [toList_name_eq hx hy.1]
  unfold parse?
  dsimp only
  rw [hlower, if_pos hfile, hrank, hcolumn]
  dsimp only
  rw [if_neg (by omega)]
  obtain ⟨x, y⟩ := s
  rw [Option.some.injEq, Square.mk.injEq]
  dsimp only at hx hy ⊢
  omega

end Square

end BoardGame
