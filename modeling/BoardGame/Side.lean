/-!
# The two sides

White's piece codes are positive and black's are negative, so a side is the
sign of the codes it owns.
-/

namespace BoardGame

inductive Side where
  | white
  | black
deriving DecidableEq, Inhabited

namespace Side

def opponent : Side → Side
  | white => black
  | black => white

/-- Sign of this side's piece codes. -/
def sign : Side → Int
  | white => 1
  | black => -1

/-- The owner of a piece code; an empty square has none. -/
def ofCode? (code : Int) : Option Side :=
  if 0 < code then some white
  else if code < 0 then some black
  else none

def label : Side → String
  | white => "white"
  | black => "black"

@[simp] theorem opponent_opponent (s : Side) : s.opponent.opponent = s := by
  cases s <;> rfl

@[simp] theorem sign_opponent (s : Side) : s.opponent.sign = -s.sign := by
  cases s <;> rfl

theorem opponent_ne (s : Side) : s.opponent ≠ s := by
  cases s <;> decide

theorem eq_opponent_of_ne {a b : Side} (h : a ≠ b) : a = b.opponent := by
  cases a <;> cases b <;> first | rfl | exact absurd rfl h

theorem sign_cases (s : Side) : s.sign = 1 ∨ s.sign = -1 := by
  cases s <;> decide

theorem sign_inj {a b : Side} : a.sign = b.sign ↔ a = b := by
  cases a <;> cases b <;> decide

theorem sign_sign (s : Side) : s.sign.sign = s.sign := by
  cases s <;> rfl

theorem natAbs_sign (s : Side) : s.sign.natAbs = 1 := by
  cases s <;> rfl

end Side

end BoardGame
