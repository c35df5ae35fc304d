/-!
# Random numbers

Numbers are drawn by an algorithm that keeps one 64-bit word between draws. Which
algorithm it is does not matter to a game or a search: all they rely on is that a
number drawn below a bound is below it. The algorithm that runs adds a constant to the
word and multiplies the result by a scrambled copy of itself; the two halves of the
128-bit product, mixed by exclusive or, are the number drawn.
-/

namespace BoardGame

/-- An algorithm that draws random numbers and keeps a word of state. -/
class RandomAlgorithm where
  /-- Draws 64 bits. -/
  word : StateM UInt64 UInt64
  /-- Draws a number below a bound, which must not be zero. -/
  below (bound : Nat) : StateM UInt64 Nat
  /-- Draws a number of double precision from zero to below one. -/
  double : StateM UInt64 Float
  /-- Draws a number of single precision from zero to below one. -/
  single : StateM UInt64 Float32
  below_lt {bound : Nat} (h : 0 < bound) (state : UInt64) : (below bound state).1 < bound

/-- A source of random numbers: an algorithm and its state. -/
structure Generator where
  [algorithm : RandomAlgorithm]
  state : UInt64

/-- Computations that draw random numbers. -/
abbrev RandomM := StateM Generator

namespace RandomM

variable {σ α β : Type}

theorem run_bind (x : StateM σ α) (f : α → StateM σ β) (s : σ) :
    (x >>= f) s = f (x s).1 (x s).2 := rfl

/-- Passing on what was drawn. -/
theorem fst_map (f : α → β) (x : StateM σ α) (s : σ) :
    ((do return f (← x) : StateM σ β) s).1 = f (x s).1 := rfl

end RandomM

namespace Generator

/-- Draws by the algorithm of the generator. -/
def draw {α : Type} (x : RandomAlgorithm → StateM UInt64 α) : RandomM α := fun g =>
  let (a, state) := x g.algorithm g.state
  (a, @mk g.algorithm state)

/-- Draws 32 bits. -/
def word32 : RandomM UInt32 :=
  return (← draw (·.word)).toUInt32

/-- Draws a number below `n`. -/
def below (n : Nat) : RandomM Nat :=
  draw (·.below n)

/-- Draws a number of double precision from zero to below one. -/
def double : RandomM Float :=
  draw (·.double)

/-- Draws a number of single precision from zero to below one. -/
def single : RandomM Float32 :=
  draw (·.single)

theorem below_lt {n : Nat} (hn : 0 < n) (g : Generator) : (below n g).1 < n :=
  g.algorithm.below_lt hn g.state

end Generator

/-! ## The algorithm that runs -/

namespace ProductMixing

open RandomM

def increment : UInt64 := 0x2d358dccaa6c78a5

def scramble : UInt64 := 0x8bb84b93962eacc9

/-- How often a draw that falls into a biased range is repeated. Each repetition is
needed with a chance below one half, and far below it for the small ranges drawn
from. -/
def maxRedraws : Nat := 1024

/-- Number of 64-bit words. -/
def modulus : Nat := 0x10000000000000000

def word : StateM UInt64 UInt64 := fun state =>
  let s := state + increment
  let product := s.toNat * (s ^^^ scramble).toNat
  (UInt64.ofNat product ^^^ UInt64.ofNat (product >>> 64), s)

/-- The high half of a word times `n` is uniform below `n` as long as the low half is
not below `threshold`. -/
def belowFrom (n threshold : Nat) : Nat → StateM UInt64 Nat
  | 0 => return (← word).toNat * n / modulus
  | fuel + 1 => do
    let product := (← word).toNat * n
    if product % modulus < threshold then belowFrom n threshold fuel
    else return product / modulus

def below (n : Nat) : StateM UInt64 Nat :=
  belowFrom n ((modulus - n) % n) maxRedraws

/-- Draws until `draw` gives a number below one. -/
def unitFrom {α : Type} (isUnit : α → Bool) (zero : α) (draw : StateM UInt64 α) :
    Nat → StateM UInt64 α
  | 0 => return zero
  | fuel + 1 => do
    let x ← draw
    if isUnit x then return x else unitFrom isUnit zero draw fuel

/-- Draws by 63 bits. -/
def double : StateM UInt64 Float :=
  unitFrom (· < 1) 0 (return ((← word) >>> 1).toFloat / 9223372036854775808) maxRedraws

/-- Draws by 63 bits. -/
def single : StateM UInt64 Float32 :=
  unitFrom (· < 1) 0 (return ((← word) >>> 1).toFloat32 / 9223372036854775808) maxRedraws

variable {n : Nat}

theorem mul_div_modulus_lt (w : UInt64) (hn : 0 < n) : w.toNat * n / modulus < n := by
  have hw : w.toNat < modulus := w.toNat_lt
  apply Nat.div_lt_of_lt_mul
  exact Nat.mul_lt_mul_of_pos_right hw hn

theorem belowFrom_lt (threshold fuel : Nat) (hn : 0 < n) (state : UInt64) :
    (belowFrom n threshold fuel state).1 < n := by
  induction fuel generalizing state with
  | zero =>
      rw [belowFrom, fst_map fun w : UInt64 => w.toNat * n / modulus]
      exact mul_div_modulus_lt _ hn
  | succ fuel ih =>
      rw [belowFrom, run_bind]
      split
      · exact ih _
      · exact mul_div_modulus_lt _ hn

end ProductMixing

instance productMixing : RandomAlgorithm where
  word := ProductMixing.word
  below := ProductMixing.below
  double := ProductMixing.double
  single := ProductMixing.single
  below_lt h := ProductMixing.belowFrom_lt _ _ h

end BoardGame
