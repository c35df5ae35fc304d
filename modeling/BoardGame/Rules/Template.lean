import BoardGame.Text.Integer
/-!
# Move templates

A template names a geometric pattern and says how the pattern's squares change
the set of targets collected so far. Its written form is an operator, a pattern
name and, after an underscore, a size: `+forward_1`, `=plus_0`, `-rank_8`. A
size that is left out is zero, which stands for the board's edge.
-/

namespace BoardGame

inductive Pattern where
  | square
  | plus
  | cross
  | forward
  | backward
  | rank
  | pass
deriving DecidableEq, Inhabited

inductive SetOp where
  | union
  | intersect
  | subtract
deriving DecidableEq, Inhabited

structure Template where
  op : SetOp
  pattern : Pattern
  size : Nat
deriving DecidableEq, Inhabited

namespace Pattern

def label : Pattern → String
  | square => "square"
  | plus => "plus"
  | cross => "cross"
  | forward => "forward"
  | backward => "backward"
  | rank => "rank"
  | pass => "pass"

def ofLabel? (text : String) : Option Pattern :=
  [square, plus, cross, forward, backward, rank, pass].find? (·.label == text)

end Pattern

namespace SetOp

def symbol : SetOp → Char
  | union => '+'
  | intersect => '='
  | subtract => '-'

def ofSymbol? : Char → Option SetOp
  | '+' => some union
  | '=' => some intersect
  | '-' => some subtract
  | _ => none

end SetOp

namespace Template

/-- Sizes are machine words. -/
def sizeBound : Nat := 0x10000000000000000

/-- Reads a written template. -/
def parse? (text : String) : Option Template :=
  match text.toList with
  | [] => none
  | symbol :: body =>
    let label := String.ofList (body.takeWhile (· ≠ '_'))
    let size? := match body.dropWhile (· ≠ '_') with
      | [] => some 0
      | _ :: digits => Text.natural? sizeBound digits
    match SetOp.ofSymbol? symbol, Pattern.ofLabel? label, size? with
    | some op, some pattern, some size => some ⟨op, pattern, size⟩
    | _, _, _ => none

/-- The written form. Passing has no size. -/
def text (t : Template) : String :=
  let head := String.singleton t.op.symbol ++ t.pattern.label
  match t.pattern with
  | .pass => head
  | _ => head ++ "_" ++ toString t.size

end Template

end BoardGame
