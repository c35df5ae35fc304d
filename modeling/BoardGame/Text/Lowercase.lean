import BoardGame.Text.CaseTable
/-!
# Lower case

Lower case of a text by the rules of the Unicode standard. Most characters have a lower
case of their own; a dotted capital I becomes two characters, and a capital sigma is
written differently at the end of a word.
-/

namespace BoardGame.Text

/-- Lower case of a character outside of any text. -/
def lowerChar (c : Char) : Char :=
  let run? := caseRuns.find? fun r =>
    r.first ≤ c.toNat && c.toNat ≤ r.last && (c.toNat - r.first) % r.step == 0
  match run? with
  | some r => Char.ofNat (c.toNat + r.shift).toNat
  | none => c

def inRanges (ranges : List (Nat × Nat)) (c : Char) : Bool :=
  ranges.any fun (low, high) => low ≤ c.toNat && c.toNat ≤ high

def isIgnorable (c : Char) : Bool :=
  inRanges ignorableRanges c || inRanges ignorableRangesBeyond c

/-- Whether the first character that counts is a letter. -/
def startsCased (cs : List Char) : Bool :=
  ((cs.dropWhile isIgnorable).head?.map (inRanges casedRanges)).getD false

/-- Lower case of a character after `before`, which is reversed, and before `after`. -/
def lowerAt (before : List Char) (c : Char) (after : List Char) : List Char :=
  if c = 'İ' then ['i', '\u0307']
  else if c = 'Σ' then [if startsCased before && !startsCased after then 'ς' else 'σ']
  else [lowerChar c]

def lowercaseFrom (before : List Char) : List Char → List Char
  | [] => []
  | c :: after => lowerAt before c after ++ lowercaseFrom (c :: before) after

def lowercase (text : String) : String :=
  String.ofList (lowercaseFrom [] text.toList)

end BoardGame.Text
