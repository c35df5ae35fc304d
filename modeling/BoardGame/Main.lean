import BoardGame.CommandLine
/-!
# The program

Runs the command line on the arguments and the standard input.
-/

namespace BoardGame.CommandLine

/-- Everything on the standard input, if the command reads it. -/
def readInput (args : List String) : IO String := do
  match args with
  | "serve" :: _ => return (← (← IO.getStdin).readToEnd)
  | _ => return ""

end BoardGame.CommandLine

open BoardGame in
def main (args : List String) : IO UInt32 := do
  let entropy ← IO.rand 0 0xffffffffffffffff
  let stdin ← CommandLine.readInput args
  let report := CommandLine.run args stdin (UInt64.ofNat entropy)
  (← IO.getStdout).putStr report.stdout
  (← IO.getStderr).putStr report.stderr
  return UInt32.ofNat report.code
