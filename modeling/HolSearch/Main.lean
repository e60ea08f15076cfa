import HolSearch.CommandLine.Replay

/-!
# The program

Replays proof sessions as the command line asks.
-/

open HolSearch

def main (args : List String) : IO UInt32 := do
  let outcome := CommandLine.run args
  IO.print outcome.stdout
  IO.eprint outcome.stderr
  return outcome.exit.toUInt32
