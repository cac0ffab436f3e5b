import TwistedEdwards.Check.Command

/-!
# The property test as a program
-/

open TwistedEdwards in
/-- Prints what the command leaves behind and ends with its code. -/
def main (args : List String) : IO UInt32 := do
  let exit := Command.run args
  IO.print exit.out
  IO.eprint exit.err
  return exit.code.toUInt32
