import GameCircuit.Demo

/-!
# The command line

Runs the demonstration.  With `--dot` the circuit is printed first.
-/

/-- Prints the demonstration. -/
def main (args : List String) : IO UInt32 := do
  match GameCircuit.Demo.output args with
  | .ok text =>
    IO.print text
    return 0
  | .error e =>
    IO.eprintln ("Error: " ++ e)
    return 1
