/-!
# Scores

The number that a score is written as.
-/

namespace GameCircuit

/-- The value of decimal digits, of which there has to be at least one. -/
def decimalValue? (cs : List Char) : Option Nat :=
  if cs.isEmpty || !cs.all Char.isDigit then none
  else some (cs.foldl (fun n c => n * 10 + (c.toNat - '0'.toNat)) 0)

/-- Scores are below this bound. -/
def scoreBound : Nat := 4294967296

/-- Reads a score: decimal digits, perhaps with a plus sign in front. -/
def readScore? (text : String) : Option Nat :=
  let digits := match text.toList with
    | '+' :: cs => cs
    | cs => cs
  (decimalValue? digits).filter (· < scoreBound)

end GameCircuit
