import GameCircuit.Language.Symbol

/-!
# Errors

Why a description cannot be compiled, and why a circuit refuses an operation.  Errors name symbols
and components by number; `message` is the one place where they are put into words.
-/

namespace GameCircuit

/-- Why a game description cannot be compiled. -/
inductive CompileError where
  /-- A rule asks for two function terms to be equal. -/
  | unsupportedEquality (left right : Symbol)
  /-- A rule for the relation holds a literal that rules may not hold. -/
  | unsupportedLiteral (relation : Symbol)
  /-- A relation about states has no argument. -/
  | degenerateTerm (relation : Symbol)
  /-- No rule may conclude an atom of this form. -/
  | malformedHead (relation : Symbol)
  /-- Nothing binds a variable of a rule for the relation. -/
  | unboundVariable (name relation : Symbol)
  /-- The index of the relation's domain points at a tuple that does not fit. -/
  | inconsistentIndex (relation : Symbol)
  /-- The relation's domain grew beyond the limit. -/
  | domainLimitExceeded (relation : Symbol) (limit : Nat)
  /-- The description still changed after this number of passes. -/
  | normalizationDiverged (passes : Nat)
deriving DecidableEq

namespace CompileError

/-- The words for an error. -/
def message : CompileError → String
  | unsupportedEquality left right =>
    "equality between function terms `" ++ left.mark ++ "` and `" ++ right.mark ++
      "` is not supported"
  | unsupportedLiteral relation => "unsupported literal in a rule for `" ++ relation.mark ++ "`"
  | degenerateTerm relation => "`" ++ relation.mark ++ "` has no argument where one was expected"
  | malformedHead relation => "malformed rule head `" ++ relation.mark ++ "`"
  | unboundVariable name relation =>
    "variable `" ++ name.mark ++ "` is not bound in a rule for `" ++ relation.mark ++ "`"
  | inconsistentIndex relation =>
    "the index of the domain of `" ++ relation.mark ++ "` is inconsistent"
  | domainLimitExceeded relation limit =>
    "domain of `" ++ relation.mark ++ "` exceeded " ++ toString limit ++ " assignments"
  | normalizationDiverged passes =>
    "normalization did not converge after " ++ toString passes ++ " passes"

end CompileError

/-- Why a circuit refuses an operation. -/
inductive CircuitError where
  /-- The start and terminal propositions cannot be removed. -/
  | protectedComponent (id : Nat)
  /-- There is no such component, or it was removed. -/
  | unknownComponent (id : Nat)
  /-- The component depends on itself within one state. -/
  | combinationalCycle (id : Nat)
  /-- The component is not a move that may be made. -/
  | illegalMove (id : Nat)
  /-- A role makes no move. -/
  | missingMove (role : Symbol)
  /-- A role makes several moves. -/
  | duplicateMove (role : Symbol)
deriving DecidableEq

namespace CircuitError

/-- How a component is written in messages. -/
def componentMark (id : Nat) : String := "#" ++ toString id

/-- The words for an error. -/
def message : CircuitError → String
  | protectedComponent id =>
    "component " ++ componentMark id ++ " is load-bearing and cannot be removed"
  | unknownComponent id => "component " ++ componentMark id ++ " does not exist"
  | combinationalCycle id => "combinational cycle through component " ++ componentMark id
  | illegalMove id => "component " ++ componentMark id ++ " is not a legal move in this state"
  | missingMove role => "no move was given for role `" ++ role.mark ++ "`"
  | duplicateMove role => "more than one move was given for role `" ++ role.mark ++ "`"

end CircuitError

end GameCircuit
