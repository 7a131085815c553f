import GameCircuit.Grounding.Table

/-!
# Plans

A plan is a rule prepared for joining: the body as a sequence of steps, each of which either scans a
table for tuples that fit or compares two terms.  Negated atoms are no steps.  Whether they hold is
not known while tables still grow, so joining finds all instances of a rule that might fire, and the
circuit decides which do.
-/

namespace GameCircuit

/-- A step of a plan. -/
inductive Step where
  /-- Choose a tuple of the table that fits the template. -/
  | scan (table : Nat) (template : List Slot)
  /-- Go on only if the terms differ, or, if `negated`, only if they are the same. -/
  | compare (left right : Term Symbol) (negated : Bool)

/-- A rule prepared for joining. -/
structure Plan where
  /-- The rule. -/
  clause : Clause Symbol
  /-- Its variables, each once. -/
  vars : List Symbol
  /-- Its body. -/
  steps : List Step
  /-- The table of its head. -/
  target : Nat
  /-- The places of its head. -/
  production : List Slot
  /-- The values of the variables for which all steps succeed, as far as they were found. -/
  found : OrderedSet (List Symbol)

namespace Step

/-- The table that a step scans. -/
def table? : Step → Option Nat
  | scan table _ => some table
  | compare _ _ _ => none

end Step

namespace Plan

/-- The numbers of the steps that scan a table, with the table. -/
def scans (p : Plan) : List (Nat × Nat) :=
  p.steps.zipIdx.filterMap fun (step, i) => step.table?.map (i, ·)

/-- The tables that the steps scan, each once. -/
def sources (p : Plan) : List Nat := (p.scans.map Prod.snd).eraseDups

/-- Records values of the variables for which all steps succeed. -/
def record (p : Plan) (values : List Symbol) : Plan := { p with found := p.found.insert values }

/-- The value of each variable. -/
def valuation (p : Plan) (values : List Symbol) : List (Symbol × Symbol) := p.vars.zip values

/-- The tuple that the rule concludes for the values of its variables. -/
def produce (p : Plan) (values : List Symbol) : List Symbol :=
  p.production.filterMap fun
    | .const c => some c
    | .var x => (p.valuation values).lookup x

end Plan

/-- The bodies with one alternative chosen for each disjunction; the choice for the first varies
last. -/
def splitDisjunctions : List (Formula Symbol) → List (List (Formula Symbol))
  | [] => [[]]
  | .disj alternatives :: φs =>
    alternatives.flatMap fun φ => (splitDisjunctions φs).map (φ :: ·)
  | φ :: φs => (splitDisjunctions φs).map (φ :: ·)

end GameCircuit
