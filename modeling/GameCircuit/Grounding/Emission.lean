import GameCircuit.Grounding.Saturation

/-!
# The ground description

After saturation the description is equivalent to a ground one: its ground facts, and the instances
of its rules that were found.
-/

namespace GameCircuit

namespace Plan

/-- The instance of a rule for the values of its variables. -/
def instantiate (p : Plan) (values : List Symbol) : Formula Symbol :=
  let c := p.clause.subst (Term.ofPairs ((p.valuation values).map fun (x, v) => (x, .const v)))
  if c.body.isEmpty then .atom c.head else c.toFormula

/-- The instances of a rule that were found, none of which may hold a variable. -/
def emit (p : Plan) : Except CompileError (List (Formula Symbol)) :=
  p.found.toList |> collect fun values =>
    let φ := p.instantiate values
    match φ.vars with
    | [] => .ok [φ]
    | x :: _ => .error (.unboundVariable x p.clause.head.relation)

end Plan

namespace Database

/-- The ground facts and the instances of the rules that were found, each once. -/
def emit (db : Database) : Except CompileError (List (Formula Symbol)) :=
  match collect Plan.emit db.plans.toList with
  | .error e => .error e
  | .ok φs => .ok (distinct (db.facts.toList.map Formula.atom ++ φs))

/-- Loads formulas, fires the rules and returns the ground description. -/
def ground (db : Database) (φs : List (Formula Symbol)) :
    Database × Except CompileError (List (Formula Symbol)) :=
  match db.load φs with
  | (db, some e) => (db, .error e)
  | (db, none) =>
    match db.saturate with
    | (db, some e) => (db, .error e)
    | (db, none) => (db, db.emit)

end Database

end GameCircuit
