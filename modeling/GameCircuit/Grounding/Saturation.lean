import GameCircuit.Grounding.Database
import GameCircuit.Grounding.Join

/-!
# Saturation

Fires the rules of a database until no table grows.  The first round joins every rule.  After that a
round looks only at rules with a condition whose table grew in the round before, and joins such a
rule once for each of these conditions, restricted there to what the table gained.
-/

namespace GameCircuit

namespace Database

/-- Starts a round. -/
def advance (db : Database) : Database :=
  { db with tables := (db.tables.toList.map Table.advance).toArray }

/-- The tables that grew in the round before. -/
def changed (db : Database) : List Nat :=
  db.tables.toList.zipIdx.filterMap fun (t, i) => if t.hasDelta then some i else none

/-- The rules to look at in this round. -/
def pending (db : Database) : List Nat :=
  if db.rounds = 0 then List.range db.plans.size
  else (db.changed.flatMap fun i =>
    match db.tables[i]? with
    | some t => t.consumers.toList
    | none => []) |> distinct

/-- The table grew in the round before. -/
def hasDelta (db : Database) (table : Nat) : Bool :=
  match db.tables[table]? with
  | some t => t.hasDelta
  | none => false

/-- The values for which a rule may fire in this round. -/
def instances (db : Database) (p : Plan) : Except CompileError (List (List Symbol)) :=
  if db.rounds = 0 then p.join db.tables none
  else
    (p.scans.filter fun (_, table) => db.hasDelta table) |> collect fun (i, _) =>
      p.join db.tables (some i)

/-- Fires a rule for the values of its variables, unless it was fired for them before. -/
def fire (rule : Nat) (db : Database) (values : List Symbol) : Database × Option CompileError :=
  match db.plans[rule]? with
  | none => (db, none)
  | some p =>
    if p.found.contains values then (db, none)
    else
      let target := p.target
      let tuple := p.produce values
      let db := { db with plans := db.plans.modify rule (·.record values) }
      db.insert target tuple

/-- Fires a rule for all values that it has in this round. -/
def fireAll (db : Database) (rule : Nat) : Database × Option CompileError :=
  match db.plans[rule]? with
  | none => (db, none)
  | some p =>
    match db.instances p with
    | .error e => (db, some e)
    | .ok found => runAll (fire rule) db found

/-- Runs up to `fuel` rounds. -/
def saturateUpTo : (fuel : Nat) → Database → Database × Option CompileError
  | 0, db => (db, none)
  | fuel + 1, db =>
    let db := db.advance
    match db.pending with
    | [] => (db, none)
    | rules =>
      match runAll fireAll db rules with
      | (db, some e) => (db, some e)
      | (db, none) => saturateUpTo fuel { db with rounds := db.rounds + 1 }

/-- The constants that can come to stand in tuples, perhaps some of them repeatedly. -/
def constants (db : Database) : List Symbol :=
  db.tables.toList.flatMap (fun t => t.tuples.toList.flatten) ++
    db.plans.toList.flatMap fun p => p.production.filterMap Slot.constant?

/-- How many tuples the tables can come to hold at most: every round but the last adds one. -/
def capacity (db : Database) : Nat :=
  let count := db.constants.length
  db.tables.toList.foldr (fun t n => Nat.pow count t.schema.arity + n) 0

/-- Fires the rules until no table grows. -/
def saturate (db : Database) : Database × Option CompileError := saturateUpTo (db.capacity + 2) db

end Database

end GameCircuit
