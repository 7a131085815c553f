import GameCircuit.Canonical.Schedule
import GameCircuit.Error
import GameCircuit.Grounding.Plan
import GameCircuit.Sequence

/-!
# The database

Holds the tables and plans of the formulas that were loaded.  An operation that fails returns the
database as it left it, so that what was done before the failure stays.
-/

namespace GameCircuit

/-- Tables and plans. -/
structure Database where
  /-- How many tuples a table may hold. -/
  limit : Option Nat
  /-- The schemas of the tables, in the order in which they were met. -/
  schemas : OrderedSet Schema
  /-- The tables, in the order of their schemas. -/
  tables : Array Table
  /-- The rules. -/
  plans : Array Plan
  /-- The ground facts that were loaded, each once. -/
  facts : OrderedSet (Atom Symbol)
  /-- How many rounds of saturation were run. -/
  rounds : Nat

namespace Database

/-- A database without formulas. -/
def empty (limit : Option Nat) : Database := ⟨limit, .empty, #[], #[], .empty, 0⟩

/-- The number of the table of a schema. -/
def tableNumber? (db : Database) (schema : Schema) : Option Nat := db.schemas.position? schema

/-- The table of an atom. -/
def tableOf? (db : Database) (a : Atom Symbol) : Option Table :=
  (db.tableNumber? a.schema).bind (db.tables[·]?)

/-- The number of the table of an atom, which is created if there is none. -/
def tableFor (db : Database) (a : Atom Symbol) : Nat × Database :=
  match h : db.tableNumber? a.schema with
  | some i => (i, db)
  | none =>
    let number := db.tables.size
    (number,
      { db with
        schemas := db.schemas.push a.schema h
        tables := db.tables.push (Table.empty a.schema) })

/-- Changes a table. -/
def modifyTable (db : Database) (table : Nat) (f : Table → Table) : Database :=
  { db with tables := db.tables.modify table f }

/-- The error that a table holds more tuples than the limit admits, if it does. -/
def overflow? (db : Database) (table : Nat) : Option CompileError :=
  match db.limit, db.tables[table]? with
  | some limit, some t =>
    if limit < t.size then some (.domainLimitExceeded t.schema.relation limit) else none
  | _, _ => none

/-- Adds a tuple to a table, which may not grow beyond the limit. -/
def insert (db : Database) (table : Nat) (tuple : List Symbol) : Database × Option CompileError :=
  let db := db.modifyTable table (·.insert tuple)
  (db, db.overflow? table)

/-- The steps of a body, with the tables that they scan. -/
def stepsFor (db : Database) : List (Formula Symbol) → List Step × Database
  | [] => ([], db)
  | .atom ⟨relation, args⟩ :: φs =>
    if relation = Keyword.distinct then
      let (steps, db) := db.stepsFor φs
      match args with
      | [s, t] => (.compare s t false :: steps, db)
      | _ => (steps, db)
    else
      let a : Atom Symbol := ⟨relation, args⟩
      let (table, db) := db.tableFor a
      let (steps, db) := db.stepsFor φs
      (.scan table a.slots :: steps, db)
  | .neg (.atom ⟨relation, args⟩) :: φs =>
    let (steps, db) := db.stepsFor φs
    match args with
    | [s, t] =>
      if relation = Keyword.distinct then (.compare s t true :: steps, db) else (steps, db)
    | _ => (steps, db)
  | _ :: φs => db.stepsFor φs

/-- Adds a rule without disjunctions. -/
def addRule (db : Database) (c : Clause Symbol) : Database :=
  let (steps, db) := db.stepsFor c.body
  let (target, db) := db.tableFor c.head
  let plan : Plan := ⟨c, c.vars, steps, target, c.head.slots, .empty⟩
  let number := db.plans.size
  let db := db.modifyTable target fun t => { t with producers := t.producers.push number }
  let db := plan.sources.foldl (fun db table =>
    db.modifyTable table fun t => { t with consumers := t.consumers.push number }) db
  { db with plans := db.plans.push plan }

/-- Adds a formula: a ground fact as a tuple, and a rule, or a fact with variables, as plans. -/
def loadFormula (db : Database) : Formula Symbol → Database × Option CompileError
  | .atom a =>
    if a.isGround then
      let (table, db) := db.tableFor a
      match db.insert table a.constants with
      | (db, none) => ({ db with facts := db.facts.insert a }, none)
      | (db, some e) => (db, some e)
    else (db.addRule ⟨a, []⟩, none)
  | .rule head body =>
    ((splitDisjunctions body).foldl (fun db body => db.addRule ⟨head, schedule body⟩) db, none)
  | .neg _ | .disj _ => (db, some (.unsupportedLiteral Keyword.anonymous))

/-- Adds formulas. -/
def load (db : Database) (φs : List (Formula Symbol)) : Database × Option CompileError :=
  runAll loadFormula db φs

/-- The number of tuples in all tables. -/
def tupleCount (db : Database) : Nat := db.tables.toList.foldr (fun t n => t.size + n) 0

/-- The number of instances that were found of all rules. -/
def instanceCount (db : Database) : Nat :=
  db.plans.toList.foldr (fun p n => p.found.size + n) 0

end Database

end GameCircuit
