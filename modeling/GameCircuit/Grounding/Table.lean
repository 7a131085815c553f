import GameCircuit.Collection.OrderedSet
import GameCircuit.Grounding.Schema
import GameCircuit.Language.Code

/-!
# Tables

A table holds the tuples of one schema in the order in which they were found, without repetition.
Each of its columns knows at which rows a constant stands in it, which is what makes joins fast.

Saturation proceeds in rounds.  The *delta* of a table are the rows that the round before the
current one added: those from `settled` up to `frontier`.
-/

namespace GameCircuit

/-- The rows at which each constant stands in a column, in ascending order, by the number of the
constant. -/
abbrev Column := Std.TreeMap Nat (Array Nat)

namespace Column

/-- The rows at which the constant stands. -/
def rows (column : Column) (c : Symbol) : Array Nat := column[c.handle]?.getD #[]

/-- Enters a row behind those that are there. -/
def enter (column : Column) (c : Symbol) (row : Nat) : Column :=
  column.alter c.handle fun rows? => some ((rows?.getD #[]).push row)

/-- Enters a row into all columns. -/
def enterAll (row : Nat) : List Symbol → List Column → List Column
  | c :: cs, column :: columns => column.enter c row :: enterAll row cs columns
  | _, columns => columns

end Column

/-- The tuples of a schema. -/
structure Table where
  /-- The schema of the atoms that the tuples stand for. -/
  schema : Schema
  /-- The tuples, in the order in which they were found. -/
  tuples : OrderedSet (List Symbol)
  /-- For each place, where its constants stand. -/
  columns : List Column
  /-- The rules that conclude atoms of the schema. -/
  producers : Array Nat
  /-- The rules that have atoms of the schema as conditions. -/
  consumers : Array Nat
  /-- The number of rows before the delta. -/
  settled : Nat
  /-- The number of rows up to the end of the delta. -/
  frontier : Nat

namespace Table

/-- A table without tuples. -/
def empty (schema : Schema) : Table where
  schema := schema
  tuples := .empty
  columns := List.replicate schema.arity ∅
  producers := #[]
  consumers := #[]
  settled := 0
  frontier := 0

/-- The number of tuples. -/
def size (t : Table) : Nat := t.tuples.size

/-- The tuple of a row. -/
def row? (t : Table) (row : Nat) : Option (List Symbol) := t.tuples.items[row]?

/-- The table holds the tuple. -/
def contains (t : Table) (tuple : List Symbol) : Bool := t.tuples.contains tuple

/-- The rows at which the constant stands at the place. -/
def matching (t : Table) (place : Nat) (c : Symbol) : Array Nat :=
  match t.columns[place]? with
  | some column => column.rows c
  | none => #[]

/-- Adds a tuple, if it is new. -/
def insert (t : Table) (tuple : List Symbol) : Table :=
  if t.contains tuple then t
  else
    let row := t.size
    { t with
      tuples := t.tuples.insert tuple
      columns := Column.enterAll row tuple t.columns }

/-- Starts a round: what was added since the last start becomes the delta. -/
def advance (t : Table) : Table := { t with settled := t.frontier, frontier := t.size }

/-- The round before added something. -/
def hasDelta (t : Table) : Bool := t.settled < t.frontier

end Table

end GameCircuit
