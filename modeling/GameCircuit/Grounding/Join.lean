import GameCircuit.Error
import GameCircuit.Grounding.Plan
import GameCircuit.Sequence

/-!
# Joins

Finds the values of a rule's variables for which all steps of its plan succeed.  A scan does not
look at all rows of its table: of the places whose constant is known already, it takes the one with
the fewest rows.

The whole search shares one binding.  A scan gives values to variables that have none, searches on
with the rest of the steps, and takes the values back before it turns to its next row.
-/

namespace GameCircuit

/-- The values of the variables that have one. -/
abbrev Binding := List (Symbol × Symbol)

namespace Slot

/-- The constant of a slot, if it is known. -/
def value? (b : Binding) : Slot → Option Symbol
  | const c => some c
  | var x => b.lookup x

end Slot

namespace Binding

/-- Gives a variable a value. -/
def set (b : Binding) (x c : Symbol) : Binding := (x, c) :: b

/-- Takes the value of a variable back. -/
def unset (b : Binding) (x : Symbol) : Binding := b.filter (·.1 ≠ x)

/-- What became of fitting a tuple into a template. -/
structure Attempt where
  /-- The binding that it left. -/
  binding : Binding
  /-- The variables that got a value, in this order. -/
  bound : List Symbol
  /-- The tuple fitted. -/
  fits : Bool

/-- Fits a tuple into a template, slot by slot and up to the first one that does not fit.  Variables
without a value get one; `bound` are those that got one before. -/
def attempt (b : Binding) (bound : List Symbol) : List Slot → List Symbol → Attempt
  | .const d :: slots, c :: cs => if d = c then b.attempt bound slots cs else ⟨b, bound, false⟩
  | .var x :: slots, c :: cs =>
    match b.lookup x with
    | some d => if d = c then b.attempt bound slots cs else ⟨b, bound, false⟩
    | none => (b.set x c).attempt (bound ++ [x]) slots cs
  | _, _ => ⟨b, bound, true⟩

/-- The term with the values of its variables, all of which need one. -/
def resolve (b : Binding) (relation : Symbol) (t : Term Symbol) :
    Except CompileError (Term Symbol) :=
  match t.vars.find? fun x => (b.lookup x).isNone with
  | some x => .error (.unboundVariable x relation)
  | none => .ok (t.subst fun x => match b.lookup x with
    | some c => .const c
    | none => .var x)

/-- The values of the variables, all of which need one. -/
def values (b : Binding) (relation : Symbol) : List Symbol → Except CompileError (List Symbol)
  | [] => .ok []
  | x :: xs =>
    match b.lookup x with
    | none => .error (.unboundVariable x relation)
    | some c => (c :: ·) <$> b.values relation xs

end Binding

/-- The first of the shortest arrays. -/
def firstShortest : List (Array Nat) → Option (Array Nat)
  | [] => none
  | rows :: rest =>
    match firstShortest rest with
    | some rows' => if rows'.size < rows.size then some rows' else some rows
    | none => some rows

namespace Table

/-- The rows from `start` up to `stop` that may fit the template. -/
def candidates (t : Table) (template : List Slot) (b : Binding) (start stop : Nat) : List Nat :=
  let known := template.zipIdx.filterMap fun (slot, place) =>
    (slot.value? b).map fun c => t.matching place c
  match firstShortest known with
  | some rows => rows.toList.filter fun row => decide (start ≤ row) && decide (row < stop)
  | none => List.range' start (stop - start)

end Table

namespace Plan

/-- What a search changes as it goes. -/
structure Search where
  /-- The values of the variables, so far. -/
  binding : Binding
  /-- The values of all variables that were found. -/
  found : Array (List Symbol)

/-- Takes the values of the variables back. -/
def Search.undo (s : Search) (bound : List Symbol) : Search :=
  { s with binding := bound.foldl Binding.unset s.binding }

/-- Searches on with the steps, numbered from `i` on.  The step with the number `restricted` scans
only the delta of its table. -/
def descend (p : Plan) (tables : Array Table) (restricted : Option Nat) :
    (i : Nat) → List Step → Search → Except CompileError Search
  | _, [], s =>
    (s.binding.values p.clause.head.relation p.vars).map fun values =>
      { s with found := s.found.push values }
  | i, .compare left right negated :: steps, s =>
    match s.binding.resolve p.clause.head.relation left with
    | .error e => .error e
    | .ok left =>
      match s.binding.resolve p.clause.head.relation right with
      | .error e => .error e
      | .ok right =>
        if decide (left ≠ right) != negated then p.descend tables restricted (i + 1) steps s
        else .ok s
  | i, .scan table template :: steps, s =>
    match tables[table]? with
    | none => .error (.inconsistentIndex p.clause.head.relation)
    | some t =>
      let start := if restricted = some i then t.settled else 0
      let stop := if restricted = some i then t.frontier else t.size
      (t.candidates template s.binding start stop) |> foldSteps (fun s row =>
        match t.row? row with
        | none => .error (.inconsistentIndex t.schema.relation)
        | some tuple =>
          if tuple.length ≠ template.length then .error (.inconsistentIndex t.schema.relation)
          else
            let attempt := s.binding.attempt [] template tuple
            let s := { s with binding := attempt.binding }
            let searched := if attempt.fits then p.descend tables restricted (i + 1) steps s else .ok s
            searched.map (·.undo attempt.bound)) s

/-- Finds the values of the variables for which all steps succeed. -/
def join (p : Plan) (tables : Array Table) (restricted : Option Nat) :
    Except CompileError (List (List Symbol)) :=
  (p.descend tables restricted 0 p.steps ⟨[], #[]⟩).map (·.found.toList)

end Plan

end GameCircuit
