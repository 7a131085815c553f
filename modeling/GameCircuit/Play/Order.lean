import GameCircuit.Circuit.Basic
import GameCircuit.Error

/-!
# The order of evaluation

Within one state, a component can be evaluated when all its inputs are, transitions apart: what a
transition shows was settled in the state before.  `evaluationOrder` starts with the components that
wait for nothing and releases a component as soon as the last input that it waits for is done.  If
some are never released, the circuit has a cycle without a transition.
-/

namespace GameCircuit

namespace Circuit

variable (c : Circuit)

/-- The components that wait for the component of a number. -/
def dependents (id : Nat) : List Nat :=
  match c.component? id with
  | some component => if component.isTransition then [] else component.outputs
  | none => []

/-- For each place, the number of inputs that its component waits for. -/
def waitCounts : Array Nat :=
  (c.live.flatMap fun (id, _) => c.dependents id).foldl (fun counts id => counts.modify id (· + 1))
    (Array.replicate c.capacity 0)

/-- Marks one input of a component as done, and puts the component into the order if it now waits
for nothing. -/
def release (progress : Array Nat × Array Nat) (id : Nat) : Array Nat × Array Nat :=
  let (order, counts) := progress
  let count := counts[id]?.getD 0 - 1
  (if count = 0 then order.push id else order, counts.setIfInBounds id count)

/-- Evaluates the components of the order from position `i` on, up to `fuel` of them.  Each puts
those that waited for it last at the end of the order. -/
def orderFrom : (fuel i : Nat) → (order counts : Array Nat) → Array Nat × Array Nat
  | 0, _, order, counts => (order, counts)
  | fuel + 1, i, order, counts =>
    match order[i]? with
    | none => (order, counts)
    | some id =>
      let (order, counts) := (c.dependents id).foldl release (order, counts)
      orderFrom fuel (i + 1) order counts

/-- The components in an order in which each stands behind the inputs that it waits for. -/
def evaluationOrder : Except CircuitError (List Nat) :=
  let counts := c.waitCounts
  let ids := c.live.map Prod.fst
  let ready := ids.filter fun id => counts[id]?.getD 0 == 0
  let (order, counts) := c.orderFrom c.capacity 0 ready.toArray counts
  match ids.find? fun id => 0 < counts[id]?.getD 0 with
  | some id => .error (.combinationalCycle id)
  | none => .ok order.toList

end Circuit

end GameCircuit
