import GameCircuit.Circuit.Basic
import GameCircuit.Error

/-!
# Removing components

Removing a component takes it out of its place and then walks over its links: each neighbour loses
its link to the component, and a proposition that the component was the transition of is no longer a
part of the state.  Then the component is taken out of every index.
-/

namespace GameCircuit

/-- The map without a key. -/
def eraseKey {α β : Type} [DecidableEq α] (m : List (α × β)) (a : α) : List (α × β) :=
  m.filter (·.1 ≠ a)

/-- Two maps, each the other one backwards, without what the first has for a key. -/
def erasePair (m back : List (Nat × Nat)) (a : Nat) : List (Nat × Nat) × List (Nat × Nat) :=
  match m.lookup a with
  | some b => (eraseKey m a, eraseKey back b)
  | none => (m, back)

namespace Circuit

/-- Changes a component, if it is there. -/
def modify (c : Circuit) (id : Nat) (f : Component → Component) : Circuit :=
  { c with components := c.components.modify id (Option.map f) }

/-- The component is a proposition whose only input is a transition. -/
def isBase (c : Circuit) (id : Nat) : Bool :=
  (c.component? id).any (isFedByTransition c.components)

/-- Takes a component out of the outputs of one of its inputs. -/
def unlinkInput (id : Nat) (c : Circuit) (input : Nat) : Circuit := c.modify input (.dropOutput id)

/-- Takes a component out of the inputs of one of its outputs, which is no longer a part of the state
if no transition is left to feed it. -/
def unlinkOutput (id : Nat) (c : Circuit) (output : Nat) : Circuit :=
  let c := c.modify output (.dropInput id)
  if c.base.contains output && !c.isBase output then { c with base := c.base.erase output } else c

/-- Takes the name of a component away, if the component is the proposition of that name. -/
def unname (c : Circuit) (id : Nat) (component : Component) : Circuit :=
  match component.name? with
  | some name =>
    if c.proposition? name = some id then { c with names := eraseKey c.names name } else c
  | none => c

/-- Takes a component out of the lists of propositions. -/
def unlist (c : Circuit) (id : Nat) : Circuit :=
  { c with
    base := c.base.erase id
    inputs := c.inputs.erase id
    legal := c.legal.filter (·.2 ≠ id)
    goals := c.goals.filter (·.2 ≠ id)
    scores := eraseKey c.scores id }

/-- Takes a component out of the pairs of moves, first as a move that may be made and then as one
that is made. -/
def unpair (c : Circuit) (id : Nat) : Circuit :=
  let (legalInputs, inputLegals) := erasePair c.legalInputs c.inputLegals id
  let (inputLegals, legalInputs) := erasePair inputLegals legalInputs id
  { c with legalInputs, inputLegals }

/-- Takes a component out of its place, out of the links of its neighbours and out of every index. -/
def detach (c : Circuit) (id : Nat) (component : Component) : Circuit :=
  let c := { c with components := c.components.setIfInBounds id none }
  let c := component.inputs.foldl (unlinkInput id) c
  let c := component.outputs.foldl (unlinkOutput id) c
  ((c.unname id component).unlist id).unpair id

/-- Removes a component, and returns it as it was.  The start and terminal propositions cannot be
removed. -/
def remove (c : Circuit) (id : Nat) : Except CircuitError (Component × Circuit) :=
  if c.start = some id ∨ c.terminal = some id then .error (.protectedComponent id)
  else
    match c.component? id with
    | none => .error (.unknownComponent id)
    | some component => .ok (component, c.detach id component)

end Circuit

end GameCircuit
