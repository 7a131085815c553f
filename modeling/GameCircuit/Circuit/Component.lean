import GameCircuit.Language.Formula
import GameCircuit.Language.Symbol

/-!
# Components

A circuit is made of propositions, gates, constants and transitions.  A transition delays: its input
becomes visible at its output in the next state only.  Components are numbered, and each knows the
numbers of its inputs and outputs, in the order in which they were linked.
-/

namespace GameCircuit

/-- What a component is. -/
inductive Kind where
  /-- A named truth value.  A proposition that stands for one of several sources of another carries
  the name of that one as `underlying`. -/
  | proposition (name : Atom Symbol) (underlying : Option (Atom Symbol))
  /-- True if all inputs are. -/
  | and
  /-- True if some input is. -/
  | or
  /-- True if its input is not. -/
  | not
  /-- Always the same. -/
  | constant (value : Bool)
  /-- What its input was in the state before. -/
  | transition
deriving DecidableEq

namespace Kind

/-- The name of a proposition. -/
def name? : Kind → Option (Atom Symbol)
  | proposition name _ => some name
  | _ => none

/-- The name that a proposition contributes to. -/
def underlying? : Kind → Option (Atom Symbol)
  | proposition _ underlying => underlying
  | _ => none

/-- The name of a proposition that stands for itself. -/
def ownName? : Kind → Option (Atom Symbol)
  | proposition name none => some name
  | _ => none

/-- The kind of a proposition. -/
def isProposition (kind : Kind) : Bool := kind.name?.isSome

end Kind

/-- A node of a circuit. -/
structure Component where
  /-- What it is. -/
  kind : Kind
  /-- The numbers of the components that it depends on. -/
  inputs : List Nat
  /-- The numbers of the components that depend on it. -/
  outputs : List Nat
deriving DecidableEq

namespace Component

/-- The name of a proposition. -/
def name? (c : Component) : Option (Atom Symbol) := c.kind.name?

/-- The component is a proposition. -/
def isProposition (c : Component) : Bool := c.kind.isProposition

/-- The component is a transition. -/
def isTransition (c : Component) : Bool := c.kind = .transition

/-- The only input, if there is exactly one. -/
def singleInput? (c : Component) : Option Nat :=
  match c.inputs with
  | [i] => some i
  | _ => none

/-- The component without an input. -/
def dropInput (id : Nat) (c : Component) : Component := { c with inputs := c.inputs.erase id }

/-- The component without an output. -/
def dropOutput (id : Nat) (c : Component) : Component := { c with outputs := c.outputs.erase id }

end Component

end GameCircuit
