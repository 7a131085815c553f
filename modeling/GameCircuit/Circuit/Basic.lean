import GameCircuit.Circuit.Component

/-!
# Circuits

A circuit holds its components and indices of the propositions that matter for play.  A removed
component leaves an empty place behind, so that numbers keep their meaning.
-/

namespace GameCircuit

/-- A circuit for a game. -/
structure Circuit where
  /-- The players. -/
  roles : List Symbol
  /-- The components by number. -/
  components : Array (Option Component)
  /-- The propositions by name. -/
  names : List (Atom Symbol × Nat)
  /-- The propositions that make up a state: each is fed by a transition. -/
  base : List Nat
  /-- The propositions that a player makes a move. -/
  inputs : List Nat
  /-- The propositions that a player may make a move, with the player. -/
  legal : List (Symbol × Nat)
  /-- The propositions that a state is worth something to a player, with the player. -/
  goals : List (Symbol × Nat)
  /-- What a state is worth if the proposition holds. -/
  scores : List (Nat × Nat)
  /-- The proposition that holds before the first state only. -/
  start : Option Nat
  /-- The proposition that the game is over. -/
  terminal : Option Nat
  /-- For the propositions that a player may make a move, the one that it is made. -/
  legalInputs : List (Nat × Nat)
  /-- For the propositions that a player makes a move, the one that it may be made. -/
  inputLegals : List (Nat × Nat)
deriving DecidableEq

namespace Circuit

variable (c : Circuit)

/-- The component of a number. -/
def component? (id : Nat) : Option Component := (c.components[id]?).join

/-- The components with their numbers, in ascending order. -/
def live : List (Nat × Component) :=
  c.components.toList.zipIdx.filterMap fun (component?, id) => component?.map (id, ·)

/-- The number of components. -/
def size : Nat := c.live.length

/-- The number of places, empty ones included. -/
def capacity : Nat := c.components.size

/-- The proposition of a name. -/
def proposition? (name : Atom Symbol) : Option Nat := c.names.lookup name

/-- The propositions that the player may make a move. -/
def legalOf (role : Symbol) : List Nat := (c.legal.filter (·.1 = role)).map Prod.snd

/-- The propositions that a state is worth something to the player. -/
def goalsOf (role : Symbol) : List Nat := (c.goals.filter (·.1 = role)).map Prod.snd

/-- What a state is worth if the proposition holds. -/
def score? (id : Nat) : Option Nat := c.scores.lookup id

/-- The propositions that a move may be made, each with the one that it is made. -/
def pairs : List (Nat × Nat) := c.legalInputs

/-- The proposition that a move is made, for the one that it may be made. -/
def inputOf? (legal : Nat) : Option Nat := c.legalInputs.lookup legal

/-- The proposition that a move may be made, for the one that it is made. -/
def legalOf? (input : Nat) : Option Nat := c.inputLegals.lookup input

end Circuit

/-- The component is a proposition whose only input is a transition. -/
def isFedByTransition (components : Array (Option Component)) (c : Component) : Bool :=
  c.isProposition &&
    match c.singleInput? with
    | some i =>
      match (components[i]?).join with
      | some source => source.isTransition
      | none => false
    | none => false

end GameCircuit
