import GameCircuit.Play.Valuation
import GameCircuit.Sequence

/-!
# Playing

A `Machine` is a circuit that can be evaluated.  It tells which moves may be made in a state,
whether the game is over, what the state is worth, and which state follows when each player makes
one move.
-/

namespace GameCircuit

/-- A state of the game: the propositions that hold in it, in ascending order. -/
structure GameState where
  /-- The numbers of the propositions. -/
  holding : List Nat
deriving DecidableEq

namespace GameState

/-- The state in which nothing holds. -/
def empty : GameState := ⟨[]⟩

/-- The proposition holds. -/
def contains (s : GameState) (id : Nat) : Bool := s.holding.contains id

/-- The number of propositions that hold. -/
def size (s : GameState) : Nat := s.holding.length

end GameState

/-- A circuit and an order in which it can be evaluated. -/
structure Machine where
  /-- The circuit. -/
  circuit : Circuit
  /-- The components, each behind the inputs that it waits for. -/
  order : List Nat

namespace Machine

/-- The machine of a circuit, if it can be evaluated. -/
def ofCircuit (c : Circuit) : Except CircuitError Machine :=
  match c.evaluationOrder with
  | .ok order => .ok ⟨c, order⟩
  | .error e => .error e

variable (m : Machine)

/-- The values of the components. -/
def values (s : Stimulus) : Valuation := m.circuit.evaluate m.order s

/-- The values in a state in which no move is made. -/
def idleValues (s : GameState) : Valuation := m.values ⟨s.holding, [], false⟩

/-- What the transitions let through. -/
def advance (v : Valuation) : GameState :=
  ⟨m.circuit.base.filter fun id =>
    match m.circuit.component? id with
    | some component => component.singleValue v.get
    | none => false⟩

/-- The state at the start of the game. -/
def initialState : GameState := m.advance (m.values ⟨[], [], true⟩)

/-- The moves that the player may make. -/
def legalMoves (s : GameState) (role : Symbol) : List Nat :=
  (m.circuit.legalOf role).filter (m.idleValues s).get

/-- The game is over. -/
def isTerminal (s : GameState) : Bool :=
  match m.circuit.terminal with
  | some id => (m.idleValues s).get id
  | none => false

/-- What the state is worth to the player, by the first proposition about it that holds. -/
def goal? (s : GameState) (role : Symbol) : Option Nat :=
  ((m.circuit.goalsOf role).find? (m.idleValues s).get).bind m.circuit.score?

/-- A move of some player, in whatever state. -/
def isMove (id : Nat) : Bool := m.circuit.roles.any fun role => (m.circuit.legalOf role).contains id

/-- The proposition that the player makes their one move among the given ones. -/
def inputFor (v : Valuation) (moves : List Nat) (role : Symbol) : Except CircuitError Nat :=
  match moves.filter ((m.circuit.legalOf role).contains ·) with
  | [] => .error (.missingMove role)
  | [legal] =>
    if v.get legal then
      match m.circuit.inputOf? legal with
      | some input => .ok input
      | none => .error (.illegalMove legal)
    else .error (.illegalMove legal)
  | _ :: _ :: _ => .error (.duplicateMove role)

/-- The state after each player made one of the moves. -/
def nextState (s : GameState) (moves : List Nat) : Except CircuitError GameState :=
  match moves.find? (!m.isMove ·) with
  | some stray => .error (.illegalMove stray)
  | none =>
    let v := m.idleValues s
    match collect (fun role => ([·]) <$> m.inputFor v moves role) m.circuit.roles with
    | .error e => .error e
    | .ok inputs => .ok (m.advance (m.values ⟨s.holding, inputs, false⟩))

end Machine

end GameCircuit
