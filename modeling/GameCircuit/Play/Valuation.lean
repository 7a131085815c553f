import GameCircuit.Play.Order

/-!
# Truth values

Evaluates the components of a circuit in a state.  `Circuit.settle` is the equation that each
component has to satisfy, and `Circuit.evaluate` computes values that satisfy it one component after
the other.
-/

namespace GameCircuit

/-- Truth values by number. -/
abbrev Valuation := Array Bool

namespace Valuation

/-- The value of a component, and false where there is none. -/
def get (v : Valuation) (id : Nat) : Bool := v[id]?.getD false

/-- The values of `size` components of which just the given ones are true. -/
def ofTrue (size : Nat) (ids : List Nat) : Valuation :=
  ids.foldl (fun v id => v.setIfInBounds id true) (Array.replicate size false)

theorem get_setIfInBounds (v : Valuation) (i id : Nat) (b : Bool) (h : id < v.size) :
    get (v.setIfInBounds i b) id = if i = id then b else v.get id := by
  by_cases hi : i = id
  · subst hi
    simp [get, h]
  · simp [get, hi]

theorem get_ofTrue (size : Nat) (ids : List Nat) (id : Nat) (h : id < size) :
    (ofTrue size ids).get id = ids.contains id := by
  suffices ∀ v : Valuation, id < v.size →
      get (ids.foldl (fun v id => v.setIfInBounds id true) v) id = (ids.contains id || v.get id) by
    rw [ofTrue, this _ (by simpa using h)]
    simp [get, h]
  induction ids with
  | nil => simp
  | cons i ids ih =>
    intro v hv
    rw [List.foldl_cons, ih _ (by simpa using hv), get_setIfInBounds v i id true hv,
      List.contains_cons]
    by_cases hi : i = id
    · simp [hi]
    · simp [hi, beq_false_of_ne (Ne.symm hi)]

end Valuation

/-- What a circuit is evaluated under. -/
structure Stimulus where
  /-- The propositions that hold in the state. -/
  state : List Nat
  /-- The propositions of the moves that are made. -/
  moves : List Nat
  /-- It is before the first state. -/
  starting : Bool

/-- The propositions whose value comes from outside the circuit, and what it is. -/
structure Surface where
  /-- The parts of the state. -/
  isBase : Nat → Bool
  /-- The moves. -/
  isInput : Nat → Bool
  /-- The proposition that holds before the first state only. -/
  isStart : Nat → Bool
  /-- The parts of the state that hold. -/
  holds : Nat → Bool
  /-- The moves that are made. -/
  isMade : Nat → Bool
  /-- It is before the first state. -/
  starting : Bool

namespace Component

/-- The value of the only input, and false if there is not exactly one. -/
def singleValue (v : Nat → Bool) (c : Component) : Bool :=
  match c.singleInput? with
  | some i => v i
  | none => false

/-- The value of a component for values of its inputs. -/
def value (s : Surface) (v : Nat → Bool) (id : Nat) (c : Component) : Bool :=
  match c.kind with
  | .proposition _ _ =>
    if s.isBase id then s.holds id
    else if s.isInput id then s.isMade id
    else if s.isStart id then s.starting
    else c.singleValue v
  | .and => c.inputs.all v
  | .or => c.inputs.any v
  | .not => !c.singleValue v
  | .constant value => value
  | .transition => c.singleValue v

end Component

namespace Circuit

variable (c : Circuit)

/-- The surface of a circuit under a stimulus. -/
def surface (s : Stimulus) : Surface where
  isBase := c.base.contains
  isInput := c.inputs.contains
  isStart id := c.start = some id
  holds := s.state.contains
  isMade := s.moves.contains
  starting := s.starting

/-- The surface of a circuit under a stimulus, laid out by number so that every question about a
component of the circuit is answered at once. -/
def layout (s : Stimulus) : Surface :=
  let base := Valuation.ofTrue c.capacity c.base
  let inputs := Valuation.ofTrue c.capacity c.inputs
  let state := Valuation.ofTrue c.capacity s.state
  let moves := Valuation.ofTrue c.capacity s.moves
  { isBase := base.get
    isInput := inputs.get
    isStart id := c.start = some id
    holds := state.get
    isMade := moves.get
    starting := s.starting }

/-- The value of a component for values of its inputs. -/
def settle (s : Stimulus) (v : Nat → Bool) (id : Nat) (component : Component) : Bool :=
  component.value (c.surface s) v id

theorem component?_eq_some_lt {c : Circuit} {id : Nat} {component : Component}
    (h : c.component? id = some component) : id < c.capacity := by
  simp only [component?, capacity] at *
  by_cases hid : id < c.components.size
  · exact hid
  · simp [Array.getElem?_eq_none (Nat.le_of_not_lt hid)] at h

/-- Laid out by number, a circuit gives each of its components the value that its equation says. -/
theorem value_layout {c : Circuit} {id : Nat} {component : Component}
    (h : c.component? id = some component) (s : Stimulus) (v : Nat → Bool) :
    component.value (c.layout s) v id = c.settle s v id component := by
  have hid := component?_eq_some_lt h
  simp [settle, Component.value, layout, surface, Valuation.get_ofTrue _ _ _ hid]

/-- Evaluates one component. -/
def evaluateOne (s : Surface) (v : Valuation) (id : Nat) : Valuation :=
  match c.component? id with
  | some component => v.setIfInBounds id (component.value s v.get id)
  | none => v

/-- Evaluates the components in the given order. -/
def evaluate (order : List Nat) (s : Stimulus) : Valuation :=
  order.foldl (c.evaluateOne (c.layout s)) (Array.replicate c.capacity false)

end Circuit

end GameCircuit
