import GameCircuit.Circuit.Component
import GameCircuit.Circuit.Links
import GameCircuit.Error
import GameCircuit.Language.Code
import GameCircuit.Sequence

/-!
# Assembling a circuit

Turns a ground description into components.  A fact links the constant that is true to its
proposition; a rule becomes an `and` gate over its literals, linked to the proposition of its head.
What holds next is linked by a transition to what holds, and what holds at the start is driven
through the same transitions, by a proposition that is true before the first state only.

At the end, every proposition with several inputs gets an `or` gate instead, with one proposition
for each input: the input is unlinked from the one and linked to the other, one after the other.
Every move that may be made gets a proposition that it is made.
-/

namespace GameCircuit

/-- A circuit that is being assembled. -/
structure Assembly where
  /-- What the components are, by number. -/
  kinds : Array Kind
  /-- The links, each from a component to one that depends on it. -/
  links : Links
  /-- The propositions by name. -/
  names : OrderedMap (Atom Symbol) Nat
  /-- For a proposition about the state, the one about the next state that decides it. -/
  drivers : OrderedMap Nat Nat
  /-- What may hold at the start, with the components that say so. -/
  initial : OrderedMap (Atom Symbol) (Array Nat)

namespace Assembly

/-! ## Components and links -/

/-- Adds a component. -/
def add (b : Assembly) (kind : Kind) : Nat × Assembly :=
  (b.kinds.size, { b with kinds := b.kinds.push kind })

/-- The proposition of a name, which is added if there is none. -/
def named (b : Assembly) (name : Atom Symbol) : Nat × Assembly :=
  match b.names.get? name with
  | some id => (id, b)
  | none =>
    let (id, b) := b.add (.proposition name none)
    (id, { b with names := b.names.insert name id })

/-- Adds a proposition that no atom of the rules stands for. -/
def anonymous (b : Assembly) : Nat × Assembly := b.add (.proposition ⟨Keyword.anonymous, []⟩ none)

/-- Makes a component an input of another one. -/
def link (b : Assembly) (source target : Nat) : Assembly :=
  { b with links := b.links.link source target }

/-- Takes a component out of the inputs of another one. -/
def unlink (b : Assembly) (source target : Nat) : Assembly :=
  { b with links := b.links.unlink source target }

/-- The components that feed a component, in order. -/
def feeders (b : Assembly) (id : Nat) : List Nat := b.links.inputs.of id

/-- The components that a component feeds, in order. -/
def followers (b : Assembly) (id : Nat) : List Nat := b.links.outputs.of id

/-- The number of the constant that is true. -/
def trueConstant : Nat := 0

/-- The number of the constant that is false. -/
def falseConstant : Nat := 1

/-- The number of the proposition that holds before the first state only. -/
def startProposition : Nat := 2

/-- The constants and the proposition that holds before the first state only. -/
def initialAssembly : Assembly where
  kinds := #[.constant true, .constant false, .proposition ⟨Keyword.start, []⟩ none]
  links := .empty
  names := OrderedMap.empty.insert ⟨Keyword.start, []⟩ startProposition
  drivers := .empty
  initial := .empty

/-! ## Facts and rules -/

/-- The atom about the state that an atom about the start or the next state gives rise to. -/
def stateAtom (a : Atom Symbol) : Atom Symbol := ⟨Keyword.holds, a.args⟩

/-- Records that the component says that the atom holds at the start. -/
def addInitial (b : Assembly) (a : Atom Symbol) (source : Nat) : Except CompileError Assembly :=
  if a.arity = 1 then
    .ok { b with
      initial := b.initial.alter (stateAtom a) fun sources? => (sources?.getD #[]).push source }
  else .error (.malformedHead a.relation)

/-- Links what holds next to what holds, if it is not linked yet. -/
def addTransition (b : Assembly) (next state : Nat) : Assembly :=
  if (b.drivers.get? state).isSome then b
  else
    let (transition, b) := b.add .transition
    let b := (b.link next transition).link transition state
    { b with drivers := b.drivers.insert state next }

/-- The proposition that a fact or rule concludes. -/
def head (b : Assembly) (a : Atom Symbol) : Except CompileError (Nat × Assembly) :=
  if a.relation = Keyword.holds ∨ a.relation = Keyword.does ∨ a.relation = Keyword.distinct then
    .error (.malformedHead a.relation)
  else if a.relation ≠ Keyword.next then .ok (b.named a)
  else if a.arity ≠ 1 then .error (.malformedHead a.relation)
  else
    let (next, b) := b.named a
    let (state, b) := b.named (stateAtom a)
    .ok (next, b.addTransition next state)

/-- The proposition of an atom in the body of a rule for `relation`.  Whether terms differ is known,
so that `distinct` is fed by a constant. -/
def atomInput (b : Assembly) (relation : Symbol) (a : Atom Symbol) :
    Except CompileError (Nat × Assembly) :=
  if a.relation = Keyword.distinct then
    match a.args with
    | [s, t] =>
      let (id, b) := b.anonymous
      .ok (id, b.link (if s = t then falseConstant else trueConstant) id)
    | _ => .error (.unsupportedLiteral relation)
  else .ok (b.named a)

/-- The proposition of a literal in the body of a rule for `relation`. -/
def literalInput (b : Assembly) (relation : Symbol) :
    Formula Symbol → Except CompileError (Nat × Assembly)
  | .atom a => b.atomInput relation a
  | .neg (.atom a) =>
    match b.atomInput relation a with
    | .error e => .error e
    | .ok (input, b) =>
      let (gate, b) := b.add .not
      let (id, b) := b.anonymous
      .ok (id, (b.link input gate).link gate id)
  | _ => .error (.unsupportedLiteral relation)

/-- Links a literal to the gate of its rule. -/
def addLiteral (relation : Symbol) (gate : Nat) (b : Assembly) (φ : Formula Symbol) :
    Except CompileError Assembly :=
  match b.literalInput relation φ with
  | .error e => .error e
  | .ok (input, b) => .ok (b.link input gate)

/-- Links a component to the proposition that it concludes. -/
def addConclusion (b : Assembly) (source : Nat) (a : Atom Symbol) : Except CompileError Assembly :=
  match b.head a with
  | .error e => .error e
  | .ok (id, b) => .ok (b.link source id)

/-- Adds a fact or rule. -/
def addFormula (b : Assembly) : Formula Symbol → Except CompileError Assembly
  | .atom a =>
    if a.relation = Keyword.init then b.addInitial a startProposition
    else b.addConclusion trueConstant a
  | .rule a body =>
    let (gate, b) := b.add .and
    match foldSteps (addLiteral a.relation gate) b body with
    | .error e => .error e
    | .ok b =>
      if a.relation = Keyword.init then (b.link startProposition gate).addInitial a gate
      else b.addConclusion gate a
  | .neg _ | .disj _ => .error (.unsupportedLiteral Keyword.anonymous)

/-! ## The start -/

/-- Adds a transition to a proposition that nothing decides, and returns what its sources are to be
linked to. -/
def addDriver (b : Assembly) (state : Nat) (sources : Array Nat) : Nat × Assembly :=
  let (transition, b) := b.add .transition
  let b := b.link transition state
  if sources.size = 1 then (transition, b)
  else
    let (id, b) := b.anonymous
    (id, b.link id transition)

/-- Feeds what holds at the start through the transition of its proposition. -/
def wireInitial (b : Assembly) (name : Atom Symbol) (sources : Array Nat) : Assembly :=
  let (state, b) := b.named name
  let (driver, b) :=
    match b.drivers.get? state with
    | some driver => (driver, b)
    | none => b.addDriver state sources
  sources.toList.foldl (fun b source => b.link source driver) b

/-- Feeds everything that holds at the start. -/
def wireAllInitial (b : Assembly) : Assembly :=
  b.initial.toList.foldl (fun b (name, sources) => b.wireInitial name sources) b

/-! ## Propositions with several inputs -/

/-- The propositions with several inputs. -/
def crowded (b : Assembly) : List Nat :=
  b.kinds.toList.zipIdx.filterMap fun (kind, id) =>
    if kind.isProposition && decide (1 < (b.feeders id).length) then some id else none

/-- Puts a proposition of its own between an input of a proposition and the gate that collects its
inputs. -/
def separate (id gate : Nat) (underlying : Option (Atom Symbol)) (b : Assembly) (input : Nat) :
    Assembly :=
  let (disjunct, b) := b.add (.proposition ⟨Keyword.disjunct, []⟩ underlying)
  ((b.unlink input id).link input disjunct).link disjunct gate

/-- Gives a proposition an `or` gate in place of its inputs. -/
def collectInputs (b : Assembly) (id : Nat) : Assembly :=
  match b.kinds[id]? with
  | none => b
  | some kind =>
    let inputs := b.feeders id
    let (gate, b) := b.add .or
    (inputs.foldl (separate id gate kind.name?) b).link gate id

/-- Gives every proposition with several inputs an `or` gate in their place. -/
def repair (b : Assembly) : Assembly := b.crowded.foldl collectInputs b

/-! ## Moves -/

/-- The arguments of the propositions that a move may be made. -/
def legalArguments (b : Assembly) : List (List (Term Symbol)) :=
  b.kinds.toList.filterMap fun kind =>
    match kind.ownName? with
    | some name => if name.relation = Keyword.legal then some name.args else none
    | none => none

/-- Adds the proposition that the move is made, if there is none. -/
def addInput (b : Assembly) (args : List (Term Symbol)) : Assembly :=
  (b.named ⟨Keyword.does, args⟩).2

/-- Adds a proposition for every move that may be made. -/
def addInputs (b : Assembly) : Assembly := b.legalArguments.foldl addInput b

/-! ## The whole -/

/-- Assembles a ground description. -/
def ofFormulas (φs : List (Formula Symbol)) : Except CompileError Assembly :=
  match foldSteps addFormula initialAssembly φs with
  | .error e => .error e
  | .ok b => .ok b.wireAllInitial.repair.addInputs

/-- The components with their links. -/
def components (b : Assembly) : List Component :=
  b.kinds.toList.zipIdx.map fun (kind, id) => ⟨kind, b.feeders id, b.followers id⟩

end Assembly

end GameCircuit
