import GameCircuit.Circuit.Assembly
import GameCircuit.Circuit.Basic
import GameCircuit.Circuit.Score

/-!
# Building a circuit

Finds the propositions that matter for play among the components of an assembly.
-/

namespace GameCircuit

namespace Atom

/-- The player that an atom is about. -/
def role? (a : Atom Symbol) : Option Symbol :=
  match a.args with
  | .const role :: _ => some role
  | _ => none

/-- What an atom `goal(r, n)` says that the state is worth. -/
def score? (l : Lexicon) (a : Atom Symbol) : Option Nat :=
  match a.args with
  | _ :: .const value :: _ => readScore? (l.resolve value)
  | _ => none

end Atom

namespace Assembly

/-- The propositions that stand for themselves, with their numbers. -/
def ownNames (b : Assembly) : List (Nat × Atom Symbol) :=
  b.kinds.toList.zipIdx.filterMap fun (kind, id) => kind.ownName?.map (id, ·)

/-- The propositions of a relation, with their names. -/
def ofRelation (b : Assembly) (relation : Symbol) : List (Nat × Atom Symbol) :=
  b.ownNames.filter (·.2.relation = relation)

/-- The propositions of a relation, with the player that each is about. -/
def byRole (b : Assembly) (relation : Symbol) : List (Symbol × Nat) :=
  (b.ofRelation relation).filterMap fun (id, name) => name.role?.map (·, id)

/-- The last proposition that is named by the relation alone. -/
def lastNamed (b : Assembly) (relation : Symbol) : Option Nat :=
  ((b.ofRelation relation).filter (·.2.args.isEmpty)).getLast?.map Prod.fst

/-- The circuit of an assembly, for the given players. -/
def toCircuit (b : Assembly) (l : Lexicon) (roles : List Symbol) : Circuit :=
  let components := (b.components.map some).toArray
  let isBase (id : Nat) : Bool :=
    match (components[id]?).join with
    | some c => isFedByTransition components c
    | none => false
  let pairs := (b.ofRelation Keyword.legal).filterMap fun (id, name) =>
    match name.role? with
    | some _ => (b.names.get? ⟨Keyword.does, name.args⟩).map (id, ·)
    | none => none
  { roles
    components
    names := b.names.toList
    base := (b.ownNames.map Prod.fst).filter isBase
    inputs := (b.ofRelation Keyword.does).map Prod.fst
    legal := b.byRole Keyword.legal
    goals := b.byRole Keyword.goal
    scores := (b.ofRelation Keyword.goal).filterMap fun (id, name) => (name.score? l).map (id, ·)
    start := b.lastNamed Keyword.start
    terminal := b.lastNamed Keyword.terminal
    legalInputs := pairs
    inputLegals := pairs.map Prod.swap }

end Assembly

/-- The circuit of a ground description, for the given players. -/
def Circuit.build (l : Lexicon) (roles : List Symbol) (φs : List (Formula Symbol)) :
    Except CompileError Circuit :=
  match Assembly.ofFormulas φs with
  | .error e => .error e
  | .ok b => .ok (b.toCircuit l roles)

end GameCircuit
