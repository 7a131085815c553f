import GameCircuit.Canonical.Normalize
import GameCircuit.Circuit.Build
import GameCircuit.Grounding.Emission

/-!
# Games

A game is a description and its players.  Compiling it brings the description into normal form,
grounds it and builds a circuit.
-/

namespace GameCircuit

/-- A description and its players. -/
structure Game where
  /-- The players. -/
  roles : List Symbol
  /-- The facts and rules. -/
  rules : List (Formula Symbol)

namespace Game

/-- The players that a formula declares. -/
def declaredRole? : Formula Symbol → Option Symbol
  | .atom ⟨relation, [.const role]⟩ => if relation = Keyword.role then some role else none
  | _ => none

/-- The game whose players are those that the description declares. -/
def ofRules (rules : List (Formula Symbol)) : Game :=
  ⟨(rules.filterMap declaredRole?).eraseDups, rules⟩

/-- Compiles a game into a circuit. -/
def compile (settings : Settings) (g : Game) (l : Lexicon) :
    Except CompileError Circuit × Lexicon :=
  match normalize settings g.rules l with
  | (.error e, l) => (.error e, l)
  | (.ok φs, l) =>
    match ((Database.empty settings.maxDomain).ground φs).2 with
    | .error e => (.error e, l)
    | .ok φs => (Circuit.build l g.roles φs, l)

end Game

end GameCircuit
