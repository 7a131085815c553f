import GameCircuit.Canonical.Equality
import GameCircuit.Canonical.Literal
import GameCircuit.Canonical.Schedule
import GameCircuit.Canonical.Specialization
import GameCircuit.Settings

/-!
# Normalization

Brings a description into the form that grounding expects.  One pass cleans every formula, solves
its equalities, drops what says nothing, and replaces variables that stand for function terms;
passes are repeated until one changes nothing.  At the end every body is scheduled.

`base(x)` declares what may hold in a state.  Older descriptions use the name `base` with another
number of arguments for relations of their own; if any does, the ground `base` facts are no
declarations and are dropped.

A failing normalization returns the lexicon too: names that were made on the way stay.
-/

namespace GameCircuit

/-- The description uses `base` with a number of arguments other than one. -/
def hasForeignBase (φs : List (Formula Symbol)) : Bool :=
  (φs.flatMap Formula.atoms).any fun a => a.relation = Keyword.base && a.arity != 1

namespace Formula

/-- A rule without conditions is a fact. -/
def unconditional : Formula Symbol → Formula Symbol
  | .rule head [] => .atom head
  | φ => φ

/-- A ground fact about `base`. -/
def isBaseFact : Formula Symbol → Bool
  | .atom a => a.relation = Keyword.base && a.isGround
  | _ => false

/-- One formula in one pass: cleaned, with its equalities solved, or `none` if it says nothing. -/
def simplify (dropBase : Bool) (φ : Formula Symbol) :
    Except CompileError (Option (Formula Symbol)) := do
  let φ ← φ.unconditional.clean
  let φ? ←
    match φ with
    | .rule head body => Option.map Clause.toFormula <$> Clause.solve ⟨head, body⟩
    | φ => pure (some φ)
  return φ?.filter fun φ => !(dropBase && φ.isBaseFact)

end Formula

/-- One pass over a description, before variables are specialized. -/
def simplifyAll (φs : List (Formula Symbol)) : Except CompileError (List (Formula Symbol)) := do
  let simplified ← φs.mapM (Formula.simplify (hasForeignBase φs))
  return distinct (simplified.filterMap id)

/-- One pass over a description, where variables are specialized to the given depth. -/
def normalizePass (depth? : Option Nat) (φs : List (Formula Symbol)) (l : Lexicon) :
    Except CompileError (List (Formula Symbol) × Lexicon) := do
  let φs ← simplifyAll φs
  return match depth? with
    | some depth => specialize depth φs l
    | none => (φs, l)

namespace Formula

/-- The formula with its body scheduled. -/
def scheduled : Formula Symbol → Formula Symbol
  | .rule head body => .rule head (schedule body)
  | φ => φ

end Formula

/-- Repeats the pass up to `passes` times, until it changes nothing. -/
def normalizeLoop (limit : Nat) (depth? : Option Nat) :
    (passes : Nat) → List (Formula Symbol) → Lexicon →
      Except CompileError (List (Formula Symbol)) × Lexicon
  | 0, _, l => (.error (.normalizationDiverged limit), l)
  | passes + 1, φs, l =>
    match normalizePass depth? φs l with
    | .error e => (.error e, l)
    | .ok (φs', l') =>
      if φs' = φs then (.ok (φs'.map Formula.scheduled), l')
      else normalizeLoop limit depth? passes φs' l'

/-- Brings a description into normal form. -/
def normalize (settings : Settings) (φs : List (Formula Symbol)) (l : Lexicon) :
    Except CompileError (List (Formula Symbol)) × Lexicon :=
  normalizeLoop settings.passes (if settings.specialize then some (compoundDepth φs) else none)
    settings.passes φs l

end GameCircuit
