import GameCircuit.Error
import GameCircuit.Language.Formula

/-!
# Solving equalities

A literal `not(distinct(s, t))` of a body says that `s` and `t` are equal.  `Clause.solve` replaces
variables so that all these literals become trivial, and then drops them.  Two different constants,
or a constant and a function, are never equal, so that such a rule concludes nothing.  Two different
function terms would have to be unified, which is refused; and so is a variable that would have to
equal a function term that holds it.
-/

namespace GameCircuit

namespace Formula

/-- The two terms of `not(distinct(s, t))`. -/
def equality? : Formula Symbol → Option (Term Symbol × Term Symbol)
  | .neg (.atom ⟨relation, [s, t]⟩) => if relation = Keyword.distinct then some (s, t) else none
  | _ => none

end Formula

/-- What it takes for two terms to be equal. -/
inductive Comparison where
  /-- They are the same term. -/
  | same
  /-- The variable has to be the term. -/
  | bind (x : Symbol) (t : Term Symbol)
  /-- They are never equal. -/
  | clash
  /-- Two function terms would have to be unified. -/
  | unsupported (f g : Symbol)
deriving DecidableEq

namespace Term

/-- Requires a variable to be a term other than itself, which may not hold it. -/
def bindTo (x : Symbol) (t : Term Symbol) : Comparison :=
  match t with
  | .app f _ => if x ∈ t.vars then .unsupported f f else .bind x t
  | .const _ | .var _ => .bind x t

/-- What it takes for two terms to be equal. -/
def compare (s t : Term Symbol) : Comparison :=
  if s = t then .same
  else
    match s, t with
    | .var x, t => bindTo x t
    | s, .var x => bindTo x s
    | .app f _, .app g _ => .unsupported f g
    | .const _, .const _ | .const _, .app _ _ | .app _ _, .const _ => .clash

end Term

/-- Extends the substitution `σ` until it solves the equalities of a body, or finds that nothing
does (`none`). -/
def solveEqualities (σ : Symbol → Term Symbol) :
    List (Formula Symbol) → Except CompileError (Option (Symbol → Term Symbol))
  | [] => .ok (some σ)
  | φ :: φs =>
    match φ.equality? with
    | none => solveEqualities σ φs
    | some (s, t) =>
      match (s.subst σ).compare (t.subst σ) with
      | .same => solveEqualities σ φs
      | .bind x u => solveEqualities (Term.andThen σ (Term.single x u)) φs
      | .clash => .ok none
      | .unsupported f g => .error (.unsupportedEquality f g)

namespace Clause

/-- The rule with its equalities solved and dropped, or `none` if it concludes nothing. -/
def solve (c : Clause Symbol) : Except CompileError (Option (Clause Symbol)) :=
  match solveEqualities .var c.body with
  | .error e => .error e
  | .ok none => .ok none
  | .ok (some σ) =>
    .ok (some (Clause.subst σ ⟨c.head, c.body.filter fun φ => φ.equality?.isNone⟩))

end Clause

end GameCircuit
