import GameCircuit.Language.Formula
import GameCircuit.Language.Symbol

/-!
# The order of a rule body

A literal `distinct(s, t)`, negated or not, can be decided only when its variables have values, and
values come from the other literals.  `schedule` moves such *equality literals* behind the literals
that bind their variables, and no further: each is released as soon as its last variable is bound.
All other literals keep their order, and an equality literal that nothing ever binds goes last.
-/

namespace GameCircuit

namespace Formula

/-- `distinct` under any number of negations. -/
def isEquality : Formula Symbol → Bool :=
  fold (fun a => a.relation = Keyword.distinct) (fun _ _ => false) id fun _ => false

/-- The members of the first list that all others share. -/
def sharedByAll : List (List Symbol) → List Symbol
  | [] => []
  | xs :: xss => xs.filter fun x => xss.all (·.contains x)

/-- The variables to which a literal gives values: those of an atom, and of a disjunction those that
every alternative binds. -/
def binds : Formula Symbol → List Symbol :=
  fold (fun a => if a.relation = Keyword.distinct then [] else a.vars) (fun _ _ => [])
    (fun _ => []) sharedByAll

/-- All variables of the formula are among `bound`. -/
def isBoundBy (bound : List Symbol) (φ : Formula Symbol) : Bool := φ.vars.all (bound.contains ·)

end Formula

/-- Schedules the rest of a body, where `bound` has values already and `held` is waiting. -/
def scheduleFrom (bound : List Symbol) (held : List (Formula Symbol)) :
    List (Formula Symbol) → List (Formula Symbol)
  | [] => held
  | φ :: φs =>
    if φ.isEquality then
      if φ.isBoundBy bound then φ :: scheduleFrom bound held φs
      else scheduleFrom bound (held ++ [φ]) φs
    else
      let bound := bound ++ φ.binds
      φ :: (held.filter (·.isBoundBy bound) ++
        scheduleFrom bound (held.filter fun ψ => !ψ.isBoundBy bound) φs)

/-- Puts every equality literal of a body behind the literals that bind its variables. -/
def schedule (body : List (Formula Symbol)) : List (Formula Symbol) := scheduleFrom [] [] body

end GameCircuit
