import GameCircuit.Canonical.Occupancy
import GameCircuit.Language.Interning

/-!
# Variables that stand for function terms

Grounding fills the places of constants and variables with constants, so a variable that stands for
a function term has to be replaced by one first.  Which functions a variable of a rule may stand for
is judged by the atoms of the body that bind it: only what stands in the description at all its
places.  A rule is replaced by one variant for each choice of such functions; a function's arguments
are new variables, named after the variable, the function and the argument number.

Variables at paths longer than any that leads to a function are left alone, which keeps a rule such
as `p(f(x)) <= p(x)` from growing for ever.
-/

namespace GameCircuit

/-- The members of the first list that the second shares, in the order of the first. -/
def inBoth (xs ys : List Occupant) : List Occupant := xs.filter (ys.contains ·)

/-- The members of either list, those of the first before those that only the second has. -/
def inEither (xs ys : List Occupant) : List Occupant := xs ++ ys.filter fun y => !xs.contains y

/-- What a literal says about a variable. -/
structure Evidence where
  /-- What the variable may stand for, or `none` if the literal does not restrict it. -/
  allowed : Option (List Occupant)
  /-- The variable stands at a path that is too long to be expanded. -/
  tooDeep : Bool

namespace Evidence

/-- The literal says nothing. -/
def silent : Evidence := ⟨none, false⟩

/-- What two literals say together. -/
def both (e e' : Evidence) : Evidence where
  allowed :=
    match e.allowed, e'.allowed with
    | some xs, some ys => some (inBoth xs ys)
    | some xs, none => some xs
    | none, ys => ys
  tooDeep := e.tooDeep || e'.tooDeep

/-- What the literals say together. -/
def all : List Evidence → Evidence := List.foldl both silent

/-- What a disjunction says if its first alternative says `e` and the others together `rest`: every
alternative has to restrict the variable, and after one that does not, none is looked at. -/
def either (e rest : Evidence) : Evidence :=
  match e.allowed with
  | none => e
  | some xs => ⟨rest.allowed.map (inEither xs), e.tooDeep || rest.tooDeep⟩

end Evidence

namespace Atom

/-- What an atom says about a variable: that it stands at all its places for what is found there. -/
def evidence (occupancy : Occupancy) (depth : Nat) (x : Symbol) (a : Atom Symbol) : Evidence where
  allowed :=
    let found := (a.pathsTo x).map fun path => occupancy.lookup (a.site path)
    match found with
    | [] => none
    | os :: oss => if found.any List.isEmpty then none else some (oss.foldl inBoth os)
  tooDeep := (a.pathsTo x).any fun path => decide (depth < path.length)

end Atom

namespace Formula

/-- What a literal says about a variable. -/
def evidence (occupancy : Occupancy) (depth : Nat) (x : Symbol) : Formula Symbol → Evidence
  | .atom a => a.evidence occupancy depth x
  | .disj alternatives =>
    alternatives.foldr (fun φ rest =>
      match φ with
      | .atom a => (a.evidence occupancy depth x).either rest
      | _ => .silent) ⟨some [], false⟩
  | .neg _ | .rule _ _ => .silent

end Formula

namespace Clause

/-- What a variable of a rule may stand for, if the rule says so. -/
def candidates (occupancy : Occupancy) (depth : Nat) (c : Clause Symbol) (x : Symbol) :
    Option (List Occupant) :=
  let e := Evidence.all (c.body.map (Formula.evidence occupancy depth x))
  if e.tooDeep then none else e.allowed

/-- The variables of a rule that may stand for function terms, with what they may stand for. -/
def compoundVariables (occupancy : Occupancy) (depth : Nat) (c : Clause Symbol) :
    List (Symbol × List Occupant) :=
  c.vars.filterMap fun x =>
    match c.candidates occupancy depth x with
    | some os => if os.any Occupant.isFunctor then some (x, os) else none
    | none => none

end Clause

namespace Lexicon

/-- The name of argument `i` of the function `f` in place of the variable `x`. -/
def argumentName (l : Lexicon) (x f : Symbol) (i : Nat) : String :=
  l.resolve x ++ "." ++ l.resolve f ++ "." ++ toString i

/-- The function `f` applied to new variables, in place of the variable `x`. -/
def freshTerm (x f : Symbol) (arity : Nat) (l : Lexicon) : Term Symbol × Lexicon :=
  let args := (List.range arity).map fun i (m : Lexicon) =>
    (m.intern (l.argumentName x f i)).map Term.var id
  (internAll args l).map (.app f) id

/-- The terms that replace the variable `x`, one for each thing that it may stand for.  For a
constant it stays as it is. -/
def replacements (x : Symbol) (os : List Occupant) (l : Lexicon) : List (Term Symbol) × Lexicon :=
  internAll (os.map fun
    | .const => fun l => (Term.var x, l)
    | .functor f arity => freshTerm x f arity) l

end Lexicon

/-- All ways to choose one term for each variable; the choice for the first varies last. -/
def choices : List (Symbol × List (Term Symbol)) → List (List (Symbol × Term Symbol))
  | [] => [[]]
  | (x, ts) :: rest => ts.flatMap fun t => (choices rest).map ((x, t) :: ·)

namespace Clause

/-- The variants of a rule. -/
def specialize (occupancy : Occupancy) (depth : Nat) (c : Clause Symbol) (l : Lexicon) :
    List (Clause Symbol) × Lexicon :=
  let (options, l) := internAll ((c.compoundVariables occupancy depth).map fun (x, os) l =>
    (l.replacements x os).map (x, ·) id) l
  ((choices options).map fun pairs => c.subst (Term.ofPairs pairs), l)

end Clause

/-- Replaces each rule by its variants. -/
def specialize (depth : Nat) (φs : List (Formula Symbol)) (l : Lexicon) :
    List (Formula Symbol) × Lexicon :=
  let occupancy := Occupancy.ofFormulas φs
  let (variants, l) := internAll (φs.map fun φ l =>
    match φ with
    | .rule head body => (Clause.specialize occupancy depth ⟨head, body⟩ l).map
        (List.map Clause.toFormula) id
    | φ => ([φ], l)) l
  (distinct variants.flatten, l)

end GameCircuit
