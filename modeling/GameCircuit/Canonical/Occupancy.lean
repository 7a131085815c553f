import GameCircuit.Collection.OrderedMap
import GameCircuit.Language.Code
import GameCircuit.Sequence

/-!
# What stands where

A *site* is a place in the arguments of a relation: the relation and the argument numbers that lead
there through nested functions.  The *occupancy* of a description lists what stands at its sites, a
constant or a function; variables and the arguments of `distinct` do not count.
-/

namespace GameCircuit

/-- The argument numbers that lead to a place inside terms, the last one first.  Places below one
another share the way to the upper one. -/
abbrev Path := List Nat

/-- What stands at a place: some constant, or a function with a number of arguments. -/
inductive Occupant where
  /-- Some constant. -/
  | const
  /-- The function `f` with `arity` arguments. -/
  | functor (f : Symbol) (arity : Nat)
deriving DecidableEq

namespace Occupant

/-- The occupant is a function. -/
def isFunctor : Occupant → Bool
  | const => false
  | functor _ _ => true

end Occupant

/-- Puts what the arguments hold in front of `rest`, where `path` leads to the function or relation
whose arguments they are, and each argument puts what it holds below a path in front of a list. -/
def argumentsOnto {α : Type} (args : List (Path → List α → List α)) (path : Path) (rest : List α) :
    List α :=
  args.zipIdx.foldr (fun (arg, i) rest => arg (i :: path) rest) rest

namespace Term

/-- Puts the constants and functions of a term with their paths in front of a list, outer before
inner, where the path leads to the term. -/
def occupantsOnto :
    Term Symbol → Path → List (Path × Occupant) → List (Path × Occupant) :=
  fold (fun _ path rest => (path, .const) :: rest) (fun _ _ rest => rest)
    fun f args path rest => (path, .functor f args.length) :: argumentsOnto args path rest

/-- Puts the variables of a term with their paths in front of a list, where the path leads to the
term. -/
def variablePathsOnto : Term Symbol → Path → List (Path × Symbol) → List (Path × Symbol) :=
  fold (fun _ _ rest => rest) (fun x path rest => (path, x) :: rest) fun _ => argumentsOnto

end Term

/-- A place in the arguments of a relation, where relations that share their tuples are one. -/
structure Site where
  /-- The canonical relation. -/
  relation : Symbol
  /-- The way to the place, the argument number of the relation last. -/
  path : Path
deriving DecidableEq

/-- Sites are told apart by relation and path.  The length of the path stands before it, so that
sites of different depth differ early. -/
instance : Keyed Site where
  key site := site.relation.handle :: site.path.length :: site.path
  key_injective {a b} h := by
    simp only [List.cons.injEq] at h
    cases a; cases b
    simp only [Site.mk.injEq]
    exact ⟨Symbol.handle_injective h.1, h.2.2⟩

namespace Atom

/-- The constants and functions of an atom with their paths. -/
def occupants (a : Atom Symbol) : List (Path × Occupant) :=
  if a.relation = Keyword.distinct then []
  else argumentsOnto (a.args.map Term.occupantsOnto) [] []

/-- The variables of an atom with their paths. -/
def variablePaths (a : Atom Symbol) : List (Path × Symbol) :=
  if a.relation = Keyword.distinct then []
  else argumentsOnto (a.args.map Term.variablePathsOnto) [] []

/-- The paths to a variable in an atom. -/
def pathsTo (x : Symbol) (a : Atom Symbol) : List Path :=
  (a.variablePaths.filter (·.2 = x)).map Prod.fst

/-- The place in a relation that a path in one of its atoms leads to. -/
def site (a : Atom Symbol) (path : Path) : Site := ⟨a.relation.canonical, path⟩

end Atom

/-- The constants and functions of a description with their sites, in order. -/
def siteOccupants (φs : List (Formula Symbol)) : List (Site × Occupant) :=
  (φs.flatMap Formula.atoms).flatMap fun a => a.occupants.map fun (path, o) => (a.site path, o)

/-- What stands where in a description, each once for a site. -/
abbrev Occupancy := OrderedMap Site (List Occupant)

namespace Occupancy

/-- The occupancy of a description. -/
def ofFormulas (φs : List (Formula Symbol)) : Occupancy :=
  (siteOccupants φs).foldl (fun occupancy (site, o) =>
    occupancy.alter site fun os? => appendNew (os?.getD []) o) .empty

/-- What stands at a site, each once. -/
def lookup (occupancy : Occupancy) (site : Site) : List Occupant := (occupancy.get? site).getD []

end Occupancy

/-- The length of the longest path that leads to a function. -/
def compoundDepth (φs : List (Formula Symbol)) : Nat :=
  (((siteOccupants φs).filter (·.2.isFunctor)).map (·.1.path.length)).foldl max 0

end GameCircuit
