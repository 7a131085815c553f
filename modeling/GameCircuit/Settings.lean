/-!
# Settings

The bounds under which a description is compiled.
-/

namespace GameCircuit

/-- The bounds of a compilation. -/
structure Settings where
  /-- How many passes the description may take to become stable. -/
  passes : Nat
  /-- Variables that stand for function terms are replaced by such terms. -/
  specialize : Bool
  /-- How many tuples a domain may hold. -/
  maxDomain : Option Nat
deriving DecidableEq

namespace Settings

/-- The usual bounds. -/
def standard : Settings := ⟨64, true, none⟩

/-- Bounds for descriptions that take long to become stable. -/
def permissive : Settings := ⟨1024, true, none⟩

/-- Bounds for descriptions that nobody vouches for. -/
def strict : Settings := ⟨16, true, some 65536⟩

end Settings

end GameCircuit
