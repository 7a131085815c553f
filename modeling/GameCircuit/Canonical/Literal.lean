import GameCircuit.Error
import GameCircuit.Language.Formula

/-!
# What a description may hold

A description consists of facts and rules.  A rule's body consists of atoms, negated atoms, and
disjunctions of these; `distinct` takes two arguments in it, and a relation about states has at
least one everywhere.
-/

namespace GameCircuit

namespace Atom

/-- A relation about states without the part of the state that it is about. -/
def isDegenerate (a : Atom Symbol) : Bool := a.args.isEmpty && a.relation.isStateRelation

/-- If `distinct` is the relation, it has its two arguments. -/
def isComparable (a : Atom Symbol) : Bool := a.relation != Keyword.distinct || a.arity == 2

end Atom

namespace Formula

/-- An atom or a negated atom that a body may hold. -/
def isSimpleLiteral : Formula Symbol → Bool
  | .atom a | .neg (.atom a) => a.isComparable
  | _ => false

/-- A literal that a body may hold. -/
def isLiteral : Formula Symbol → Bool
  | .disj alternatives => alternatives.all isSimpleLiteral
  | φ => φ.isSimpleLiteral

/-- The relation that a report about the formula names. -/
def mainRelation (φ : Formula Symbol) : Symbol :=
  match φ.atoms with
  | [] => Keyword.anonymous
  | a :: _ => a.relation

/-- A fact, or a rule whose body holds nothing but literals. -/
def isSupported : Formula Symbol → Bool
  | .atom _ => true
  | .rule _ body => body.all isLiteral
  | .neg _ | .disj _ => false

/-- Cleans a formula and checks that a description may hold it: functions without arguments become
constants. -/
def clean (φ : Formula Symbol) : Except CompileError (Formula Symbol) :=
  match φ.atoms.find? Atom.isDegenerate with
  | some a => .error (.degenerateTerm a.relation)
  | none => if φ.isSupported then .ok φ.collapse else .error (.unsupportedLiteral φ.mainRelation)

end Formula

end GameCircuit
