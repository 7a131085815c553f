import GameCircuit.Language.Formula
import GameCircuit.Language.Symbol

/-!
# Printing formulas

A formula is written as `head <= literal, literal`, with `not(..)` and `or(.., ..)` for negation and
disjunction.  A function is always followed by parentheses and a relation only if it has arguments.
A variable is its name behind a mark: `?` in what is shown, `'` in rule text, so the mark is a
parameter.
-/

namespace GameCircuit

/-- Writes the parts with a comma and a blank between them. -/
def commaSeparated (parts : List (List Char)) : List Char := [',', ' '].intercalate parts

/-- Writes the parts as an argument list. -/
def parenthesized (parts : List (List Char)) : List Char := '(' :: (commaSeparated parts ++ [')'])

namespace Term

/-- Writes a term, with `mark` in front of each variable. -/
def write (mark : Char) : Term String → List Char :=
  fold String.toList (fun x => mark :: x.toList) fun f args => f.toList ++ parenthesized args

end Term

namespace Atom

/-- Writes an atom, with `mark` in front of each variable. -/
def write (mark : Char) (a : Atom String) : List Char :=
  a.relation.toList ++ if a.args.isEmpty then [] else parenthesized (a.args.map (Term.write mark))

end Atom

namespace Formula

/-- Writes a formula, with `mark` in front of each variable. -/
def write (mark : Char) : Formula String → List Char :=
  fold (Atom.write mark)
    (fun head body => head.write mark ++ " <= ".toList ++ commaSeparated body)
    (fun φ => "not".toList ++ parenthesized [φ]) (fun φs => "or".toList ++ parenthesized φs)

end Formula

/-! ## Showing -/

/-- The mark of a variable in what is shown. -/
def variableMark : Char := '?'

namespace Lexicon

variable (l : Lexicon)

/-- Shows a term under the names of the lexicon. -/
def showTerm (t : Term Symbol) : String := String.ofList ((t.map l.resolve).write variableMark)

/-- Shows an atom under the names of the lexicon. -/
def showAtom (a : Atom Symbol) : String := String.ofList ((a.map l.resolve).write variableMark)

/-- Shows a formula under the names of the lexicon. -/
def showFormula (φ : Formula Symbol) : String :=
  String.ofList ((φ.map l.resolve).write variableMark)

end Lexicon

end GameCircuit
