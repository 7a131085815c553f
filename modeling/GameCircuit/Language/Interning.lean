import GameCircuit.Language.Formula
import GameCircuit.Language.Symbol

/-!
# Interning

Turns names into symbols.  Names are numbered in reading order: a relation or function before its
arguments, arguments from left to right, the head of a rule before its body.
-/

namespace GameCircuit

/-- Runs each step in turn, each on the lexicon that the one before leaves, and puts the results
behind those that are there. -/
def internOnto {α : Type} (done : Array α) :
    List (Lexicon → α × Lexicon) → Lexicon → List α × Lexicon
  | [], l => (done.toList, l)
  | step :: steps, l =>
    let (a, l) := step l
    internOnto (done.push a) steps l

/-- Runs each step in turn, each on the lexicon that the one before leaves. -/
def internAll {α : Type} (steps : List (Lexicon → α × Lexicon)) (l : Lexicon) :
    List α × Lexicon :=
  internOnto #[] steps l

theorem internOnto_eq {α : Type} (done : Array α) (steps : List (Lexicon → α × Lexicon))
    (l : Lexicon) :
    internOnto done steps l =
      (done.toList ++ (internAll steps l).1, (internAll steps l).2) := by
  induction steps generalizing done l with
  | nil => simp [internOnto, internAll]
  | cons step steps ih =>
    simp only [internOnto, internAll]
    rw [ih (done.push _), ih (#[].push _)]
    simp

@[simp] theorem internAll_nil {α : Type} (l : Lexicon) :
    internAll ([] : List (Lexicon → α × Lexicon)) l = ([], l) := rfl

theorem internAll_cons {α : Type} (step : Lexicon → α × Lexicon)
    (steps : List (Lexicon → α × Lexicon)) (l : Lexicon) :
    internAll (step :: steps) l =
      ((step l).1 :: (internAll steps (step l).2).1, (internAll steps (step l).2).2) := by
  rw [internAll, internOnto]
  exact internOnto_eq _ steps _

namespace Term

/-- The term with its names replaced by symbols. -/
def intern : Term String → Lexicon → Term Symbol × Lexicon :=
  fold (fun c l => (l.intern c).map .const id) (fun x l => (l.intern x).map .var id)
    fun f args l =>
      let (f, l) := l.intern f
      (internAll args l).map (.app f) id

end Term

namespace Atom

/-- The atom with its names replaced by symbols. -/
def intern (a : Atom String) (l : Lexicon) : Atom Symbol × Lexicon :=
  let (relation, l) := l.intern a.relation
  (internAll (a.args.map Term.intern) l).map (Atom.mk relation) id

end Atom

namespace Formula

/-- The formula with its names replaced by symbols. -/
def intern : Formula String → Lexicon → Formula Symbol × Lexicon :=
  fold (fun a l => (a.intern l).map .atom id)
    (fun head body l =>
      let (head, l) := head.intern l
      (internAll body l).map (.rule head) id)
    (fun φ l => (φ l).map .neg id) (fun φs l => (internAll φs l).map .disj id)

end Formula

end GameCircuit
