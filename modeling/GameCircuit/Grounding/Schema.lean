import GameCircuit.Language.Code

/-!
# Schemas

Grounding keeps the ground atoms of a description as tuples of constants.  A tuple holds the
constants of an atom from left to right, and the rest of the atom, its relation and its functions,
is its *schema*.  Atoms of one schema share a table of tuples; so do relations that share their
tuples by `Symbol.canonical`.
-/

namespace GameCircuit

/-- What is left of a term without its constants and variables. -/
inductive Shape where
  /-- The place of a constant or variable. -/
  | filler
  /-- A function and the shapes of its arguments. -/
  | app (f : Symbol) (args : List Shape)

namespace Shape

mutual

/-- Shapes can be compared. -/
def decEq : (s t : Shape) → Decidable (s = t)
  | .filler, .filler => isTrue rfl
  | .app f ss, .app g ts =>
    if h : f = g then
      match decEqAll ss ts with
      | isTrue h' => isTrue (h ▸ h' ▸ rfl)
      | isFalse h' => isFalse (by simp [h'])
    else isFalse (by simp [h])
  | .filler, .app _ _ => isFalse (by simp)
  | .app _ _, .filler => isFalse (by simp)

/-- Lists of shapes can be compared. -/
def decEqAll : (ss ts : List Shape) → Decidable (ss = ts)
  | [], [] => isTrue rfl
  | s :: ss, t :: ts =>
    match decEq s t with
    | isTrue h =>
      match decEqAll ss ts with
      | isTrue h' => isTrue (h ▸ h' ▸ rfl)
      | isFalse h' => isFalse (by simp [h'])
    | isFalse h => isFalse (by simp [h])
  | [], _ :: _ => isFalse (by simp)
  | _ :: _, [] => isFalse (by simp)

end

instance : DecidableEq Shape := decEq

mutual

/-- The number of places. -/
def arity : Shape → Nat
  | .filler => 1
  | .app _ args => arityAll args

/-- The number of places in all the shapes. -/
def arityAll : List Shape → Nat
  | [] => 0
  | s :: ss => arity s + arityAll ss

end

mutual

/-- Puts the code of a shape in front of a list: its function and the number of arguments, then the
codes of these. -/
def codeOnto : Shape → List Nat → List Nat
  | .filler, rest => 0 :: rest
  | .app f args, rest => 1 :: f.handle :: args.length :: codeAllOnto args rest

/-- Puts the codes of shapes in front of a list. -/
def codeAllOnto : List Shape → List Nat → List Nat
  | [], rest => rest
  | s :: ss, rest => codeOnto s (codeAllOnto ss rest)

end

/-- The code of a shape. -/
def code (s : Shape) : List Nat := s.codeOnto []

theorem codeAllOnto_eq_foldr (ss : List Shape) (rest : List Nat) :
    codeAllOnto ss rest = ss.foldr codeOnto rest := by
  induction ss with
  | nil => rfl
  | cons s ss ih => simp [codeAllOnto, ih]

/-- Induction on shapes, with the hypothesis for each argument of a function. -/
@[elab_as_elim, induction_eliminator]
theorem induct {motive : Shape → Prop} (filler : motive .filler)
    (app : ∀ f args, (∀ s ∈ args, motive s) → motive (.app f args)) (s : Shape) : motive s :=
  @Shape.rec motive (fun ss => ∀ s ∈ ss, motive s) filler app (by simp)
    (fun _ _ hs hss => by simpa using ⟨hs, hss⟩) s

theorem codeOnto_eq (s : Shape) (rest : List Nat) : s.codeOnto rest = s.code ++ rest := by
  induction s generalizing rest with
  | filler => rfl
  | app f args ih =>
    rw [code, codeOnto, codeOnto, codeAllOnto_eq_foldr, codeAllOnto_eq_foldr, foldr_eq_flatMap ih,
      foldr_eq_flatMap ih []]
    simp

theorem code_filler : code .filler = [0] := rfl

theorem code_app (f : Symbol) (args : List Shape) :
    code (.app f args) = 1 :: f.handle :: args.length :: args.flatMap code := by
  rw [code, codeOnto, codeAllOnto_eq_foldr, foldr_eq_flatMap fun s _ => codeOnto_eq s,
    List.append_nil]
  rfl

theorem isSelfDelimiting_code : IsSelfDelimiting code := by
  intro s
  induction s with
  | filler =>
    intro t q r h
    cases t <;> simp [code_filler, code_app] at h
    exact ⟨rfl, h⟩
  | app f args ih =>
    intro t q r h
    cases t <;> simp [code_filler, code_app] at h
    obtain ⟨rfl, hqr⟩ := flatMap_append_inj ih h.2.1 h.2.2
    exact ⟨by rw [Symbol.handle_injective h.1], hqr⟩

end Shape

/-- What stands at a place of an atom. -/
inductive Slot where
  /-- A constant. -/
  | const (c : Symbol)
  /-- A variable. -/
  | var (x : Symbol)
deriving DecidableEq

namespace Slot

/-- The constant of a slot, if it holds one. -/
def constant? : Slot → Option Symbol
  | const c => some c
  | var _ => none

end Slot

namespace Term

/-- The shape of a term. -/
def shape : Term Symbol → Shape := fold (fun _ => .filler) (fun _ => .filler) .app

/-- The constants and variables of a term, from left to right. -/
def slots : Term Symbol → List Slot :=
  fold (fun c => [.const c]) (fun x => [.var x]) fun _ => List.flatten

end Term

/-- What is left of an atom without its constants and variables. -/
structure Schema where
  /-- The canonical relation. -/
  relation : Symbol
  /-- The shapes of the arguments. -/
  args : List Shape
deriving DecidableEq

namespace Schema

/-- The number of places, which is the length of the tuples. -/
def arity (s : Schema) : Nat := Shape.arityAll s.args

instance : Keyed Schema where
  key s := s.relation.handle :: s.args.length :: s.args.foldr Shape.codeOnto []
  key_injective {s t} h := by
    simp only [List.cons.injEq, foldr_eq_flatMap fun u _ => Shape.codeOnto_eq u] at h
    obtain ⟨hargs, -⟩ :=
      flatMap_append_inj (fun u _ => Shape.isSelfDelimiting_code u) h.2.1 h.2.2
    have hrel := Symbol.handle_injective h.1
    cases s; cases t; simp_all

end Schema

namespace Atom

/-- The schema of an atom. -/
def schema (a : Atom Symbol) : Schema := ⟨a.relation.canonical, a.args.map Term.shape⟩

/-- The constants and variables of an atom, from left to right. -/
def slots (a : Atom Symbol) : List Slot := a.args.flatMap Term.slots

/-- The constants of an atom, from left to right. -/
def constants (a : Atom Symbol) : List Symbol := a.slots.filterMap Slot.constant?

end Atom

end GameCircuit
