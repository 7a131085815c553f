import GameCircuit.Collection.Keyed
import GameCircuit.Language.Formula
import GameCircuit.Language.Symbol

/-!
# Codes of expressions

A term, atom or formula is written as a list of numbers: what kind of expression it is, the symbol
that it is built with, the number of its parts, and the codes of these in order.  Codes show where
they end, so no two expressions share one, and sets and maps can use them as keys.
-/

namespace GameCircuit

theorem Symbol.handle_injective {s t : Symbol} (h : s.handle = t.handle) : s = t := by
  cases s; cases t; simp_all

/-- Tuples of symbols are told apart by the numbers of the symbols. -/
instance : Keyed (List Symbol) where
  key tuple := tuple.map Symbol.handle
  key_injective h := List.map_inj_right (fun _ _ => Symbol.handle_injective) |>.1 h

namespace Term

/-- Puts the code of a term in front of a list. -/
def codeOnto : Term Symbol → List Nat → List Nat :=
  fold (fun c rest => 0 :: c.handle :: rest) (fun x rest => 1 :: x.handle :: rest)
    fun f args rest => 2 :: f.handle :: args.length :: args.foldr (fun arg rest => arg rest) rest

/-- The code of a term. -/
def code (t : Term Symbol) : List Nat := t.codeOnto []

theorem codeOnto_app (f : Symbol) (ts : List (Term Symbol)) (rest : List Nat) :
    codeOnto (.app f ts) rest = 2 :: f.handle :: ts.length :: ts.foldr codeOnto rest := by
  simp [codeOnto, List.foldr_map]

theorem codeOnto_eq (t : Term Symbol) (rest : List Nat) : t.codeOnto rest = t.code ++ rest := by
  induction t generalizing rest with
  | const c => rfl
  | var x => rfl
  | app f ts ih =>
    rw [code, codeOnto_app, codeOnto_app, foldr_eq_flatMap ih, foldr_eq_flatMap ih []]
    simp

theorem code_const (c : Symbol) : code (.const c) = [0, c.handle] := rfl

theorem code_var (x : Symbol) : code (.var x) = [1, x.handle] := rfl

theorem code_app (f : Symbol) (ts : List (Term Symbol)) :
    code (.app f ts) = 2 :: f.handle :: ts.length :: ts.flatMap code := by
  rw [code, codeOnto_app, foldr_eq_flatMap fun t _ => codeOnto_eq t, List.append_nil]
  rfl

theorem isSelfDelimiting_code : IsSelfDelimiting code := by
  intro t
  induction t with
  | const c =>
    intro u r s h
    cases u with
    | const d =>
      simp only [code_const, List.cons_append, List.cons.injEq, List.nil_append] at h
      exact ⟨by rw [Symbol.handle_injective h.2.1], h.2.2⟩
    | var x => simp [code_const, code_var] at h
    | app f ts => simp [code_const, code_app] at h
  | var x =>
    intro u r s h
    cases u with
    | const d => simp [code_const, code_var] at h
    | var y =>
      simp only [code_var, List.cons_append, List.cons.injEq, List.nil_append] at h
      exact ⟨by rw [Symbol.handle_injective h.2.1], h.2.2⟩
    | app f ts => simp [code_var, code_app] at h
  | app f ts ih =>
    intro u r s h
    cases u with
    | const d => simp [code_const, code_app] at h
    | var x => simp [code_var, code_app] at h
    | app g us =>
      simp only [code_app, List.cons_append, List.cons.injEq] at h
      obtain ⟨rfl, hrs⟩ := flatMap_append_inj ih h.2.2.1 h.2.2.2
      exact ⟨by rw [Symbol.handle_injective h.2.1], hrs⟩

end Term

namespace Atom

/-- Puts the code of an atom in front of a list. -/
def codeOnto (a : Atom Symbol) (rest : List Nat) : List Nat :=
  a.relation.handle :: a.args.length :: a.args.foldr Term.codeOnto rest

/-- The code of an atom. -/
def code (a : Atom Symbol) : List Nat := a.codeOnto []

theorem codeOnto_eq (a : Atom Symbol) (rest : List Nat) : a.codeOnto rest = a.code ++ rest := by
  have h := fun t (_ : t ∈ a.args) => Term.codeOnto_eq t
  rw [code, codeOnto, codeOnto, foldr_eq_flatMap h, foldr_eq_flatMap h []]
  simp

theorem code_eq (a : Atom Symbol) :
    a.code = a.relation.handle :: a.args.length :: a.args.flatMap Term.code := by
  rw [code, codeOnto, foldr_eq_flatMap fun t _ => Term.codeOnto_eq t, List.append_nil]
  rfl

theorem isSelfDelimiting_code : IsSelfDelimiting code := by
  intro a b r s h
  simp only [code_eq, List.cons_append, List.cons.injEq] at h
  obtain ⟨hargs, hrs⟩ :=
    flatMap_append_inj (fun t _ => Term.isSelfDelimiting_code t) h.2.1 h.2.2
  have hrel := Symbol.handle_injective h.1
  cases a; cases b; simp_all

instance : Keyed (Atom Symbol) := ⟨code, isSelfDelimiting_code.injective⟩

end Atom

namespace Formula

/-- Puts the code of a formula in front of a list. -/
def codeOnto : Formula Symbol → List Nat → List Nat :=
  fold (fun a rest => 0 :: a.codeOnto rest)
    (fun head body rest =>
      1 :: head.codeOnto (body.length :: body.foldr (fun φ rest => φ rest) rest))
    (fun φ rest => 2 :: φ rest)
    fun φs rest => 3 :: φs.length :: φs.foldr (fun φ rest => φ rest) rest

/-- The code of a formula. -/
def code (φ : Formula Symbol) : List Nat := φ.codeOnto []

theorem codeOnto_rule (head : Atom Symbol) (body : List (Formula Symbol)) (rest : List Nat) :
    codeOnto (.rule head body) rest =
      1 :: head.codeOnto (body.length :: body.foldr codeOnto rest) := by
  simp [codeOnto, List.foldr_map]

theorem codeOnto_disj (φs : List (Formula Symbol)) (rest : List Nat) :
    codeOnto (.disj φs) rest = 3 :: φs.length :: φs.foldr codeOnto rest := by
  simp [codeOnto, List.foldr_map]

theorem codeOnto_eq (φ : Formula Symbol) (rest : List Nat) : φ.codeOnto rest = φ.code ++ rest := by
  induction φ generalizing rest with
  | atom a =>
    show 0 :: a.codeOnto rest = 0 :: a.codeOnto [] ++ rest
    rw [Atom.codeOnto_eq, Atom.codeOnto_eq a []]
    simp
  | rule head body ih =>
    rw [code, codeOnto_rule, codeOnto_rule, Atom.codeOnto_eq, Atom.codeOnto_eq,
      foldr_eq_flatMap ih, foldr_eq_flatMap ih []]
    simp
  | neg φ ih =>
    show 2 :: φ.codeOnto rest = 2 :: φ.code ++ rest
    rw [ih, List.cons_append]
  | disj φs ih =>
    rw [code, codeOnto_disj, codeOnto_disj, foldr_eq_flatMap ih, foldr_eq_flatMap ih []]
    simp

theorem code_atom (a : Atom Symbol) : code (.atom a) = 0 :: a.code := rfl

theorem code_rule (head : Atom Symbol) (body : List (Formula Symbol)) :
    code (.rule head body) = 1 :: (head.code ++ body.length :: body.flatMap code) := by
  rw [code, codeOnto_rule, Atom.codeOnto_eq, foldr_eq_flatMap fun φ _ => codeOnto_eq φ,
    List.append_nil]
  rfl

theorem code_neg (φ : Formula Symbol) : code (.neg φ) = 2 :: φ.code := rfl

theorem code_disj (φs : List (Formula Symbol)) :
    code (.disj φs) = 3 :: φs.length :: φs.flatMap code := by
  rw [code, codeOnto_disj, foldr_eq_flatMap fun φ _ => codeOnto_eq φ, List.append_nil]
  rfl

theorem isSelfDelimiting_code : IsSelfDelimiting code := by
  intro φ
  induction φ with
  | atom a =>
    intro ψ r s h
    cases ψ <;> simp [code_atom, code_rule, code_neg, code_disj] at h
    obtain ⟨rfl, hrs⟩ := Atom.isSelfDelimiting_code a _ _ _ h
    exact ⟨rfl, hrs⟩
  | rule head body ih =>
    intro ψ r s h
    cases ψ <;> simp [code_atom, code_rule, code_neg, code_disj] at h
    obtain ⟨rfl, hbody⟩ := Atom.isSelfDelimiting_code head _ _ _ h
    simp only [List.cons.injEq] at hbody
    obtain ⟨rfl, hrs⟩ := flatMap_append_inj ih hbody.1 hbody.2
    exact ⟨rfl, hrs⟩
  | neg φ ih =>
    intro ψ r s h
    cases ψ <;> simp [code_atom, code_rule, code_neg, code_disj] at h
    obtain ⟨rfl, hrs⟩ := ih _ _ _ h
    exact ⟨rfl, hrs⟩
  | disj φs ih =>
    intro ψ r s h
    cases ψ <;> simp [code_atom, code_rule, code_neg, code_disj] at h
    obtain ⟨rfl, hrs⟩ := flatMap_append_inj ih h.1 h.2
    exact ⟨rfl, hrs⟩

instance : Keyed (Formula Symbol) := ⟨code, isSelfDelimiting_code.injective⟩

end Formula

end GameCircuit
