import GameCircuit.Language.Formula
import GameCircuit.Language.Symbol
import Mathlib.Data.List.Basic
import Mathlib.Tactic.SplitIfs

/-!
# Instances

An *instance* of a rule replaces its variables by constants.  `Term.inst`, `Atom.inst` and
`Formula.inst` do so for a map `σ` of all names to constants; what such a map does outside the
variables of an atom does not matter (`Atom.inst_congr`), and an expression without variables is its
own only instance (`Formula.inst_of_isGround`).
-/

namespace GameCircuit

namespace Term

/-! ## Equations of the folds -/

section Equations

variable {ν : Type} (σ : ν → Term ν) (f : ν) (ts : List (Term ν))

@[simp] theorem subst_const (c : ν) : (const c).subst σ = const c := rfl

@[simp] theorem subst_var (x : ν) : (var x).subst σ = σ x := rfl

@[simp] theorem subst_app : (app f ts).subst σ = app f (ts.map (subst σ)) := by
  simp [subst]

@[simp] theorem vars_const (c : ν) : (const c).vars = [] := rfl

@[simp] theorem vars_var (x : ν) : (var x).vars = [x] := rfl

@[simp] theorem vars_app : (app f ts).vars = ts.flatMap vars := by
  simp [vars, List.flatMap_def]

end Equations

variable {ν : Type} {σ τ : ν → Term ν} {t : Term ν}

theorem subst_congr (h : ∀ x ∈ t.vars, σ x = τ x) : t.subst σ = t.subst τ := by
  induction t with
  | const c => rfl
  | var x => exact h x (by simp)
  | app f ts ih =>
    have hts : ts.map (subst σ) = ts.map (subst τ) := by
      refine List.map_congr_left fun t ht => ih t ht fun x hx => h x ?_
      rw [vars_app, List.mem_flatMap]
      exact ⟨t, ht, hx⟩
    rw [subst_app, subst_app, hts]

theorem subst_var_id (t : Term ν) : t.subst var = t := by
  induction t with
  | const c => rfl
  | var x => rfl
  | app f ts ih => rw [subst_app, List.map_congr_left ih, List.map_id']

theorem vars_subst (σ : ν → Term ν) (t : Term ν) :
    (t.subst σ).vars = t.vars.flatMap fun x => (σ x).vars := by
  induction t with
  | const c => rfl
  | var x => simp
  | app f ts ih =>
    rw [subst_app, vars_app, vars_app, List.flatMap_map, List.flatMap_assoc]
    exact List.flatMap_congr ih

/-- The term with its variables replaced by constants. -/
def inst (σ : Symbol → Symbol) (t : Term Symbol) : Term Symbol := t.subst fun x => const (σ x)

section Inst

variable {σ : Symbol → Symbol} {t : Term Symbol}

@[simp] theorem inst_const (c : Symbol) : (const c).inst σ = const c := rfl

@[simp] theorem inst_var (x : Symbol) : (var x).inst σ = const (σ x) := rfl

@[simp] theorem inst_app (f : Symbol) (ts : List (Term Symbol)) :
    (app f ts).inst σ = app f (ts.map (inst σ)) :=
  subst_app _ f ts

@[simp] theorem vars_inst : (t.inst σ).vars = [] := by
  rw [inst, vars_subst]
  simp

end Inst

/-- The substitution that a list of pairs gives, at a variable whose pairs agree. -/
theorem ofPairs_eq [DecidableEq ν] {pairs : List (ν × Term ν)} {x : ν} {t : Term ν}
    (h : (x, t) ∈ pairs) (hall : ∀ u, (x, u) ∈ pairs → u = t) : ofPairs pairs x = t := by
  induction pairs with
  | nil => simp at h
  | cons p pairs ih =>
    obtain ⟨y, u⟩ := p
    have hall' : ∀ u, (x, u) ∈ pairs → u = t := fun u hu => hall u (List.mem_cons_of_mem _ hu)
    rw [ofPairs]
    split_ifs with hx
    · exact hall u (by rw [hx.1]; exact List.mem_cons_self)
    · refine ih ?_ hall'
      rcases List.mem_cons.1 h with heq | hmem
      · obtain ⟨rfl, rfl⟩ := Prod.mk.inj heq
        obtain ⟨⟨y, u⟩, hu, rfl⟩ := List.mem_map.1 (not_not.1 (not_and.1 hx rfl))
        rw [← hall' u hu]
        exact hu
      · exact hmem

end Term

namespace Atom

/-- The atom with its variables replaced by constants. -/
def inst (σ : Symbol → Symbol) (a : Atom Symbol) : Atom Symbol := a.subst fun x => .const (σ x)

variable {σ τ : Symbol → Symbol} {a : Atom Symbol}

@[simp] theorem relation_inst : (a.inst σ).relation = a.relation := rfl

@[simp] theorem args_inst : (a.inst σ).args = a.args.map (Term.inst σ) := rfl

theorem isGround_iff {a : Atom Symbol} : a.isGround = true ↔ ∀ t ∈ a.args, t.isGround = true := by
  simp [isGround, vars, Term.isGround]

@[simp] theorem isGround_inst : (a.inst σ).isGround = true := by
  simp [isGround_iff, Term.isGround]

theorem subst_congr {σ τ : Symbol → Term Symbol} (h : ∀ x ∈ a.vars, σ x = τ x) :
    a.subst σ = a.subst τ := by
  have hargs : a.args.map (Term.subst σ) = a.args.map (Term.subst τ) := by
    refine List.map_congr_left fun t ht => Term.subst_congr fun x hx => h x ?_
    exact List.mem_flatMap.2 ⟨t, ht, hx⟩
  rw [subst, subst, hargs]

theorem inst_congr (h : ∀ x ∈ a.vars, σ x = τ x) : a.inst σ = a.inst τ :=
  subst_congr fun x hx => by rw [h x hx]

theorem subst_var_id (a : Atom Symbol) : a.subst .var = a := by
  rw [subst, List.map_congr_left fun t _ => Term.subst_var_id t, List.map_id']

theorem inst_of_isGround (h : a.isGround = true) : a.inst σ = a := by
  have hvars : a.vars = [] := List.isEmpty_iff.1 h
  exact (subst_congr (by simp [hvars])).trans (subst_var_id a)

end Atom

namespace Formula

section Equations

variable {ν : Type} (σ : ν → Term ν)

@[simp] theorem subst_atom (a : Atom ν) : (atom a).subst σ = atom (a.subst σ) := rfl

@[simp] theorem subst_rule (head : Atom ν) (body : List (Formula ν)) :
    (rule head body).subst σ = rule (head.subst σ) (body.map (subst σ)) := by
  simp [subst]

@[simp] theorem subst_neg (φ : Formula ν) : (neg φ).subst σ = neg (φ.subst σ) := rfl

@[simp] theorem subst_disj (φs : List (Formula ν)) : (disj φs).subst σ = disj (φs.map (subst σ)) := by
  simp [subst]

@[simp] theorem atoms_atom (a : Atom ν) : (atom a).atoms = [a] := rfl

@[simp] theorem atoms_rule (head : Atom ν) (body : List (Formula ν)) :
    (rule head body).atoms = head :: body.flatMap atoms := by
  simp [atoms, List.flatMap_def]

@[simp] theorem atoms_neg (φ : Formula ν) : (neg φ).atoms = φ.atoms := rfl

@[simp] theorem atoms_disj (φs : List (Formula ν)) : (disj φs).atoms = φs.flatMap atoms := by
  simp [atoms, List.flatMap_def]

theorem atoms_subst (φ : Formula ν) : (φ.subst σ).atoms = φ.atoms.map (Atom.subst σ) := by
  induction φ with
  | atom a => rfl
  | rule head body ih =>
    simp only [subst_rule, atoms_rule, List.map_cons, List.flatMap_map, List.map_flatMap]
    rw [List.flatMap_congr ih]
  | neg φ ih => exact ih
  | disj φs ih =>
    simp only [subst_disj, atoms_disj, List.flatMap_map, List.map_flatMap]
    exact List.flatMap_congr ih

end Equations

/-- The formula with its variables replaced by constants. -/
def inst (σ : Symbol → Symbol) (φ : Formula Symbol) : Formula Symbol := φ.subst fun x => .const (σ x)

variable {σ : Symbol → Symbol} {φ : Formula Symbol}

@[simp] theorem inst_atom (a : Atom Symbol) : (atom a).inst σ = atom (a.inst σ) := rfl

@[simp] theorem inst_neg (φ : Formula Symbol) : (neg φ).inst σ = neg (φ.inst σ) := rfl

@[simp] theorem inst_disj (φs : List (Formula Symbol)) : (disj φs).inst σ = disj (φs.map (inst σ)) :=
  subst_disj _ φs

@[simp] theorem inst_rule (head : Atom Symbol) (body : List (Formula Symbol)) :
    (rule head body).inst σ = rule (head.inst σ) (body.map (inst σ)) :=
  subst_rule _ head body

theorem mem_atoms_of_mem_body {ψ : Formula Symbol} {a : Atom Symbol} (hψ : ψ ∈ φ.body) (ha : a ∈ ψ.atoms) :
    a ∈ φ.atoms := by
  cases φ with
  | rule head body =>
    rw [atoms_rule]
    exact List.mem_cons_of_mem _ (List.mem_flatMap.2 ⟨ψ, hψ, ha⟩)
  | atom b => cases hψ
  | neg χ => cases hψ
  | disj φs => cases hψ

theorem isGround_iff : φ.isGround = true ↔ ∀ a ∈ φ.atoms, a.isGround = true := by
  simp [isGround, vars, Atom.isGround]

@[simp] theorem isGround_inst : (φ.inst σ).isGround = true := by
  rw [isGround_iff, inst, atoms_subst]
  intro a ha
  obtain ⟨b, -, rfl⟩ := List.mem_map.1 ha
  exact Atom.isGround_inst

theorem subst_congr {σ τ : Symbol → Term Symbol} {φ : Formula Symbol}
    (h : ∀ x ∈ φ.vars, σ x = τ x) : φ.subst σ = φ.subst τ := by
  induction φ with
  | atom a =>
    rw [subst_atom, subst_atom, Atom.subst_congr fun x hx => h x (by simpa [vars] using hx)]
  | rule head body ih =>
    have hhead : head.subst σ = head.subst τ :=
      Atom.subst_congr fun x hx => h x (by simp [vars, hx])
    have hbody : body.map (subst σ) = body.map (subst τ) := by
      refine List.map_congr_left fun ψ hψ => ih ψ hψ fun x hx => h x ?_
      obtain ⟨a, ha, hxa⟩ := List.mem_flatMap.1 hx
      refine List.mem_flatMap.2 ⟨a, ?_, hxa⟩
      rw [atoms_rule]
      exact List.mem_cons_of_mem _ (List.mem_flatMap.2 ⟨ψ, hψ, ha⟩)
    rw [subst_rule, subst_rule, hhead, hbody]
  | neg φ ih => rw [subst_neg, subst_neg, ih fun x hx => h x hx]
  | disj φs ih =>
    have hφs : φs.map (subst σ) = φs.map (subst τ) := by
      refine List.map_congr_left fun ψ hψ => ih ψ hψ fun x hx => h x ?_
      obtain ⟨a, ha, hxa⟩ := List.mem_flatMap.1 hx
      refine List.mem_flatMap.2 ⟨a, ?_, hxa⟩
      rw [atoms_disj]
      exact List.mem_flatMap.2 ⟨ψ, hψ, ha⟩
    rw [subst_disj, subst_disj, hφs]

theorem subst_var_id (φ : Formula Symbol) : φ.subst .var = φ := by
  induction φ with
  | atom a => rw [subst_atom, Atom.subst_var_id]
  | rule head body ih =>
    rw [subst_rule, Atom.subst_var_id, List.map_congr_left ih, List.map_id']
  | neg φ ih => rw [subst_neg, ih]
  | disj φs ih => rw [subst_disj, List.map_congr_left ih, List.map_id']

theorem inst_of_isGround (h : φ.isGround = true) : φ.inst σ = φ := by
  have hvars : φ.vars = [] := List.isEmpty_iff.1 h
  exact (subst_congr (by simp [hvars])).trans (subst_var_id φ)

end Formula

namespace Clause

theorem mem_vars_iff {c : Clause Symbol} {x : Symbol} :
    x ∈ c.vars ↔ x ∈ c.head.vars ∨ ∃ φ ∈ c.body, x ∈ φ.vars := by
  rw [vars, List.mem_eraseDups, Formula.vars, toFormula, Formula.atoms_rule]
  simp only [List.flatMap_cons, List.mem_append, List.mem_flatMap, Formula.vars]
  refine or_congr_right ⟨?_, ?_⟩
  · rintro ⟨a, ⟨φ, hφ, ha⟩, hx⟩
    exact ⟨φ, hφ, a, ha, hx⟩
  · rintro ⟨φ, hφ, a, ha, hx⟩
    exact ⟨a, ⟨φ, hφ, ha⟩, hx⟩

/-- The instance of a rule: a fact, if the rule has no conditions. -/
def inst (σ : Symbol → Symbol) (c : Clause Symbol) : Formula Symbol :=
  if c.body = [] then .atom (c.head.inst σ) else .rule (c.head.inst σ) (c.body.map (Formula.inst σ))

theorem isGround_inst (σ : Symbol → Symbol) (c : Clause Symbol) : (c.inst σ).isGround = true := by
  rw [inst]
  split_ifs with h
  · exact Formula.isGround_inst (φ := .atom c.head)
  · rw [← Formula.inst_rule]
    exact Formula.isGround_inst

end Clause

end GameCircuit
