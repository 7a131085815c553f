import GameCircuit.Proofs.Passes
import GameCircuit.Proofs.Flattening
import Mathlib.Order.Bounds.Defs

/-!
# Herbrand models

A Horn formula is a fact, or a rule whose conditions are atoms.  In the Herbrand model of a program its
variables stand for all ground terms, function terms among them.  Functions without arguments are read as
constants there, and relations that share their tuples as one (`Atom.reading`).

What a formula derives in the model stays derived when the formula is simplified, and when it is replaced
by the variant that fits the terms its variables stand for.
-/

namespace GameCircuit

/-! ## Replacing twice -/

namespace Term

variable {σ τ : Symbol → Term Symbol} {t : Term Symbol}

theorem subst_subst (t : Term Symbol) : (t.subst σ).subst τ = t.subst (andThen σ τ) := by
  induction t with
  | const c => rfl
  | var x => rfl
  | app f ts ih =>
    rw [subst_app, subst_app, subst_app, List.map_map]
    exact congrArg (app f) (List.map_congr_left ih)

theorem vars_collapse (t : Term Symbol) : t.collapse.vars = t.vars := by
  induction t with
  | const c => rfl
  | var x => rfl
  | app f ts ih =>
    rw [collapse_app]
    split_ifs with hempty
    · rw [List.isEmpty_iff.1 hempty]
      rfl
    · rw [vars_app, vars_app, List.flatMap_map]
      exact List.flatMap_congr ih

theorem isGround_collapse (t : Term Symbol) : t.collapse.isGround = t.isGround := by
  rw [isGround, isGround, vars_collapse]

end Term

namespace Atom

variable {σ θ : Symbol → Term Symbol} {a : Atom Symbol}

theorem subst_subst (a : Atom Symbol) : (a.subst σ).subst θ = a.subst (Term.andThen σ θ) := by
  simp only [subst, List.map_map, Atom.mk.injEq, true_and]
  exact List.map_congr_left fun t _ => Term.subst_subst t

theorem vars_subst (σ : Symbol → Term Symbol) (a : Atom Symbol) :
    (a.subst σ).vars = a.vars.flatMap fun x => (σ x).vars := by
  rw [vars, vars, subst, List.flatMap_map, List.flatMap_assoc]
  exact List.flatMap_congr fun t _ => Term.vars_subst σ t

theorem vars_collapse (a : Atom Symbol) : a.collapse.vars = a.vars := by
  rw [vars, vars, collapse, List.flatMap_map]
  exact List.flatMap_congr fun t _ => t.vars_collapse

/-- The atom as models have it. -/
def reading (a : Atom Symbol) : Atom Symbol := a.collapse.canonical

theorem reading_eq (a : Atom Symbol) (θ : Symbol → Term Symbol) :
    (a.subst θ).reading = (a.collapse.subst fun x => (θ x).collapse).canonical := by
  rw [reading, collapse_subst]

theorem reading_subst_collapse (a : Atom Symbol) (θ : Symbol → Term Symbol) :
    (a.collapse.subst θ).reading = (a.subst θ).reading := by
  rw [reading_eq, reading_eq, collapse_collapse]

/-- Terms can be collapsed before they replace variables. -/
theorem reading_collapsed (a : Atom Symbol) (θ : Symbol → Term Symbol) :
    (a.subst fun x => (θ x).collapse).reading = (a.subst θ).reading := by
  rw [reading_eq, reading_eq]
  simp only [Term.collapse_collapse]

theorem reading_of_collapsed (ha : a.collapse = a) (hθ : ∀ x, (θ x).collapse = θ x) :
    (a.subst θ).reading = (a.subst θ).canonical := by
  rw [reading_eq, ha]
  simp only [hθ]

end Atom

/-! ## Horn formulas -/

namespace Formula

variable {σ θ : Symbol → Term Symbol} {φ ψ : Formula Symbol} {head : Atom Symbol}

/-- The atoms that a rule needs. -/
def conditions (φ : Formula Symbol) : List (Atom Symbol) := φ.body.flatMap atoms

/-- A fact, or a rule over atoms: without negation, disjunction and `distinct`, and with all its variables in
the conditions. -/
structure IsHorn (φ : Formula Symbol) : Prop where
  /-- It is a fact or a rule. -/
  concludes : φ.head?.isSome = true
  /-- Its conditions are atoms. -/
  literals : φ.body = φ.conditions.map atom
  /-- No atom is about `distinct`. -/
  relations : ∀ a ∈ φ.atoms, a.relation ≠ Keyword.distinct
  /-- Its variables are bound by the conditions. -/
  bound : ∀ x ∈ φ.vars, ∃ a ∈ φ.conditions, x ∈ a.vars

instance (φ : Formula Symbol) : Decidable φ.IsHorn :=
  decidable_of_iff (φ.head?.isSome = true ∧ φ.body = φ.conditions.map atom ∧
      (∀ a ∈ φ.atoms, a.relation ≠ Keyword.distinct) ∧ ∀ x ∈ φ.vars, ∃ a ∈ φ.conditions, x ∈ a.vars)
    ⟨fun h => ⟨h.1, h.2.1, h.2.2.1, h.2.2.2⟩, fun h => ⟨h.concludes, h.literals, h.relations, h.bound⟩⟩

theorem atoms_eq_cons (h : φ.head? = some head) : φ.atoms = head :: φ.conditions := by
  cases φ with
  | atom a =>
    obtain rfl := Option.some.inj h
    rfl
  | rule head' body =>
    obtain rfl := Option.some.inj h
    exact atoms_rule head' body
  | neg φ => cases h
  | disj φs => cases h

theorem mem_atoms_of_mem_conditions {a : Atom Symbol} (h : a ∈ φ.conditions) : a ∈ φ.atoms := by
  obtain ⟨ψ, hψ, haψ⟩ := List.mem_flatMap.1 h
  exact mem_atoms_of_mem_body hψ haψ

theorem head?_subst (φ : Formula Symbol) : (φ.subst σ).head? = φ.head?.map (Atom.subst σ) := by
  cases φ with
  | atom a => rfl
  | rule head body => rw [subst_rule]; rfl
  | neg φ => rfl
  | disj φs => rw [subst_disj]; rfl

theorem body_subst (φ : Formula Symbol) : (φ.subst σ).body = φ.body.map (subst σ) := by
  cases φ with
  | atom a => rfl
  | rule head body => rw [subst_rule]; rfl
  | neg φ => rfl
  | disj φs => rw [subst_disj]; rfl

theorem conditions_subst (φ : Formula Symbol) : (φ.subst σ).conditions = φ.conditions.map (Atom.subst σ) := by
  rw [conditions, conditions, body_subst, List.flatMap_map, List.map_flatMap]
  exact List.flatMap_congr fun ψ _ => atoms_subst σ ψ

theorem vars_subst (φ : Formula Symbol) : (φ.subst σ).vars = φ.vars.flatMap fun x => (σ x).vars := by
  rw [vars, vars, atoms_subst, List.flatMap_map, List.flatMap_assoc]
  exact List.flatMap_congr fun a _ => a.vars_subst σ

theorem head?_collapse (φ : Formula Symbol) : φ.collapse.head? = φ.head?.map Atom.collapse := by
  cases φ with
  | atom a => rfl
  | rule head body => rw [collapse_rule]; rfl
  | neg φ => rfl
  | disj φs => rw [collapse_disj]; rfl

theorem body_collapse (φ : Formula Symbol) : φ.collapse.body = φ.body.map collapse := by
  cases φ with
  | atom a => rfl
  | rule head body => rw [collapse_rule]; rfl
  | neg φ => rfl
  | disj φs => rw [collapse_disj]; rfl

theorem conditions_collapse (φ : Formula Symbol) : φ.collapse.conditions = φ.conditions.map Atom.collapse := by
  rw [conditions, conditions, body_collapse, List.flatMap_map, List.map_flatMap]
  exact List.flatMap_congr fun ψ _ => atoms_collapse ψ

theorem vars_collapse (φ : Formula Symbol) : φ.collapse.vars = φ.vars := by
  rw [vars, vars, atoms_collapse, List.flatMap_map]
  exact List.flatMap_congr fun a _ => a.vars_collapse

theorem head?_unconditional (φ : Formula Symbol) : φ.unconditional.head? = φ.head? := by
  cases φ with
  | rule head body =>
    cases body with
    | nil => rfl
    | cons ψ body => rfl
  | atom a => rfl
  | neg φ => rfl
  | disj φs => rfl

theorem conditions_unconditional (φ : Formula Symbol) : φ.unconditional.conditions = φ.conditions := by
  rw [conditions, body_unconditional, conditions]

theorem vars_unconditional (φ : Formula Symbol) : φ.unconditional.vars = φ.vars := by
  rw [vars, atoms_unconditional, vars]

namespace IsHorn

variable (h : φ.IsHorn)

include h

theorem subst (σ : Symbol → Term Symbol) : (φ.subst σ).IsHorn where
  concludes := by rw [head?_subst, Option.isSome_map, h.concludes]
  literals := by
    rw [body_subst, conditions_subst, h.literals, List.map_map, List.map_map]
    rfl
  relations a ha := by
    rw [atoms_subst] at ha
    obtain ⟨b, hb, rfl⟩ := List.mem_map.1 ha
    exact h.relations b hb
  bound x hx := by
    rw [vars_subst] at hx
    obtain ⟨y, hy, hxy⟩ := List.mem_flatMap.1 hx
    obtain ⟨a, ha, hya⟩ := h.bound y hy
    rw [conditions_subst]
    refine ⟨a.subst σ, List.mem_map_of_mem ha, ?_⟩
    rw [Atom.vars_subst]
    exact List.mem_flatMap.2 ⟨y, hya, hxy⟩

theorem collapse : φ.collapse.IsHorn where
  concludes := by rw [head?_collapse, Option.isSome_map, h.concludes]
  literals := by
    rw [body_collapse, conditions_collapse, h.literals, List.map_map, List.map_map]
    rfl
  relations a ha := by
    rw [atoms_collapse] at ha
    obtain ⟨b, hb, rfl⟩ := List.mem_map.1 ha
    exact h.relations b hb
  bound x hx := by
    rw [vars_collapse] at hx
    obtain ⟨a, ha, hxa⟩ := h.bound x hx
    rw [conditions_collapse]
    exact ⟨a.collapse, List.mem_map_of_mem ha, by rwa [Atom.vars_collapse]⟩

theorem unconditional : φ.unconditional.IsHorn where
  concludes := by rw [head?_unconditional, h.concludes]
  literals := by rw [body_unconditional, conditions_unconditional, h.literals]
  relations := by rw [atoms_unconditional]; exact h.relations
  bound := by rw [vars_unconditional, conditions_unconditional]; exact h.bound

/-- The conditions of a Horn rule are no equalities. -/
theorem equality?_eq_none : ∀ ψ ∈ φ.body, ψ.equality? = none := by
  intro ψ hψ
  rw [h.literals] at hψ
  obtain ⟨a, -, rfl⟩ := List.mem_map.1 hψ
  rfl

/-- A pass only cleans a Horn formula, or drops it. -/
theorem eq_of_simplify {dropBase : Bool} {r : Option (Formula Symbol)} (hr : φ.simplify dropBase = .ok r) :
    r = (some φ.unconditional.collapse).filter fun ψ => !(dropBase && ψ.isBaseFact) := by
  cases hclean : φ.unconditional.clean with
  | error e => simp [simplify, hclean, bind, Except.bind] at hr
  | ok χ =>
    obtain ⟨-, -, rfl⟩ := clean_eq_ok.1 hclean
    rw [simplify_of_solved hclean h.unconditional.collapse.equality?_eq_none] at hr
    exact (Except.ok.inj hr).symm

end IsHorn

/-! ## What a formula derives -/

/-- The atom `A` follows from the atoms `Bs` by the formula, if terms stand for its variables. -/
def Derives (φ : Formula Symbol) (Bs : List (Atom Symbol)) (A : Atom Symbol) : Prop :=
  ∃ head θ, φ.head? = some head ∧ (∀ x, (θ x).isGround = true) ∧ A = (head.subst θ).reading ∧
    Bs = φ.conditions.map fun b => (b.subst θ).reading

variable {Bs : List (Atom Symbol)} {A : Atom Symbol}

/-- It is enough to look at terms without functions that have no arguments. -/
theorem Derives.exists_collapsed (h : φ.Derives Bs A) : ∃ head θ, φ.head? = some head ∧
    (∀ x, (θ x).isGround = true) ∧ (∀ x, (θ x).collapse = θ x) ∧ A = (head.subst θ).reading ∧
      Bs = φ.conditions.map fun b => (b.subst θ).reading := by
  obtain ⟨head, θ, hhead, hground, rfl, rfl⟩ := h
  refine ⟨head, fun x => (θ x).collapse, hhead, fun x => ?_, fun x => (θ x).collapse_collapse, ?_, ?_⟩
  · rw [Term.isGround_collapse, hground x]
  · rw [Atom.reading_collapsed]
  · exact List.map_congr_left fun b _ => (b.reading_collapsed θ).symm

/-- Cleaning a formula keeps what it derives. -/
theorem Derives.unconditional_collapse (h : φ.Derives Bs A) : φ.unconditional.collapse.Derives Bs A := by
  obtain ⟨head, θ, hhead, hground, rfl, rfl⟩ := h
  refine ⟨head.collapse, θ, ?_, hground, (head.reading_subst_collapse θ).symm, ?_⟩
  · rw [head?_collapse, head?_unconditional, hhead]
    rfl
  · rw [conditions_collapse, conditions_unconditional, List.map_map]
    exact List.map_congr_left fun b _ => (b.reading_subst_collapse θ).symm

/-- A variant derives what the formula does, if the terms of the instance are instances of its terms. -/
theorem derives_subst {θ' : Symbol → Term Symbol} (hhead : φ.head? = some head)
    (hground : ∀ x, (θ' x).isGround = true) (hσ : ∀ x ∈ φ.vars, (σ x).subst θ' = θ x) :
    (φ.subst σ).Derives (φ.conditions.map fun b => (b.subst θ).reading) (head.subst θ).reading := by
  have hatom : ∀ a ∈ φ.atoms, (a.subst σ).subst θ' = a.subst θ := by
    intro a ha
    rw [Atom.subst_subst]
    exact Atom.subst_congr fun x hx => hσ x (List.mem_flatMap.2 ⟨a, ha, hx⟩)
  rw [atoms_eq_cons hhead, List.forall_mem_cons] at hatom
  refine ⟨head.subst σ, θ', by rw [head?_subst, hhead]; rfl, hground, by rw [hatom.1], ?_⟩
  rw [conditions_subst, List.map_map]
  exact List.map_congr_left fun b hb => by rw [Function.comp_apply, hatom.2 b hb]

end Formula

/-! ## Terms inside of terms -/

/-- A variable that is replaced for the occupant may stand for the term. -/
def Occupant.Fits : Occupant → Term Symbol → Prop
  | .const, _ => True
  | .functor f arity, t => ∃ args, t = .app f args ∧ args.length = arity

namespace Lexicon

variable {m : Lexicon} {xs : List Symbol} {choice : Symbol → Occupant} {θ : Symbol → Term Symbol}

/-- A term is an instance of the one that replaces a variable for it. -/
theorem exists_subst_replacement {x : Symbol} {o : Occupant} {t : Term Symbol} (hnames : m.Names x o)
    (hfits : o.Fits t) : ∃ τ, (m.replacement x o).subst τ = t := by
  cases o with
  | const => exact ⟨fun _ => t, rfl⟩
  | functor f arity =>
    obtain ⟨args, rfl, rfl⟩ := hfits
    refine ⟨Term.ofPairs (args.zipIdx.map fun p => (m.argument x f p.2, p.1)), ?_⟩
    rw [replacement, Term.subst_app, List.map_map]
    refine congrArg (Term.app f) (List.ext_getElem (by simp) fun i _ hi => ?_)
    rw [List.getElem_map, List.getElem_range]
    refine Term.ofPairs_eq (List.mem_map.2 ⟨(args[i], i), by simp [List.mk_mem_zipIdx_iff_getElem?, hi], rfl⟩) ?_
    -- the name of an argument tells its number
    intro u hu
    obtain ⟨p, hp, heq⟩ := List.mem_map.1 hu
    obtain ⟨harg, rfl⟩ := Prod.mk.inj heq
    rw [List.mem_zipIdx_iff_getElem?] at hp
    obtain ⟨hj, hget⟩ := List.getElem?_eq_some_iff.1 hp
    obtain rfl := argument_injective hnames hj hi harg
    exact hget.symm

/-- If the variables are apart, the terms for them are instances of those that replace them, all at once. -/
theorem exists_subst_variant (hap : m.Apart xs) (hknows : ∀ x ∈ xs, m.Knows x)
    (hnames : ∀ x ∈ xs, m.Names x (choice x)) (hfits : ∀ x ∈ xs, (choice x).Fits (θ x))
    (hground : ∀ x, (θ x).isGround = true) :
    ∃ θ', (∀ z, (θ' z).isGround = true) ∧ ∀ x ∈ xs, (m.variant choice x).subst θ' = θ x := by
  classical
  have hone : ∀ x ∈ xs, ∃ τ, (m.variant choice x).subst τ = θ x := fun x hx =>
    exists_subst_replacement (hnames x hx) (hfits x hx)
  choose! τ hτ using hone
  -- a variable of the variant belongs to the one variable that it was made for
  have howner : ∀ x ∈ xs, ∀ z ∈ (m.variant choice x).vars, ∀ h : ∃ y ∈ xs, z ∈ (m.variant choice y).vars,
      h.choose = x := fun x hx z hz h =>
    hap.eq_of_mem_replacement hknows hnames h.choose_spec.1 hx h.choose_spec.2 hz
  refine ⟨fun z => if h : ∃ y ∈ xs, z ∈ (m.variant choice y).vars then τ h.choose z else .const z,
    fun z => ?_, fun x hx => ?_⟩
  · beta_reduce
    split_ifs with h
    · have hvars := hground h.choose
      rw [← hτ _ h.choose_spec.1, Term.isGround, Term.vars_subst, List.isEmpty_iff,
        List.flatMap_eq_nil_iff] at hvars
      exact List.isEmpty_iff.2 (hvars z h.choose_spec.2)
    · rfl
  · rw [← hτ x hx]
    refine Term.subst_congr fun z hz => ?_
    have h : ∃ y ∈ xs, z ∈ (m.variant choice y).vars := ⟨x, hx, hz⟩
    rw [dif_pos h, howner x hx z hz h]

end Lexicon

/-! ## The least model -/

/-- `M` holds what the program derives from it. -/
def HerbrandClosed (φs : List (Formula Symbol)) (M : Set (Atom Symbol)) : Prop :=
  ∀ φ ∈ φs, ∀ Bs A, φ.Derives Bs A → (∀ B ∈ Bs, B ∈ M) → A ∈ M

/-- The atoms that the program derives, from none at the start. -/
def herbrandModel (φs : List (Formula Symbol)) : Set (Atom Symbol) := {A | ∀ M, HerbrandClosed φs M → A ∈ M}

theorem isLeast_herbrandModel (φs : List (Formula Symbol)) :
    IsLeast {M | HerbrandClosed φs M} (herbrandModel φs) := by
  refine ⟨fun φ hφ Bs A hA hBs M hM => ?_, fun M hM A hA => hA M hM⟩
  exact hM φ hφ Bs A hA fun B hB => hBs B hB M hM

/-! ## Programs that hand on -/

/-- Facts, and rules by which a relation hands on what it holds of to another one. -/
def handsOn (facts : List (Atom Symbol)) (links : List (Symbol × Symbol)) (x : Symbol) : List (Formula Symbol) :=
  facts.map .atom ++ links.map fun p => .rule ⟨p.2, [.var x]⟩ [.atom ⟨p.1, [.var x]⟩]

section HandsOn

variable {facts As : List (Atom Symbol)} {links : List (Symbol × Symbol)} {x : Symbol}

theorem herbrandClosed_handsOn (hfacts : ∀ a ∈ facts, a.isGround = true ∧ a.reading ∈ As)
    (hlinks : ∀ p ∈ links, ∀ B ∈ As, B.relation = p.1.canonical → ⟨p.2.canonical, B.args⟩ ∈ As) :
    HerbrandClosed (handsOn facts links x) {A | A ∈ As} := by
  rintro φ hφ Bs A ⟨head, θ, hhead, -, rfl, rfl⟩ hBs
  rcases List.mem_append.1 hφ with hfact | hlink
  · obtain ⟨a, ha, rfl⟩ := List.mem_map.1 hfact
    obtain rfl := Option.some.inj hhead
    obtain ⟨hground, hmem⟩ := hfacts a ha
    have hself : a.subst θ = a := by
      rw [Atom.subst_congr (τ := .var) (by simp [List.isEmpty_iff.1 hground]), Atom.subst_var_id]
    rw [hself]
    exact hmem
  · obtain ⟨p, hp, rfl⟩ := List.mem_map.1 hlink
    obtain rfl := Option.some.inj hhead
    have hB : ⟨p.1.canonical, [(θ x).collapse]⟩ ∈ As := hBs _ List.mem_cons_self
    exact hlinks p hp ⟨p.1.canonical, [(θ x).collapse]⟩ hB rfl

theorem reading_mem_herbrandModel {a : Atom Symbol} (ha : a ∈ facts) (hground : a.isGround = true) :
    a.reading ∈ herbrandModel (handsOn facts links x) := by
  refine fun M hM => hM (.atom a) (List.mem_append_left _ (List.mem_map_of_mem ha)) [] _ ?_ (by simp)
  refine ⟨a, fun _ => .const x, rfl, fun _ => rfl, ?_, rfl⟩
  exact congrArg Atom.reading (Atom.inst_of_isGround hground).symm

theorem mem_herbrandModel_of_link {r s : Symbol} (hlink : (r, s) ∈ links) {t : Term Symbol}
    (hground : t.isGround = true) (hcollapsed : t.collapse = t)
    (ht : ⟨r.canonical, [t]⟩ ∈ herbrandModel (handsOn facts links x)) :
    ⟨s.canonical, [t]⟩ ∈ herbrandModel (handsOn facts links x) := by
  have hmem := List.mem_map_of_mem (f := fun p : Symbol × Symbol =>
    Formula.rule ⟨p.2, [.var x]⟩ [.atom ⟨p.1, [.var x]⟩]) hlink
  have hreading : ∀ k : Symbol, (Atom.subst (fun _ => t) ⟨k, [.var x]⟩).reading = ⟨k.canonical, [t]⟩ := by
    intro k
    rw [Atom.reading_of_collapsed rfl fun _ => hcollapsed]
    rfl
  refine fun M hM => hM _ (List.mem_append_right _ hmem) [⟨r.canonical, [t]⟩] _
    ⟨_, fun _ => t, rfl, fun _ => hground, (hreading s).symm, ?_⟩ ?_
  · exact congrArg (fun a => [a]) (hreading r).symm
  · intro B hB
    rw [List.mem_singleton.1 hB]
    exact ht M hM

end HandsOn

end GameCircuit
