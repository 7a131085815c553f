import GameCircuit.Proofs.FaithfulPasses
import GameCircuit.Proofs.OpeningChoices

/-!
# Passes over a description

Passes over a description, one after another, are a run of passes that replace formulas by their variants from the third
one on: the first solves the equalities, the second drops what was left of them, and from then on there is nothing to
simplify (`Simplified`).  New variables have the same names in all passes, since the lexicon only grows
(`chainNaming`), and no two get one name if no variable of a formula is named after another one.
-/

namespace GameCircuit

open Filter

/-! ## Variants in order -/

section Order

variable {l k m : Lexicon} {occupancy : Occupancy} {depth : Nat} {φs ψs : List (Formula Symbol)} {φ : Formula Symbol}
  {choice : Symbol → Occupant}

theorem Formula.specialize_eq_map (hocc : ∀ site, ∀ o ∈ occupancy.lookup site, l.KnowsOccupant o)
    (hknows : ∀ s ∈ φ.symbols, l.Knows s) (hk : l.Grows k) (hm : (φ.specialize occupancy depth k).2.Grows m) :
    (φ.specialize occupancy depth k).1 =
      (assignments (φ.compoundVariables occupancy depth)).map fun choice => φ.subst (m.variant choice) := by
  cases φ with
  | rule head body =>
    have hvars : ∀ x ∈ Clause.vars ⟨head, body⟩, l.Knows x := fun x hx =>
      hknows x (mem_symbols_of_mem_vars (List.mem_eraseDups.1 hx))
    rw [specialize, Prod.map_fst, Clause.specialize_eq, Prod.map_fst, Clause.internAll_optionSteps hocc hvars hk hm,
      List.map_map]
    have hchoices := congrArg (List.map fun σ => subst σ (.rule head body))
      (map_ofPairs_choices m (Clause.nodup_compoundVariables occupancy depth ⟨head, body⟩))
    rw [List.map_map, List.map_map] at hchoices
    refine Eq.trans (List.map_congr_left fun pairs _ => ?_) hchoices
    exact (subst_rule _ head body).symm
  | atom a => exact congrArg (fun φ => [φ]) (subst_var_id (.atom a)).symm
  | neg φ => exact congrArg (fun φ => [φ]) (subst_var_id (.neg φ)).symm
  | disj φs => exact congrArg (fun φ => [φ]) (subst_var_id (.disj φs)).symm

theorem options_eq_compoundVariables (depth : Nat) (φs : List (Formula Symbol)) (φ : Formula Symbol) :
    φ.options (standing (occupiedSites depth φs)) depth = φ.compoundVariables (.ofFormulas φs) depth := by
  rw [Formula.compoundVariables_eq]
  exact Formula.options_congr (fun s hs => (lookup_eq_standing hs).symm) φ

end Order

/-! ## Names that last -/

namespace Lexicon

variable {l m : Lexicon} {x f : Symbol} {i : Nat}

/-- The lexicon has the name of argument `i` of the function `f` in place of the variable `x`. -/
def HasArgument (l : Lexicon) (x f : Symbol) (i : Nat) : Prop :=
  l.Knows x ∧ l.Knows f ∧ l.Knows (l.argument x f i) ∧ l.resolve (l.argument x f i) = l.argumentName x f i

/-- A name that a lexicon has keeps its symbol. -/
theorem HasArgument.argument_eq (h : l.HasArgument x f i) (hm : l.Grows m) : m.argument x f i = l.argument x f i := by
  obtain ⟨hx, hf, hknows, hresolve⟩ := h
  have hname : m.names.toList[(l.argument x f i).handle]? = some (m.argumentName x f i) := by
    have hm' := hknows.grows hm
    rw [argumentName_of_grows hx hf hm, ← hresolve, ← hknows.resolve_eq_of_grows hm, resolve_eq,
      List.getElem?_eq_getElem hm']
    rfl
  rw [argument, intern_of_getElem? hname]

end Lexicon

section Names

variable {φs ψs : List (Formula Symbol)} {l m : Lexicon} {depth : Nat} {φ : Formula Symbol} {choice : Symbol → Occupant}
  {ν : Naming} {x : Symbol} (hl : l.Covers φs) (h : specialize depth φs l = (ψs, m))

include hl h

section Selected

variable (hφ : φ ∈ φs) (hselects : Selects (φ.compoundVariables (.ofFormulas φs) depth) choice)

include hφ hselects

/-- After a pass, the lexicon has the names of the new variables. -/
theorem hasArgument_of_selects (hx : x ∈ φ.vars) {f : Symbol} {arity i : Nat} (hchoice : choice x = .functor f arity)
    (hi : i < arity) : m.HasArgument x f i := by
  have hgrows := grows_specialize hl h
  have hnames := names_of_selects hl h hφ hselects x
  have hf := Formula.knowsOccupant_of_selects (fun site o ho => hl.knowsOccupant ho) hselects x
  rw [hchoice] at hnames hf
  have hfknows : l.Knows f := hf
  exact ⟨(hl φ hφ x (Formula.mem_symbols_of_mem_vars hx)).grows hgrows, hfknows.grows hgrows, hnames i hi⟩

variable (hν : ∀ x f i, m.HasArgument x f i → ν x f i = m.argument x f i)

include hν

theorem term_eq_replacement (hx : x ∈ φ.vars) : ν.term x (choice x) = m.replacement x (choice x) := by
  cases hchoice : choice x with
  | const => rfl
  | functor f arity =>
    rw [Naming.term, Lexicon.replacement]
    refine congrArg (Term.app f) (List.map_congr_left fun i hi => ?_)
    rw [hν x f i (hasArgument_of_selects hl h hφ hselects hx hchoice (List.mem_range.1 hi))]

/-- Names from a lexicon keep the new variables of a formula apart. -/
theorem separates_of_specialize (hap : l.Apart φ.vars) : ν.Separates choice φ.vars := by
  have hgrows := grows_specialize hl h
  have hknows : ∀ x ∈ φ.vars, l.Knows x := fun x hx => hl φ hφ x (Formula.mem_symbols_of_mem_vars hx)
  have hnames : ∀ x, m.Names x (choice x) := fun x => names_of_selects hl h hφ hselects x
  refine ⟨fun x hx y hy z hzx hzy => ?_, fun x hx f arity hchoice i hi j hj heq => ?_⟩
  · rw [term_eq_replacement hl h hφ hselects hν hx] at hzx
    rw [term_eq_replacement hl h hφ hselects hν hy] at hzy
    exact (hap.grows hknows hgrows).eq_of_mem_replacement (fun x hx => (hknows x hx).grows hgrows)
      (fun x _ => hnames x) hx hy hzx hzy
  · have hargument : ∀ i < arity, ν x f i = m.argument x f i := fun i hi =>
      hν x f i (hasArgument_of_selects hl h hφ hselects hx hchoice hi)
    rw [hargument i hi, hargument j hj] at heq
    have hfunctor := hnames x
    rw [hchoice] at hfunctor
    exact Lexicon.argument_injective hfunctor hi hj heq

end Selected

/-- A description is replaced by the variants of its formulas, in order. -/
theorem specialize_eq_variants (hν : ∀ x f i, m.HasArgument x f i → ν x f i = m.argument x f i) :
    ψs = (φs.flatMap (Formula.variants ν depth (occupiedSites depth φs))).eraseDups := by
  obtain ⟨hψs, hend⟩ := specialize_settled hl h
  rw [hψs, distinct_eq_eraseDups]
  refine congrArg List.eraseDups (List.flatMap_congr fun φ hφ => ?_)
  have hm : (φ.specialize (.ofFormulas φs) depth m).2.Grows m := by
    rw [hend φ hφ]
    exact Lexicon.Grows.refl m
  rw [Formula.specialize_eq_map (fun site o ho => hl.knowsOccupant ho) (hl φ hφ) (grows_specialize hl h) hm,
    Formula.variants, options_eq_compoundVariables]
  refine List.map_congr_left fun choice hchoice => Formula.subst_congr fun x hx => ?_
  rw [← options_eq_compoundVariables, mem_assignments (Formula.nodup_options _ _ _),
    options_eq_compoundVariables] at hchoice
  exact (term_eq_replacement hl h hφ hchoice hν hx).symm

end Names

open Classical in
/-- The names of new variables in lexicons that grow: those of the first lexicon that has them. -/
noncomputable def chainNaming (l : Nat → Lexicon) : Naming := fun x f i =>
  if h : ∃ k, (l k).HasArgument x f i then (l (Nat.find h)).argument x f i else x

theorem chainNaming_eq {l : Nat → Lexicon} (hl : ∀ k, (l k).Grows (l (k + 1))) {k : Nat} {x f : Symbol} {i : Nat}
    (h : (l k).HasArgument x f i) : chainNaming l x f i = (l k).argument x f i := by
  classical
  have hgrows : ∀ {j k}, j ≤ k → (l j).Grows (l k) := by
    intro j k hjk
    induction k, hjk using Nat.le_induction with
    | base => exact Lexicon.Grows.refl _
    | succ k _ ih => exact ih.trans (hl k)
  have hever : ∃ k, (l k).HasArgument x f i := ⟨k, h⟩
  rw [chainNaming, dif_pos hever]
  exact ((Nat.find_spec hever).argument_eq (hgrows (Nat.find_min' hever h))).symm

/-! ## Nothing to simplify -/

/-- There is nothing to simplify in the description. -/
structure Simplified (φs : List (Formula Symbol)) : Prop where
  tidy : ∀ φ ∈ φs, φ.Tidy
  kept : ∀ φ ∈ φs, φ.Kept (hasForeignBase φs)
  nodup : φs.Nodup

section Simplified

variable {φs ψs : List (Formula Symbol)} {l m : Lexicon} {depth? : Option Nat} {φ ψ : Formula Symbol} {x : Symbol}

theorem Simplified.simplifyAll_eq (h : Simplified φs) : simplifyAll φs = .ok φs :=
  simplifyAll_eq_self h.tidy h.kept h.nodup

/-- A pass over tidy formulas leaves nothing to simplify. -/
theorem simplified_of_normalizePass (hl : l.Covers φs) (htidy : ∀ φ ∈ φs, φ.Tidy)
    (h : normalizePass depth? φs l = .ok (ψs, m)) : Simplified ψs := by
  obtain ⟨χs, hsimplify, hspecialize⟩ := normalizePass_eq_ok.1 h
  have hχs : χs = _ := Except.ok.inj (hsimplify.symm.trans (simplifyAll_of_tidy htidy))
  have hcovers := covers_simplifyAll hl hsimplify
  have hfrom : ∀ χ ∈ χs, χ.Kept (hasForeignBase φs) ∧ ∃ φ ∈ φs, χ.atoms = φ.atoms := by
    intro χ hχ
    rw [hχs, mem_distinct, List.mem_filter] at hχ
    obtain ⟨φ, hφ, rfl⟩ := List.mem_map.1 hχ.1
    exact ⟨⟨φ.unconditional_unconditional, by simpa only [Bool.not_eq_true'] using hχ.2⟩, φ, hφ,
      Formula.atoms_unconditional⟩
  -- a formula is a variant of one that is kept, and its atoms have the relations and arities of that
  have hvariant : ∀ ψ ∈ ψs, ψ.Kept (hasForeignBase φs) ∧ ∃ φ ∈ φs, ∃ g : Atom Symbol → Atom Symbol,
      (∀ a, (g a).relation = a.relation ∧ (g a).arity = a.arity) ∧ ψ.atoms = φ.atoms.map g := by
    intro ψ hψ
    cases depth? with
    | none =>
      obtain rfl : χs = ψs := congrArg Prod.fst hspecialize
      obtain ⟨hkept, φ, hφ, hatoms⟩ := hfrom ψ hψ
      exact ⟨hkept, φ, hφ, id, fun a => ⟨rfl, rfl⟩, by rw [hatoms, List.map_id]⟩
    | some depth =>
      obtain ⟨χ, hχ, choice, hselects, rfl⟩ := (mem_specialize hcovers hspecialize).1 hψ
      obtain ⟨hkept, φ, hφ, hatoms⟩ := hfrom χ hχ
      exact ⟨hkept.subst_variant hselects, φ, hφ, Atom.subst _, fun a => ⟨rfl, List.length_map _⟩, by
        rw [Formula.atoms_subst, hatoms]⟩
  refine ⟨tidy_of_normalizePass hl h, fun ψ hψ => ?_, ?_⟩
  · obtain ⟨hunconditional, hbase⟩ := (hvariant ψ hψ).1
    refine ⟨hunconditional, ?_⟩
    cases hforeign : hasForeignBase ψs with
    | false => rfl
    | true =>
      rwa [Represents.hasForeignBase_of_atoms hforeign fun ψ hψ => (hvariant ψ hψ).2] at hbase
  · cases depth? with
    | none =>
      obtain rfl : χs = ψs := congrArg Prod.fst hspecialize
      exact nodup_simplifyAll hsimplify
    | some depth => exact nodup_specialize hcovers hspecialize

/-- Where nothing is to be simplified, a pass only specializes variables. -/
theorem Simplified.specializeTo_eq (hφs : Simplified φs) (h : normalizePass depth? φs l = .ok (ψs, m)) :
    specializeTo depth? φs l = (ψs, m) := by
  obtain ⟨χs, hsimplify, hspecialize⟩ := normalizePass_eq_ok.1 h
  rwa [← Except.ok.inj (hφs.simplifyAll_eq.symm.trans hsimplify)] at hspecialize

end Simplified

/-! ## Variables that are apart -/

namespace Formula

variable {dropBase : Bool} {φ ψ : Formula Symbol} {x : Symbol}

/-- A pass adds no variables to a formula before variables are specialized. -/
theorem mem_vars_of_simplify (h : φ.simplify dropBase = .ok (some ψ)) (hx : x ∈ ψ.vars) : x ∈ φ.vars := by
  obtain ⟨σ, -, -, hσ, rfl, -⟩ := simplify_eq_some h
  rw [← vars_unconditional, ← vars_collapse]
  have hwithout : ∀ {x}, x ∈ φ.unconditional.collapse.withoutEqualities.vars → x ∈ φ.unconditional.collapse.vars := by
    intro x hx
    obtain ⟨a, ha, hxa⟩ := List.mem_flatMap.1 hx
    exact List.mem_flatMap.2 ⟨a, mem_atoms_of_mem_withoutEqualities ha, hxa⟩
  rw [vars_subst] at hx
  obtain ⟨y, hy, hxy⟩ := List.mem_flatMap.1 hx
  refine solveEqualities_induction (fun t => ∀ z ∈ t.vars, z ∈ φ.unconditional.collapse.vars) ?_ ?_ ?_
    (fun y hy => hy) hσ y ?_ x hxy
  · intro t τ _ hτ z hz
    rw [Term.vars_subst] at hz
    obtain ⟨y, hy, hzy⟩ := List.mem_flatMap.1 hz
    exact hτ y hy z hzy
  · intro t y ht hy z hz
    rw [List.mem_singleton.1 hz]
    exact ht y hy
  · intro χ hχ u v hequality
    obtain rfl := equality?_eq_some.1 hequality
    have hatom := mem_atoms_of_mem_body hχ (List.mem_singleton_self _)
    refine ⟨fun z hz => List.mem_flatMap.2 ⟨_, hatom, ?_⟩, fun z hz => List.mem_flatMap.2 ⟨_, hatom, ?_⟩⟩
    · simp [Atom.vars, hz]
    · simp [Atom.vars, hz]
  · intro z hz
    rw [List.mem_singleton.1 hz]
    exact hwithout hy

end Formula

section Apart

variable {φs ψs : List (Formula Symbol)} {l m : Lexicon} {depth : Nat}

theorem apart_of_specialize (hl : l.Covers φs) (hap : ∀ φ ∈ φs, l.Apart φ.vars)
    (h : specialize depth φs l = (ψs, m)) : ∀ ψ ∈ ψs, m.Apart ψ.vars := by
  intro ψ hψ
  obtain ⟨φ, hφ, choice, hselects, rfl⟩ := (mem_specialize hl h).1 hψ
  have hknows : ∀ x ∈ φ.vars, l.Knows x := fun x hx => hl φ hφ x (Formula.mem_symbols_of_mem_vars hx)
  have hgrows := grows_specialize hl h
  rw [Formula.vars_subst]
  exact ((hap φ hφ).grows hknows hgrows).replacement (fun x hx => (hknows x hx).grows hgrows)
    fun x _ => names_of_selects hl h hφ hselects x

theorem apart_of_simplifyAll (hap : ∀ φ ∈ φs, l.Apart φ.vars) (h : simplifyAll φs = .ok ψs) :
    ∀ ψ ∈ ψs, l.Apart ψ.vars := by
  intro ψ hψ x hx y hy
  obtain ⟨φ, hφ, hsimple⟩ := (mem_simplifyAll h).1 hψ
  exact hap φ hφ x (Formula.mem_vars_of_simplify hsimple hx) y (Formula.mem_vars_of_simplify hsimple hy)

/-- Variables that are apart stay so. -/
theorem apart_of_normalizePass (hl : l.Covers φs) (hap : ∀ φ ∈ φs, l.Apart φ.vars)
    (h : normalizePass (some depth) φs l = .ok (ψs, m)) : ∀ ψ ∈ ψs, m.Apart ψ.vars := by
  obtain ⟨χs, hsimplify, hspecialize⟩ := normalizePass_eq_ok.1 h
  exact apart_of_specialize (covers_simplifyAll hl hsimplify) (apart_of_simplifyAll hap hsimplify) hspecialize

end Apart

/-! ## Passes one after another -/

section Chain

variable {p : Nat → List (Formula Symbol) × Lexicon} {depth? : Option Nat} {depth : Nat}
  (hcovers : (p 0).2.Covers (p 0).1)

include hcovers

section Covers

variable (hpass : ∀ k, normalizePass depth? (p k).1 (p k).2 = .ok (p (k + 1)))

include hpass

theorem covers_chain (k : Nat) : (p k).2.Covers (p k).1 := by
  induction k with
  | zero => exact hcovers
  | succ k ih => exact covers_of_normalizePass ih (hpass k)

theorem grows_chain (k : Nat) : (p k).2.Grows (p (k + 1)).2 :=
  grows_of_normalizePass (covers_chain hcovers hpass k) (hpass k)

theorem simplified_chain (k : Nat) : Simplified (p (k + 2)).1 :=
  simplified_of_normalizePass (covers_chain hcovers hpass (k + 1))
    (tidy_of_normalizePass (covers_chain hcovers hpass k) (hpass k)) (hpass (k + 1))

end Covers

section Specialize

variable (hpass : ∀ k, normalizePass (some depth) (p k).1 (p k).2 = .ok (p (k + 1)))

include hpass

theorem specialize_chain (k : Nat) : specialize depth (p (k + 2)).1 (p (k + 2)).2 = p (k + 3) :=
  (simplified_chain hcovers hpass k).specializeTo_eq (hpass (k + 2))

theorem apart_chain (hap : ∀ φ ∈ (p 0).1, (p 0).2.Apart φ.vars) (k : Nat) : ∀ φ ∈ (p k).1, (p k).2.Apart φ.vars := by
  induction k with
  | zero => exact hap
  | succ k ih => exact apart_of_normalizePass (covers_chain hcovers hpass k) ih (hpass k)

/-- Passes that specialize variables are a run from the third one on. -/
theorem exists_passRun (hap : ∀ φ ∈ (p 0).1, (p 0).2.Apart φ.vars) :
    ∃ R : PassRun, ∀ k, R.stage k = (p (k + 2)).1 := by
  have hν : ∀ k x f i, (p (k + 3)).2.HasArgument x f i →
      chainNaming (fun k => (p k).2) x f i = (p (k + 3)).2.argument x f i := fun k x f i hhas =>
    chainNaming_eq (grows_chain hcovers hpass) hhas
  refine ⟨⟨depth, chainNaming fun k => (p k).2, fun k => (p (k + 2)).1, fun k => ?_,
    fun k φ hφ choice hselects => ?_⟩, fun k => rfl⟩
  · exact specialize_eq_variants (covers_chain hcovers hpass (k + 2)) (specialize_chain hcovers hpass k) (hν k)
  · rw [options_eq_compoundVariables] at hselects
    exact separates_of_specialize (covers_chain hcovers hpass (k + 2)) (specialize_chain hcovers hpass k) hφ hselects
      (hν k) (apart_chain hcovers hpass hap (k + 2) φ hφ)

end Specialize

/-- Some pass changes nothing. -/
theorem exists_fixed_of_chain (hpass : ∀ k, normalizePass depth? (p k).1 (p k).2 = .ok (p (k + 1)))
    (hap : depth?.isSome = true → ∀ φ ∈ (p 0).1, (p 0).2.Apart φ.vars) : ∃ k, (p (k + 1)).1 = (p k).1 := by
  cases depth? with
  | none =>
    have hsame := (simplified_chain hcovers hpass 0).specializeTo_eq (hpass 2)
    exact ⟨2, (congrArg Prod.fst hsame).symm⟩
  | some depth =>
    obtain ⟨R, hR⟩ := exists_passRun hcovers hpass (hap rfl)
    obtain ⟨φs, hφs⟩ := R.exists_stage_settled
    obtain ⟨n, hn⟩ := eventually_atTop.1 hφs
    refine ⟨n + 2, ?_⟩
    rw [← hR n, ← hR (n + 1), hn n le_rfl, hn (n + 1) (Nat.le_add_right n 1)]

end Chain

end GameCircuit
