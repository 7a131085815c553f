import GameCircuit.Proofs.HerbrandModels

/-!
# Normal rules are instances

Every formula of a normal form comes from one fact or rule of the description.  `Formula.Instantiates` says
how: variables are replaced by terms, and conditions are dropped that say of a term that it equals itself.
Each pass does that to every formula, whatever names the lexicon has, and so does a run of passes.
-/

namespace GameCircuit

/-! ## Solutions of equalities -/

namespace Term

variable {s t u : Term Symbol} {x : Symbol}

theorem subst_single_of_not_mem (h : x ∉ t.vars) : t.subst (single x u) = t := by
  rw [subst_congr (τ := .var), subst_var_id]
  intro y hy
  rw [single, if_neg]
  rintro rfl
  exact h hy

/-- A variable that has to be a term becomes that term. -/
theorem subst_single_of_bindTo {y : Symbol} (hne : .var y ≠ t) (h : bindTo y t = .bind x u) :
    (var y).subst (single x u) = t.subst (single x u) := by
  obtain ⟨rfl, rfl, hx⟩ : y = x ∧ t = u ∧ y ∉ t.vars := by
    cases t with
    | const c =>
      obtain ⟨hx, hu⟩ := Comparison.bind.inj h
      exact ⟨hx, hu, by simp⟩
    | var z =>
      obtain ⟨hx, hu⟩ := Comparison.bind.inj h
      exact ⟨hx, hu, fun hmem => hne (congrArg Term.var (List.mem_singleton.1 hmem))⟩
    | app f ts =>
      rw [bindTo] at h
      split_ifs at h with hmem
      obtain ⟨hx, hu⟩ := Comparison.bind.inj h
      exact ⟨hx, hu, hmem⟩
  rw [subst_single_of_not_mem hx, subst_var, single, if_pos rfl]

/-- Binding the variable that two terms need makes them the same term. -/
theorem subst_single_of_compare (h : s.compare t = .bind x u) : s.subst (single x u) = t.subst (single x u) := by
  rw [compare.eq_def] at h
  split_ifs at h with hne
  cases s with
  | var y => exact subst_single_of_bindTo hne h
  | const c =>
    cases t with
    | var y => exact (subst_single_of_bindTo (by simp) h).symm
    | const d => cases h
    | app f ts => cases h
  | app f ts =>
    cases t with
    | var y => exact (subst_single_of_bindTo (by simp) h).symm
    | const d => cases h
    | app g us => cases h

theorem eq_of_compare_eq_same (h : s.compare t = .same) : s = t := by
  by_contra hne
  rw [compare.eq_def, if_neg hne] at h
  have hbind : ∀ {y t}, bindTo y t ≠ .same := by
    intro y t hy
    cases t with
    | const c => cases hy
    | var z => cases hy
    | app f ts =>
      rw [bindTo] at hy
      split_ifs at hy
  cases s with
  | var y => exact hbind h
  | const c =>
    cases t with
    | var y => exact hbind h
    | const d => cases h
    | app f ts => cases h
  | app f ts =>
    cases t with
    | var y => exact hbind h
    | const d => cases h
    | app g us => cases h

end Term

/-- A solution goes on from the substitution that it starts with, and makes the two sides of every equality the
same term. -/
theorem solves_of_solveEqualities {σ τ : Symbol → Term Symbol} {body : List (Formula Symbol)}
    (h : solveEqualities σ body = .ok (some τ)) : (∃ ρ, τ = Term.andThen σ ρ) ∧
      ∀ φ ∈ body, ∀ s t, φ.equality? = some (s, t) → s.subst τ = t.subst τ := by
  induction body generalizing σ with
  | nil =>
    obtain rfl : σ = τ := by simpa [solveEqualities] using h
    exact ⟨⟨.var, funext fun x => (Term.subst_var_id (σ x)).symm⟩, by simp⟩
  | cons φ body ih =>
    rw [solveEqualities] at h
    cases hequality : φ.equality? with
    | none =>
      simp only [hequality] at h
      obtain ⟨hfrom, hbody⟩ := ih h
      exact ⟨hfrom, List.forall_mem_cons.2 ⟨fun s t hst => by simp [hequality] at hst, hbody⟩⟩
    | some p =>
      obtain ⟨s, t⟩ := p
      simp only [hequality] at h
      have hfirst : ∀ {ρ}, s.subst ρ = t.subst ρ → ∀ s' t', φ.equality? = some (s', t') →
          s'.subst ρ = t'.subst ρ := by
        intro ρ heq s' t' hst
        obtain ⟨rfl, rfl⟩ := Prod.mk.inj (Option.some.inj (hequality.symm.trans hst))
        exact heq
      cases hcompare : (s.subst σ).compare (t.subst σ) with
      | same =>
        simp only [hcompare] at h
        obtain ⟨⟨ρ, rfl⟩, hbody⟩ := ih h
        refine ⟨⟨ρ, rfl⟩, List.forall_mem_cons.2 ⟨hfirst ?_, hbody⟩⟩
        rw [← Term.subst_subst, ← Term.subst_subst, Term.eq_of_compare_eq_same hcompare]
      | clash => simp [hcompare] at h
      | unsupported f g => simp [hcompare] at h
      | bind x u =>
        simp only [hcompare] at h
        obtain ⟨⟨ρ, rfl⟩, hbody⟩ := ih h
        have hfrom : Term.andThen (Term.andThen σ (Term.single x u)) ρ =
            Term.andThen σ (Term.andThen (Term.single x u) ρ) := funext fun y => Term.subst_subst (σ y)
        refine ⟨⟨_, hfrom⟩, List.forall_mem_cons.2 ⟨hfirst ?_, hbody⟩⟩
        simp only [← Term.subst_subst, Term.subst_single_of_compare hcompare]

/-! ## Instances -/

namespace Formula

/-- `ψ` is the instance of `φ` for the substitution, in any order of its conditions and without the
equalities, all of which the substitution solves. -/
structure Instantiates (σ : Symbol → Term Symbol) (φ ψ : Formula Symbol) : Prop where
  head : ψ.head? = φ.head?.map (Atom.subst σ)
  body : ψ.body.Perm ((φ.body.filter fun χ => χ.equality?.isNone).map (Formula.subst σ))
  solved : ∀ χ ∈ φ.body, ∀ s t, χ.equality? = some (s, t) → s.subst σ = t.subst σ

variable {σ τ : Symbol → Term Symbol} {φ ψ χ : Formula Symbol} {dropBase : Bool}

theorem subst_subst (φ : Formula Symbol) : (φ.subst σ).subst τ = φ.subst (Term.andThen σ τ) := by
  induction φ with
  | atom a => rw [subst_atom, subst_atom, subst_atom, Atom.subst_subst]
  | rule head body ih =>
    rw [subst_rule, subst_rule, subst_rule, Atom.subst_subst, List.map_map]
    exact congrArg (rule _) (List.map_congr_left ih)
  | neg φ ih => rw [subst_neg, subst_neg, subst_neg, ih]
  | disj φs ih =>
    rw [subst_disj, subst_disj, subst_disj, List.map_map]
    exact congrArg disj (List.map_congr_left ih)

theorem isNone_equality?_subst (φ : Formula Symbol) : (φ.subst σ).equality?.isNone = φ.equality?.isNone := by
  rw [Bool.eq_iff_iff, Option.isNone_iff_eq_none, Option.isNone_iff_eq_none, equality?_subst_eq_none]

theorem Instantiates.trans (h : Instantiates σ φ ψ) (h' : Instantiates τ ψ χ) :
    Instantiates (Term.andThen σ τ) φ χ where
  head := by
    rw [h'.head, h.head, Option.map_map]
    exact congrArg (Option.map · φ.head?) (funext Atom.subst_subst)
  body := by
    -- of the conditions that are left, none is an equality
    have hkept : (((φ.body.filter fun χ => χ.equality?.isNone).map (Formula.subst σ)).filter
        fun χ => χ.equality?.isNone) = (φ.body.filter fun χ => χ.equality?.isNone).map (Formula.subst σ) := by
      rw [List.filter_map, List.filter_filter]
      simp only [Function.comp_apply, isNone_equality?_subst, Bool.and_self]
    have hbody := h'.body.trans ((h.body.filter _).map _)
    rw [hkept, List.map_map] at hbody
    refine hbody.trans (List.Perm.of_eq (List.map_congr_left fun χ _ => subst_subst χ))
  solved χ hχ s t hequality := by
    rw [← Term.subst_subst, ← Term.subst_subst, h.solved χ hχ s t hequality]

/-- Replacing variables makes an instance of a formula without equalities. -/
theorem instantiates_subst (hφ : ∀ χ ∈ φ.body, χ.equality? = none) (σ : Symbol → Term Symbol) :
    Instantiates σ φ (φ.subst σ) where
  head := head?_subst φ
  body := by
    rw [body_subst, List.filter_eq_self.2 fun χ hχ => Option.isNone_iff_eq_none.2 (hφ χ hχ)]
  solved χ hχ s t hequality := by
    rw [hφ χ hχ] at hequality
    cases hequality

theorem head?_withoutEqualities (φ : Formula Symbol) : φ.withoutEqualities.head? = φ.head? := by
  cases φ <;> rfl

theorem body_withoutEqualities (φ : Formula Symbol) :
    φ.withoutEqualities.body = φ.body.filter fun χ => χ.equality?.isNone := by
  cases φ <;> rfl

/-- What a pass leaves of a formula before variables are specialized is an instance of it. -/
theorem instantiates_of_simplify (h : φ.simplify dropBase = .ok (some ψ)) :
    ∃ σ, Instantiates σ φ.collapse ψ := by
  obtain ⟨σ, -, -, hσ, rfl, -⟩ := simplify_eq_some h
  refine ⟨σ, ?_, ?_, ?_⟩
  · rw [head?_subst, head?_withoutEqualities, head?_collapse, head?_unconditional, head?_collapse]
  · rw [body_subst, body_withoutEqualities, body_collapse, body_unconditional, body_collapse]
  · rw [body_collapse, ← body_unconditional (φ := φ), ← body_collapse]
    exact (solves_of_solveEqualities hσ).2

theorem scheduled_instantiates (φ : Formula Symbol) (h : ∀ χ ∈ φ.body, χ.equality? = none) :
    Instantiates .var φ φ.scheduled := by
  have hself := instantiates_subst h .var
  rw [subst_var_id] at hself
  cases φ with
  | rule head body => exact ⟨hself.head, (schedule_perm body).trans hself.body, hself.solved⟩
  | atom a => exact hself
  | neg φ => exact hself
  | disj φs => exact hself

end Formula

/-! ## Variants, whatever the lexicon -/

theorem exists_step_of_mem_internAll {α : Type} {steps : List (Lexicon → α × Lexicon)} {l : Lexicon} {a : α}
    (h : a ∈ (internAll steps l).1) : ∃ step ∈ steps, ∃ k, a = (step k).1 := by
  induction steps generalizing l with
  | nil => cases h
  | cons step steps ih =>
    rw [internAll_cons] at h
    rcases List.mem_cons.1 h with rfl | hrest
    · exact ⟨step, List.mem_cons_self, l, rfl⟩
    · obtain ⟨step', hstep', k, hk⟩ := ih hrest
      exact ⟨step', List.mem_cons_of_mem _ hstep', k, hk⟩

theorem length_internAll {α : Type} (steps : List (Lexicon → α × Lexicon)) (l : Lexicon) :
    (internAll steps l).1.length = steps.length := by
  induction steps generalizing l with
  | nil => rfl
  | cons step steps ih => rw [internAll_cons, List.length_cons, List.length_cons, ih]

theorem Lexicon.collapse_freshTerm {x f : Symbol} {arity : Nat} (harity : arity ≠ 0) (k : Lexicon) :
    (freshTerm x f arity k).1.collapse = (freshTerm x f arity k).1 := by
  rw [freshTerm, Prod.map_fst, Term.collapse_app, if_neg]
  · refine congrArg (Term.app f) ?_
    conv_rhs => rw [← List.map_id (internAll _ k).1]
    refine List.map_congr_left fun t ht => ?_
    obtain ⟨step, hstep, m, rfl⟩ := exists_step_of_mem_internAll ht
    obtain ⟨i, -, rfl⟩ := List.mem_map.1 hstep
    rfl
  · rw [List.isEmpty_iff, ← List.length_eq_zero_iff, length_internAll, List.length_map, List.length_range]
    exact harity

theorem Term.ofPairs_mem {pairs : List (Symbol × Term Symbol)} (x : Symbol) :
    Term.ofPairs pairs x = .var x ∨ (x, Term.ofPairs pairs x) ∈ pairs := by
  induction pairs with
  | nil => exact .inl rfl
  | cons p pairs ih =>
    obtain ⟨y, t⟩ := p
    rw [Term.ofPairs]
    split_ifs with hx
    · exact .inr (hx.1 ▸ List.mem_cons_self)
    · exact ih.imp_right (List.mem_cons_of_mem _)

theorem exists_option_of_mem_choices {options : List (Symbol × List (Term Symbol))}
    {pairs : List (Symbol × Term Symbol)} (h : pairs ∈ choices options) {p : Symbol × Term Symbol}
    (hp : p ∈ pairs) : ∃ option ∈ options, p.2 ∈ option.2 := by
  induction options generalizing pairs with
  | nil =>
    obtain rfl := List.mem_singleton.1 h
    cases hp
  | cons option options ih =>
    obtain ⟨t, ht, hpairs⟩ := List.mem_flatMap.1 h
    obtain ⟨rest, hrest, rfl⟩ := List.mem_map.1 hpairs
    rcases List.mem_cons.1 hp with rfl | hp
    · exact ⟨option, List.mem_cons_self, ht⟩
    · obtain ⟨option', hoption', ht'⟩ := ih hrest hp
      exact ⟨option', List.mem_cons_of_mem _ hoption', ht'⟩

section Specialize

variable {occupancy : Occupancy} {depth : Nat} {k l l' : Lexicon} {φ ψ : Formula Symbol}
  {φs φs' ψs N : List (Formula Symbol)} {depth? : Option Nat}

/-- A variant replaces variables by terms whose functions have arguments, if those that stand somewhere do. -/
theorem Clause.exists_subst_of_mem_specialize {c c' : Clause Symbol}
    (hocc : ∀ site f arity, .functor f arity ∈ occupancy.lookup site → arity ≠ 0)
    (h : c' ∈ (c.specialize occupancy depth k).1) :
    ∃ σ, c' = c.subst σ ∧ ∀ x, (σ x).collapse = σ x := by
  rw [Clause.specialize_eq] at h
  obtain ⟨pairs, hpairs, rfl⟩ := List.mem_map.1 h
  refine ⟨_, rfl, fun x => ?_⟩
  have hvalue : Term.ofPairs pairs x = .var x ∨ (x, Term.ofPairs pairs x) ∈ pairs := Term.ofPairs_mem x
  rcases hvalue with hvar | hmem
  · rw [hvar]
    rfl
  · obtain ⟨option, hoption, ht⟩ := exists_option_of_mem_choices hpairs hmem
    obtain ⟨step, hstep, m, rfl⟩ := exists_step_of_mem_internAll hoption
    obtain ⟨p, hp, rfl⟩ := List.mem_map.1 hstep
    rw [Lexicon.replacements_eq_internAll] at ht
    obtain ⟨step, hstep, m', heq⟩ := exists_step_of_mem_internAll ht
    obtain ⟨o, ho, rfl⟩ := List.mem_map.1 hstep
    obtain ⟨site, hsite⟩ := Clause.exists_lookup_of_candidates (Clause.mem_compoundVariables.1 hp).2.1 ho
    rw [show Term.ofPairs pairs x = _ from heq]
    cases o with
    | const => rfl
    | functor f arity => exact Lexicon.collapse_freshTerm (hocc site f arity hsite) m'

theorem Formula.exists_subst_of_mem_specialize
    (hocc : ∀ site f arity, .functor f arity ∈ occupancy.lookup site → arity ≠ 0)
    (h : ψ ∈ (φ.specialize occupancy depth k).1) : ∃ σ, ψ = φ.subst σ ∧ ∀ x, (σ x).collapse = σ x := by
  have hother : ψ ∈ [φ] → ∃ σ, ψ = φ.subst σ ∧ ∀ x, (σ x).collapse = σ x := by
    intro hψ
    rw [List.mem_singleton.1 hψ]
    exact ⟨.var, (subst_var_id φ).symm, fun _ => rfl⟩
  cases φ with
  | rule head body =>
    obtain ⟨c', hc', rfl⟩ := List.mem_map.1 h
    obtain ⟨σ, rfl, hσ⟩ := Clause.exists_subst_of_mem_specialize hocc hc'
    exact ⟨σ, (subst_rule σ head body).symm, hσ⟩
  | atom a => exact hother h
  | neg φ => exact hother h
  | disj φs => exact hother h

/-- The variants of tidy formulas replace variables in them, whatever names are made. -/
theorem exists_subst_of_mem_specializeTo (hψs : ∀ ψ ∈ ψs, ψ.Tidy) (h : specializeTo depth? ψs l = (φs', l'))
    (hφ : φ ∈ φs') : ∃ ψ ∈ ψs, ∃ σ, φ = ψ.subst σ ∧ ∀ x, (σ x).collapse = σ x := by
  cases depth? with
  | none =>
    obtain rfl : ψs = φs' := congrArg Prod.fst h
    exact ⟨φ, hφ, .var, (Formula.subst_var_id φ).symm, fun _ => rfl⟩
  | some depth =>
    rw [specializeTo, specialize_eq] at h
    rw [← (Prod.mk.inj h).1, mem_distinct] at hφ
    obtain ⟨variants, hvariants, hmem⟩ := List.mem_flatten.1 hφ
    obtain ⟨step, hstep, k, rfl⟩ := exists_step_of_mem_internAll hvariants
    obtain ⟨ψ, hψ, rfl⟩ := List.mem_map.1 hstep
    exact ⟨ψ, hψ, Formula.exists_subst_of_mem_specialize (fun _ _ _ => arity_ne_zero_of_lookup hψs) hmem⟩

/-! ## Passes -/

/-- A pass leaves instances, and tidy ones. -/
theorem instantiates_of_normalizePass (h : normalizePass depth? φs l = .ok (φs', l')) (hψ : ψ ∈ φs') :
    ψ.Tidy ∧ ∃ φ ∈ φs, ∃ σ, Formula.Instantiates σ φ.collapse ψ := by
  obtain ⟨ψs, hsimplify, hspecialize⟩ := normalizePass_eq_ok.1 h
  have htidy := tidy_of_simplifyAll hsimplify
  obtain ⟨χ, hχ, τ, rfl, hτ⟩ := exists_subst_of_mem_specializeTo htidy hspecialize hψ
  obtain ⟨φ, hφ, hφχ⟩ := (mem_simplifyAll hsimplify).1 hχ
  obtain ⟨σ, hσ⟩ := Formula.instantiates_of_simplify hφχ
  exact ⟨(htidy χ hχ).subst hτ, φ, hφ, _, hσ.trans (Formula.instantiates_subst (htidy χ hχ).solved τ)⟩

/-- Passes leave tidy instances of the formulas that they start with. -/
theorem instantiates_of_normalizePass_again
    (hφs : φs = ψs ∨ ∀ ψ ∈ φs, ψ.Tidy ∧ ∃ φ ∈ ψs, ∃ σ, Formula.Instantiates σ φ.collapse ψ)
    (h : normalizePass depth? φs l = .ok (φs', l')) (hψ : ψ ∈ φs') :
    ψ.Tidy ∧ ∃ φ ∈ ψs, ∃ σ, Formula.Instantiates σ φ.collapse ψ := by
  obtain ⟨htidy, χ, hχ, τ, hτ⟩ := instantiates_of_normalizePass h hψ
  refine ⟨htidy, ?_⟩
  rcases hφs with rfl | hφs
  · exact ⟨χ, hχ, τ, hτ⟩
  · obtain ⟨hχtidy, φ, hφ, σ, hσ⟩ := hφs χ hχ
    rw [Formula.collapse_eq_self hχtidy.collapsed] at hτ
    exact ⟨φ, hφ, _, hσ.trans hτ⟩

/-- Every formula of a normal form is an instance of a fact or rule of the description. -/
theorem instantiates_of_normalize {settings : Settings} (h : normalize settings φs l = (.ok N, l')) (hψ : ψ ∈ N) :
    ∃ φ ∈ φs, ∃ σ, Formula.Instantiates σ φ.collapse ψ := by
  obtain ⟨F, k, hF, hpass, rfl⟩ := exists_fixed_of_normalizeLoop (P := fun F _ => F = φs ∨
    ∀ ψ ∈ F, ψ.Tidy ∧ ∃ φ ∈ φs, ∃ σ, Formula.Instantiates σ φ.collapse ψ)
    (fun hF hpass => .inr fun ψ hψ => instantiates_of_normalizePass_again hF hpass hψ) (.inl rfl) h
  obtain ⟨χ, hχ, rfl⟩ := List.mem_map.1 hψ
  obtain ⟨htidy, φ, hφ, σ, hσ⟩ := instantiates_of_normalizePass_again hF hpass hχ
  exact ⟨φ, hφ, _, hσ.trans (χ.scheduled_instantiates htidy.solved)⟩

/-- Normalization is sound rule by rule: each formula of the normal form concludes what some fact or rule of the
description does for some terms in place of its variables, from the same conditions in some order, apart from
the equalities of the rule, which all hold for these terms. -/
theorem exists_rule_of_mem_normalize {settings : Settings} (h : normalize settings φs l = (.ok N, l')) :
    ∀ ψ ∈ N, ∃ φ ∈ φs, ∃ head σ, φ.head? = some head ∧ ψ.head? = some (head.collapse.subst σ) ∧
      ψ.body.Perm ((φ.collapse.body.filter fun χ => χ.equality?.isNone).map (Formula.subst σ)) ∧
      ∀ s t, .neg (.atom ⟨Keyword.distinct, [s, t]⟩) ∈ φ.collapse.body → s.subst σ = t.subst σ := by
  intro ψ hψ
  obtain ⟨φ, hφ, σ, hσ⟩ := instantiates_of_normalize h hψ
  -- a normal form holds nothing but facts and rules, and so does what they are instances of
  have hhead : ψ.head?.isSome = true := by
    have hsupported := isSupported_of_normalize h ψ hψ
    cases ψ with
    | atom a => rfl
    | rule head body => rfl
    | neg φ => cases hsupported
    | disj φs => cases hsupported
  rw [hσ.head, Option.isSome_map, Formula.head?_collapse, Option.isSome_map] at hhead
  obtain ⟨head, hhead⟩ := Option.isSome_iff_exists.1 hhead
  refine ⟨φ, hφ, head, σ, hhead, ?_, hσ.body, fun s t hst => hσ.solved _ hst s t rfl⟩
  rw [hσ.head, Formula.head?_collapse, hhead]
  rfl

end Specialize

/-- Names: relations, a function, a constant and variables. -/
def cellNames : Lexicon := .ofNames ["cell", "step", "mark", "a", "x", "y", "z"]

/-- Cells, one of them marked, and a step from each cell to those that differ from it. -/
def cells : List (Formula Symbol) :=
  let cell (t : Term Symbol) : Formula Symbol := .atom ⟨⟨14⟩, [t]⟩
  let step (s t : Term Symbol) : Atom Symbol := ⟨⟨15⟩, [s, t]⟩
  let mark (t : Term Symbol) : Term Symbol := .app ⟨16⟩ [t]
  let x : Term Symbol := .var ⟨18⟩
  let y : Term Symbol := .var ⟨19⟩
  let z : Term Symbol := .var ⟨20⟩
  [cell (.app ⟨17⟩ []), cell (mark (.const ⟨17⟩)),
    .rule (step x y) [.atom ⟨Keyword.distinct, [x, z]⟩, .neg (.atom ⟨Keyword.distinct, [z, y]⟩), cell x, cell z]]

/-- The step from a marked cell, as the normal form has it. -/
def stepFromMarked : Formula Symbol :=
  let cell (t : Term Symbol) : Formula Symbol := .atom ⟨⟨14⟩, [t]⟩
  let step (s t : Term Symbol) : Atom Symbol := ⟨⟨15⟩, [s, t]⟩
  let mark (t : Term Symbol) : Term Symbol := .app ⟨16⟩ [t]
  let x : Term Symbol := mark (.var ⟨21⟩)
  let y : Term Symbol := .var ⟨19⟩
  .rule (step x y) [cell x, cell y, .atom ⟨Keyword.distinct, [x, y]⟩]

theorem exists_rule_of_mem_normalize_cells : ∃ N l', normalize .standard cells cellNames = (.ok N, l') ∧
    stepFromMarked ∈ N ∧ ∃ φ ∈ cells, ∃ head σ, φ.head? = some head ∧
      stepFromMarked.head? = some (head.collapse.subst σ) ∧
      stepFromMarked.body.Perm ((φ.collapse.body.filter fun χ => χ.equality?.isNone).map (Formula.subst σ)) ∧
      ∀ s t, .neg (.atom ⟨Keyword.distinct, [s, t]⟩) ∈ φ.collapse.body → s.subst σ = t.subst σ := by
  have hrun : (normalize .standard cells cellNames).1.toOption.any (stepFromMarked ∈ ·) = true := by
    decide +kernel
  rcases hnormal : normalize .standard cells cellNames with ⟨e | N, l'⟩
  · rw [hnormal] at hrun
    cases hrun
  · rw [hnormal] at hrun
    have hmem : stepFromMarked ∈ N := of_decide_eq_true hrun
    exact ⟨N, l', rfl, hmem, exists_rule_of_mem_normalize hnormal _ hmem⟩

end GameCircuit
