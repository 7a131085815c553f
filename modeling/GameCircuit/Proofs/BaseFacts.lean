import GameCircuit.Proofs.CanonicalForms
import GameCircuit.Proofs.SolvedRules

/-!
# Declarations that are dropped

A description that uses `base` with a number of arguments other than one has no declarations, and a pass drops its
ground facts about `base`.  Each pass looks at the formulas that the pass before it has left.  So if `base` is used
that way in formulas only that the first pass drops, the later passes know nothing of it: a rule whose conditions are
all equalities is a fact for the second pass and not before, and stays (`normalize_keeps_late_base_fact`).  These are
the only ground facts about `base` that stay, and without such uses all of them do (`mem_normalize_base_iff`).
-/

namespace GameCircuit

/-! ## Variants of facts -/

theorem exists_mem_internAll_of_step {α : Type} {steps : List (Lexicon → α × Lexicon)} {step : Lexicon → α × Lexicon}
    (h : step ∈ steps) (l : Lexicon) : ∃ k, (step k).1 ∈ (internAll steps l).1 := by
  induction steps generalizing l with
  | nil => cases h
  | cons first steps ih =>
    rw [internAll_cons]
    rcases List.mem_cons.1 h with rfl | hrest
    · exact ⟨l, List.mem_cons_self⟩
    · obtain ⟨k, hk⟩ := ih hrest (first l).2
      exact ⟨k, List.mem_cons_of_mem _ hk⟩

theorem choices_ne_nil {options : List (Symbol × List (Term Symbol))} (h : ∀ option ∈ options, option.2 ≠ []) :
    choices options ≠ [] := by
  induction options with
  | nil => exact List.cons_ne_nil _ _
  | cons option options ih =>
    obtain ⟨x, ts⟩ := option
    obtain ⟨hts, hrest⟩ := List.forall_mem_cons.1 h
    obtain ⟨t, ht⟩ := List.exists_mem_of_ne_nil ts hts
    obtain ⟨pairs, hpairs⟩ := List.exists_mem_of_ne_nil _ (ih hrest)
    exact List.ne_nil_of_mem (List.mem_flatMap.2 ⟨t, ht, List.mem_map_of_mem hpairs⟩)

section Variants

variable {occupancy : Occupancy} {depth : Nat} {k l l' : Lexicon} {φ ψ : Formula Symbol}
  {φs φs' ψs N : List (Formula Symbol)} {depth? : Option Nat}

/-- A rule has variants: a variable that may stand for a function may stand for something. -/
theorem Clause.specialize_ne_nil (c : Clause Symbol) : (c.specialize occupancy depth k).1 ≠ [] := by
  rw [Clause.specialize_eq, Prod.map_fst, ne_eq, List.map_eq_nil_iff]
  refine choices_ne_nil fun option hoption => ?_
  obtain ⟨step, hstep, m, rfl⟩ := exists_step_of_mem_internAll hoption
  obtain ⟨⟨x, os⟩, hp, rfl⟩ := List.mem_map.1 hstep
  obtain ⟨-, -, hany⟩ := Clause.mem_compoundVariables.1 hp
  obtain ⟨o, ho, -⟩ := List.any_eq_true.1 hany
  show (m.replacements x os).1 ≠ []
  rw [Lexicon.replacements_eq_internAll, ← List.length_pos_iff, length_internAll, List.length_map]
  exact List.length_pos_of_mem ho

/-- Nothing is known of the variables of a rule without conditions. -/
theorem Clause.specialize_fact (head : Atom Symbol) :
    (Clause.specialize occupancy depth ⟨head, []⟩ k).1 = [⟨head, []⟩] := by
  have hnone : Clause.compoundVariables occupancy depth ⟨head, []⟩ = [] := by
    refine List.eq_nil_iff_forall_not_mem.2 fun p hp => ?_
    obtain ⟨-, hcandidates, -⟩ := Clause.mem_compoundVariables.1 hp
    cases hcandidates
  rw [Clause.specialize_eq, Clause.optionSteps, hnone]
  show [Clause.subst (Term.ofPairs []) ⟨head, []⟩] = [⟨head, []⟩]
  exact congrArg (fun c => [c]) (Clause.subst_var_id ⟨head, []⟩)

theorem Formula.specialize_of_body_eq_nil (h : φ.body = []) : (φ.specialize occupancy depth k).1 = [φ] := by
  cases φ with
  | rule head body =>
    obtain rfl : body = [] := h
    rw [Formula.specialize, Prod.map_fst, Clause.specialize_fact]
    rfl
  | atom a => rfl
  | neg φ => rfl
  | disj φs => rfl

theorem Formula.specialize_ne_nil (φ : Formula Symbol) : (φ.specialize occupancy depth k).1 ≠ [] := by
  cases φ with
  | rule head body =>
    rw [Formula.specialize, Prod.map_fst, ne_eq, List.map_eq_nil_iff]
    exact Clause.specialize_ne_nil _
  | atom a => exact List.cons_ne_nil _ _
  | neg φ => exact List.cons_ne_nil _ _
  | disj φs => exact List.cons_ne_nil _ _

/-- All variants of a formula are taken, as it stands in some lexicon. -/
theorem exists_specialize_subset (hψ : ψ ∈ ψs) (depth : Nat) (l : Lexicon) :
    ∃ k, (ψ.specialize (.ofFormulas ψs) depth k).1 ⊆ (specialize depth ψs l).1 := by
  obtain ⟨k, hk⟩ := exists_mem_internAll_of_step
    (List.mem_map_of_mem (f := Formula.specialize (.ofFormulas ψs) depth) hψ) l
  refine ⟨k, fun φ hφ => ?_⟩
  rw [specialize_eq, mem_distinct]
  exact List.mem_flatten.2 ⟨_, hk, hφ⟩

section Pass

variable (htidy : ∀ ψ ∈ ψs, ψ.Tidy) (h : specializeTo depth? ψs l = (φs', l'))

include htidy h

theorem exists_variant_of_mem (hψ : ψ ∈ ψs) : ∃ φ ∈ φs', ∃ σ, φ = ψ.subst σ := by
  cases depth? with
  | none =>
    obtain rfl : ψs = φs' := congrArg Prod.fst h
    exact ⟨ψ, hψ, .var, (Formula.subst_var_id ψ).symm⟩
  | some depth =>
    obtain rfl : (specialize depth ψs l).1 = φs' := congrArg Prod.fst h
    obtain ⟨k, hk⟩ := exists_specialize_subset hψ depth l
    obtain ⟨φ, hφ⟩ := List.exists_mem_of_ne_nil _ (Formula.specialize_ne_nil (k := k) ψ)
    obtain ⟨σ, hσ, -⟩ := Formula.exists_subst_of_mem_specialize (fun _ _ _ => arity_ne_zero_of_lookup htidy) hφ
    exact ⟨φ, hk hφ, σ, hσ⟩

/-- A formula without conditions is its only variant, and no other formula has it as a variant. -/
theorem mem_specializeTo_of_body_eq_nil (hφ : φ.body = []) : φ ∈ φs' ↔ φ ∈ ψs := by
  cases depth? with
  | none =>
    obtain rfl : ψs = φs' := congrArg Prod.fst h
    exact Iff.rfl
  | some depth =>
    obtain rfl : (specialize depth ψs l).1 = φs' := congrArg Prod.fst h
    constructor
    · intro hmem
      rw [specialize_eq, mem_distinct] at hmem
      obtain ⟨variants, hvariants, hmem⟩ := List.mem_flatten.1 hmem
      obtain ⟨step, hstep, k, rfl⟩ := exists_step_of_mem_internAll hvariants
      obtain ⟨ψ, hψ, rfl⟩ := List.mem_map.1 hstep
      obtain ⟨σ, rfl, -⟩ := Formula.exists_subst_of_mem_specialize (fun _ _ _ => arity_ne_zero_of_lookup htidy) hmem
      rw [Formula.body_subst, List.map_eq_nil_iff] at hφ
      rw [Formula.specialize_of_body_eq_nil hφ, List.mem_singleton] at hmem
      rwa [hmem]
    · intro hmem
      obtain ⟨k, hk⟩ := exists_specialize_subset hmem depth l
      rw [Formula.specialize_of_body_eq_nil hφ] at hk
      exact hk (List.mem_singleton_self φ)

end Pass

end Variants

/-! ## Uses of `base` -/

namespace Formula

/-- The formula uses `base` with a number of arguments other than one. -/
def UsesForeignBase (φ : Formula Symbol) : Prop :=
  ∃ a ∈ φ.atoms, a.relation = Keyword.base ∧ a.arity ≠ 1

variable {φ ψ : Formula Symbol} {σ : Symbol → Term Symbol} {dropBase : Bool} {a b : Atom Symbol}

theorem usesForeignBase_of_map (g : Atom Symbol → Atom Symbol)
    (hg : ∀ a, (g a).relation = a.relation ∧ (g a).arity = a.arity) (hatoms : ψ.atoms = φ.atoms.map g) :
    ψ.UsesForeignBase ↔ φ.UsesForeignBase := by
  unfold UsesForeignBase
  rw [hatoms]
  constructor
  · rintro ⟨b, hb, hbase⟩
    obtain ⟨a, ha, rfl⟩ := List.mem_map.1 hb
    rw [(hg a).1, (hg a).2] at hbase
    exact ⟨a, ha, hbase⟩
  · rintro ⟨a, ha, hbase⟩
    rw [← (hg a).1, ← (hg a).2] at hbase
    exact ⟨g a, List.mem_map_of_mem ha, hbase⟩

theorem usesForeignBase_subst : (φ.subst σ).UsesForeignBase ↔ φ.UsesForeignBase :=
  usesForeignBase_of_map (Atom.subst σ) (fun _ => ⟨rfl, List.length_map _⟩) (atoms_subst _ φ)

theorem usesForeignBase_collapse : φ.collapse.UsesForeignBase ↔ φ.UsesForeignBase :=
  usesForeignBase_of_map Atom.collapse (fun _ => ⟨rfl, List.length_map _⟩) (atoms_collapse φ)

theorem usesForeignBase_unconditional : φ.unconditional.UsesForeignBase ↔ φ.UsesForeignBase := by
  unfold UsesForeignBase
  rw [atoms_unconditional]

/-- An equality is no use of `base`. -/
theorem usesForeignBase_withoutEqualities : φ.withoutEqualities.UsesForeignBase ↔ φ.UsesForeignBase := by
  constructor
  · rintro ⟨a, ha, hbase⟩
    exact ⟨a, mem_atoms_of_mem_withoutEqualities ha, hbase⟩
  · rintro ⟨a, ha, hbase⟩
    refine ⟨a, ?_, hbase⟩
    cases φ with
    | rule head body =>
      rw [atoms_rule, List.mem_cons] at ha
      rw [withoutEqualities, atoms_rule, List.mem_cons]
      refine ha.imp_right fun hbody => ?_
      obtain ⟨χ, hχ, haχ⟩ := List.mem_flatMap.1 hbody
      refine List.mem_flatMap.2 ⟨χ, List.mem_filter.2 ⟨hχ, ?_⟩, haχ⟩
      rw [Option.isNone_iff_eq_none, Option.eq_none_iff_forall_ne_some]
      rintro ⟨s, t⟩ hequality
      obtain rfl := equality?_eq_some.1 hequality
      obtain rfl := List.mem_singleton.1 haχ
      exact absurd (show Keyword.distinct = Keyword.base from hbase.1) (by decide)
    | atom b => exact ha
    | neg χ => exact ha
    | disj φs => exact ha

/-- What a pass leaves of a formula uses `base` as the formula does. -/
theorem usesForeignBase_of_simplify (h : φ.simplify dropBase = .ok (some ψ)) :
    ψ.UsesForeignBase ↔ φ.UsesForeignBase := by
  obtain ⟨σ, -, -, -, rfl, -⟩ := simplify_eq_some h
  rw [usesForeignBase_subst, usesForeignBase_withoutEqualities, usesForeignBase_collapse, usesForeignBase_unconditional]

end Formula

theorem hasForeignBase_iff {φs : List (Formula Symbol)} :
    hasForeignBase φs = true ↔ ∃ φ ∈ φs, φ.UsesForeignBase := by
  unfold hasForeignBase Formula.UsesForeignBase
  simp only [List.any_eq_true, List.mem_flatMap, Bool.and_eq_true, decide_eq_true_eq, bne_iff_ne]
  constructor
  · rintro ⟨a, ⟨φ, hφ, ha⟩, hbase⟩
    exact ⟨φ, hφ, a, ha, hbase⟩
  · rintro ⟨φ, hφ, a, ha, hbase⟩
    exact ⟨a, ⟨φ, hφ, ha⟩, hbase⟩

/-! ## What a pass makes of one formula -/

theorem Atom.subst_of_isGround {b : Atom Symbol} (h : b.isGround = true) (θ : Symbol → Term Symbol) :
    b.subst θ = b := by
  have hvars : b.vars = [] := List.isEmpty_iff.1 h
  rw [subst_congr (τ := .var) (by simp [hvars]), subst_var_id]

namespace Formula

variable {φ ψ : Formula Symbol} {φ? : Option (Formula Symbol)} {σ : Symbol → Term Symbol} {dropBase : Bool}
  {a b : Atom Symbol}

/-- The formula is a ground fact about `base`, or a rule whose equalities nothing makes true. -/
def Vanishes (φ : Formula Symbol) : Prop :=
  φ.unconditional.isBaseFact = true ∨ ∀ θ, ¬ Equates θ φ.collapse.body

/-- The formula `φ` is a rule whose conditions are all equalities, and its head is `b` whenever these are
true. -/
structure SettlesAs (φ : Formula Symbol) (b : Atom Symbol) : Prop where
  conditional : φ.body ≠ []
  equalities : ∀ χ ∈ φ.collapse.body, χ.equality? ≠ none
  solvable : ∃ θ, Equates θ φ.collapse.body
  head : ∀ θ, Equates θ φ.collapse.body → φ.collapse.head?.map (Atom.subst θ) = some b

theorem isBaseFact_atom_iff : (atom a).isBaseFact = true ↔ a.relation = Keyword.base ∧ a.isGround = true := by
  rw [isBaseFact, Bool.and_eq_true, decide_eq_true_iff]

theorem isBaseFact_collapse (φ : Formula Symbol) : φ.collapse.isBaseFact = φ.isBaseFact := by
  cases φ with
  | atom a =>
    rw [Bool.eq_iff_iff, collapse_atom, isBaseFact_atom_iff, isBaseFact_atom_iff, Atom.isGround, Atom.vars_collapse]
    rfl
  | rule head body =>
    rw [collapse_rule]
    rfl
  | neg φ => rfl
  | disj φs =>
    rw [collapse_disj]
    rfl

theorem simplify_eq_none_iff (h : φ.simplify true = .ok φ?) : φ? = none ↔ φ.Vanishes := by
  have hbody : φ.collapse.body = φ.unconditional.collapse.body := by
    rw [body_collapse, body_collapse, body_unconditional]
  rw [Vanishes, hbody, ← isBaseFact_collapse]
  cases hclean : φ.unconditional.clean with
  | error e => simp [simplify, hclean, bind, Except.bind] at h
  | ok χ =>
    obtain ⟨-, hsupported, rfl⟩ := clean_eq_ok.1 hclean
    rw [← isSupported_collapse] at hsupported
    cases hχ : φ.unconditional.collapse with
    | atom a =>
      rw [hχ] at hclean
      rw [simplify_of_clean_atom hclean] at h
      have htrivial : ¬ ∀ θ, ¬ Equates θ (atom a).body := fun hnone => hnone .var (by simp [Equates, body])
      rw [or_iff_left htrivial, ← Except.ok.inj h, Option.filter_eq_none_iff]
      simp
    | rule head body =>
      rw [hχ] at hclean
      rw [simplify_of_clean_rule hclean, map_ok] at h
      obtain ⟨c?, hsolve, rfl⟩ := h
      rw [or_iff_right (by simp [isBaseFact])]
      cases c? with
      | none =>
        refine iff_of_true rfl fun θ => ?_
        exact not_equates_of_solveEqualities (Clause.solve_eq_none hsolve) rfl
      | some c =>
        obtain ⟨τ, hτ, rfl⟩ := Clause.solve_eq_some hsolve
        refine iff_of_false (by simp [Clause.toFormula, isBaseFact]) fun hnone => hnone τ fun s t hst => ?_
        exact (solves_of_solveEqualities hτ).2 _ hst s t rfl
    | neg χ =>
      rw [hχ] at hsupported
      cases hsupported
    | disj φs =>
      rw [hχ] at hsupported
      cases hsupported

/-- The head and the conditions that a pass leaves. -/
theorem head_and_body_of_simplify (h : φ.simplify dropBase = .ok (some ψ)) : ∃ σ,
    solveEqualities .var φ.collapse.body = .ok (some σ) ∧ ψ.head? = φ.collapse.head?.map (Atom.subst σ) ∧
      ψ.body = (φ.collapse.body.filter fun χ => χ.equality?.isNone).map (Formula.subst σ) := by
  obtain ⟨σ, -, -, hσ, rfl, -⟩ := simplify_eq_some h
  rw [body_collapse, body_unconditional, ← body_collapse] at hσ
  refine ⟨σ, hσ, ?_, ?_⟩
  · rw [head?_subst, head?_withoutEqualities, head?_collapse, head?_unconditional, head?_collapse]
  · rw [body_subst, body_withoutEqualities, body_collapse, body_unconditional, body_collapse]

/-- What a pass leaves is a rule just if the formula has conditions. -/
theorem exists_rule_of_simplify (h : φ.simplify dropBase = .ok (some ψ)) :
    (∃ head body, ψ = .rule head body) ↔ φ.body ≠ [] := by
  obtain ⟨σ, -, hsupported, -, rfl, -⟩ := simplify_eq_some h
  cases φ with
  | rule head body =>
    cases body with
    | nil => simp [unconditional, withoutEqualities, Formula.body]
    | cons χ body => simp [unconditional, withoutEqualities, Formula.body]
  | atom a => simp [unconditional, withoutEqualities, Formula.body]
  | neg χ => cases hsupported
  | disj φs => cases hsupported

/-- A pass leaves an empty body just of the rules whose conditions are equalities. -/
theorem simplify_eq_rule_iff (hb : b.isGround = true) (h : φ.simplify true = .ok φ?) :
    φ? = some (.rule b []) ↔ φ.SettlesAs b := by
  constructor
  · rintro rfl
    obtain ⟨σ, hσ, hhead, hbody⟩ := head_and_body_of_simplify h
    refine ⟨(exists_rule_of_simplify h).1 ⟨b, [], rfl⟩, fun χ hχ hnone => ?_, ⟨σ, fun s t hst => ?_⟩, fun θ hθ => ?_⟩
    · have hfilter := List.map_eq_nil_iff.1 hbody.symm
      exact List.filter_eq_nil_iff.1 hfilter χ hχ (Option.isNone_iff_eq_none.2 hnone)
    · exact (solves_of_solveEqualities hσ).2 _ hst s t rfl
    · -- the solution is the most general one, and leaves no variable in the head
      obtain ⟨head, hφ, hσhead⟩ := Option.map_eq_some_iff.1 hhead.symm
      have hθhead : head.subst θ = b := by
        rw [← andThen_of_solveEqualities hσ rfl hθ, ← Atom.subst_subst, hσhead, Atom.subst_of_isGround hb]
      rw [hφ, Option.map_some, hθhead]
  · intro hsettles
    cases φ? with
    | none =>
      rcases (simplify_eq_none_iff h).1 rfl with hfact | hnone
      · have hbody := hsettles.conditional
        rw [← body_unconditional] at hbody
        cases hφ : φ.unconditional with
        | atom a => exact absurd (by rw [hφ]; rfl) hbody
        | rule head body => simp [hφ, isBaseFact] at hfact
        | neg χ => simp [hφ, isBaseFact] at hfact
        | disj φs => simp [hφ, isBaseFact] at hfact
      · obtain ⟨θ, hθ⟩ := hsettles.solvable
        exact absurd hθ (hnone θ)
    | some ψ =>
      obtain ⟨σ, hσ, hhead, hbody⟩ := head_and_body_of_simplify h
      obtain ⟨head, body, rfl⟩ := (exists_rule_of_simplify h).2 hsettles.conditional
      have hσhead := hsettles.head σ fun s t hst => (solves_of_solveEqualities hσ).2 _ hst s t rfl
      have hfilter : φ.collapse.body.filter (fun χ => χ.equality?.isNone) = [] :=
        List.filter_eq_nil_iff.2 fun χ hχ hnone => hsettles.equalities χ hχ (Option.isNone_iff_eq_none.1 hnone)
      obtain rfl : head = b := Option.some.inj (hhead.trans hσhead)
      obtain rfl : body = [] := by rw [show body = _ from hbody, hfilter, List.map_nil]
      rfl

end Formula

/-! ## Passes -/

section Passes

variable {φs φs' φs₁ N : List (Formula Symbol)} {l l' l₁ : Lexicon} {depth? : Option Nat} {limit passes : Nat}
  {a b : Atom Symbol}

theorem hasForeignBase_of_normalizePass (h : normalizePass depth? φs l = .ok (φs', l')) :
    hasForeignBase φs' = true ↔
      ∃ φ ∈ φs, φ.UsesForeignBase ∧ ∃ ψ, φ.simplify (hasForeignBase φs) = .ok (some ψ) := by
  obtain ⟨ψs, hsimplify, hspecialize⟩ := normalizePass_eq_ok.1 h
  have htidy := tidy_of_simplifyAll hsimplify
  rw [hasForeignBase_iff]
  constructor
  · rintro ⟨χ, hχ, huses⟩
    obtain ⟨ψ, hψ, σ, rfl, -⟩ := exists_subst_of_mem_specializeTo htidy hspecialize hχ
    obtain ⟨φ, hφ, hφψ⟩ := (mem_simplifyAll hsimplify).1 hψ
    rw [Formula.usesForeignBase_subst, Formula.usesForeignBase_of_simplify hφψ] at huses
    exact ⟨φ, hφ, huses, ψ, hφψ⟩
  · rintro ⟨φ, hφ, huses, ψ, hφψ⟩
    obtain ⟨χ, hχ, σ, rfl⟩ := exists_variant_of_mem htidy hspecialize ((mem_simplifyAll hsimplify).2 ⟨φ, hφ, hφψ⟩)
    refine ⟨_, hχ, ?_⟩
    rwa [Formula.usesForeignBase_subst, Formula.usesForeignBase_of_simplify hφψ]

/-- A pass makes no new uses of `base`. -/
theorem hasForeignBase_eq_false_of_normalizePass (hforeign : hasForeignBase φs = false)
    (h : normalizePass depth? φs l = .ok (φs', l')) : hasForeignBase φs' = false := by
  rw [Bool.eq_false_iff, ne_eq, hasForeignBase_of_normalizePass h]
  rintro ⟨φ, hφ, huses, -⟩
  exact Bool.eq_false_iff.1 hforeign (hasForeignBase_iff.2 ⟨φ, hφ, huses⟩)

theorem mem_normalizePass_of_body_eq_nil {ψ : Formula Symbol} (h : normalizePass depth? φs l = .ok (φs', l'))
    (hψ : ψ.body = []) : ψ ∈ φs' ↔ ∃ φ ∈ φs, φ.simplify (hasForeignBase φs) = .ok (some ψ) := by
  obtain ⟨ψs, hsimplify, hspecialize⟩ := normalizePass_eq_ok.1 h
  rw [mem_specializeTo_of_body_eq_nil (tidy_of_simplifyAll hsimplify) hspecialize hψ, mem_simplifyAll hsimplify]

theorem exists_simplify_of_normalizePass (h : normalizePass depth? φs l = .ok (φs', l')) {φ : Formula Symbol}
    (hφ : φ ∈ φs) : ∃ φ?, φ.simplify (hasForeignBase φs) = .ok φ? := by
  obtain ⟨ψs, hsimplify, -⟩ := normalizePass_eq_ok.1 h
  obtain ⟨results, hresults, -⟩ := simplifyAll_eq_ok.1 hsimplify
  exact exists_ok_of_mapM hresults hφ

/-- The atom is a fact that no pass will drop. -/
def Remains (φs : List (Formula Symbol)) (b : Atom Symbol) : Prop :=
  hasForeignBase φs = false ∧ ∃ φ ∈ φs, φ.unconditional = .atom b

theorem unconditional_eq_atom_iff {φ : Formula Symbol} : φ.unconditional = .atom b ↔ φ = .atom b ∨ φ = .rule b [] := by
  cases φ with
  | rule head body =>
    cases body with
    | nil => simp [Formula.unconditional]
    | cons χ body => simp [Formula.unconditional]
  | atom a => simp [Formula.unconditional]
  | neg χ => simp [Formula.unconditional]
  | disj φs => simp [Formula.unconditional]

/-- Tidy formulas stay, so that a pass over them leaves a ground fact about `base` just if `base` has one argument
throughout. -/
theorem mem_normalizePass_of_tidy (htidy : ∀ φ ∈ φs, φ.Tidy) (h : normalizePass depth? φs l = .ok (φs', l'))
    (hb : (Formula.atom b).isBaseFact = true) :
    (∃ φ ∈ φs', φ.unconditional = .atom b) ↔ Remains φs b := by
  have hleft : ∀ {φ ψ}, φ ∈ φs → (φ.simplify (hasForeignBase φs) = .ok (some ψ) ↔
      ψ = φ.unconditional ∧ (hasForeignBase φs && ψ.isBaseFact) = false) := by
    intro φ ψ hφ
    rw [Formula.simplify_of_tidy (htidy φ hφ), Except.ok.injEq, Option.filter_eq_some_iff, Option.some.injEq,
      Bool.not_eq_true', eq_comm]
  constructor
  · rintro ⟨ψ, hψ, hunconditional⟩
    have hbody : ψ.body = [] := by
      rw [← Formula.body_unconditional, hunconditional]
      rfl
    obtain ⟨φ, hφ, hsimplify⟩ := (mem_normalizePass_of_body_eq_nil h hbody).1 hψ
    obtain ⟨rfl, hkept⟩ := (hleft hφ).1 hsimplify
    rw [Formula.unconditional_unconditional] at hunconditional
    rw [hunconditional, hb, Bool.and_true] at hkept
    exact ⟨hkept, φ, hφ, hunconditional⟩
  · rintro ⟨hforeign, φ, hφ, hunconditional⟩
    refine ⟨.atom b, (mem_normalizePass_of_body_eq_nil h rfl).2 ⟨φ, hφ, (hleft hφ).2 ⟨hunconditional.symm, ?_⟩⟩, rfl⟩
    rw [hforeign, Bool.false_and]

/-- A pass over tidy formulas changes nothing about what remains. -/
theorem remains_of_normalizePass (htidy : ∀ φ ∈ φs, φ.Tidy) (h : normalizePass depth? φs l = .ok (φs', l'))
    (hb : (Formula.atom b).isBaseFact = true) : Remains φs' b ↔ Remains φs b := by
  rw [← mem_normalizePass_of_tidy htidy h hb, Remains, and_iff_right_iff_imp]
  intro hmem
  exact hasForeignBase_eq_false_of_normalizePass ((mem_normalizePass_of_tidy htidy h hb).1 hmem).1 h

/-- A ground fact about `base` is in the normal form just if it remains after the first pass. -/
theorem mem_normalizeLoop_iff_remains (hpass : normalizePass depth? φs l = .ok (φs₁, l₁))
    (hb : (Formula.atom b).isBaseFact = true) (h : normalizeLoop limit depth? passes φs l = (.ok N, l')) :
    .atom b ∈ N ↔ Remains φs₁ b := by
  have htidy : ∀ {F k F' k'}, normalizePass depth? F k = .ok (F', k') → ∀ φ ∈ F', φ.Tidy :=
    fun hpass φ hφ => (instantiates_of_normalizePass hpass hφ).1
  -- the first list need not be tidy, but its pass is known
  have hstep : ∀ {F k F' k'}, ((F = φs ∧ k = l) ∨ (∀ φ ∈ F, φ.Tidy) ∧ (Remains F b ↔ Remains φs₁ b)) →
      normalizePass depth? F k = .ok (F', k') → (∀ φ ∈ F', φ.Tidy) ∧ (Remains F' b ↔ Remains φs₁ b) := by
    rintro F k F' k' (⟨rfl, rfl⟩ | ⟨htidyF, hremains⟩) hF
    · obtain ⟨rfl, rfl⟩ := Prod.mk.inj (Except.ok.inj (hpass.symm.trans hF))
      exact ⟨htidy hF, Iff.rfl⟩
    · exact ⟨htidy hF, (remains_of_normalizePass htidyF hF hb).trans hremains⟩
  obtain ⟨F, k, hF, hfixed, rfl⟩ := exists_fixed_of_normalizeLoop (P := fun F k => (F = φs ∧ k = l) ∨
    (∀ φ ∈ F, φ.Tidy) ∧ (Remains F b ↔ Remains φs₁ b)) (fun hF hpass => .inr (hstep hF hpass)) (.inl ⟨rfl, rfl⟩) h
  rw [← (hstep hF hfixed).2, ← mem_normalizePass_of_tidy (htidy hfixed) hfixed hb]
  constructor
  · intro hmem
    obtain ⟨φ, hφ, hscheduled⟩ := List.mem_map.1 hmem
    cases φ with
    | atom a => exact ⟨.atom a, hφ, hscheduled⟩
    | rule head body => cases hscheduled
    | neg χ => cases hscheduled
    | disj φs => cases hscheduled
  · rintro ⟨φ, hφ, hunconditional⟩
    rw [(tidy_and_unconditional_of_fixed hfixed hφ).2] at hunconditional
    exact List.mem_map.2 ⟨φ, hφ, by rw [hunconditional]; rfl⟩

theorem exists_pass_of_normalizeLoop (h : normalizeLoop limit depth? passes φs l = (.ok N, l')) :
    ∃ φs₁ l₁, normalizePass depth? φs l = .ok (φs₁, l₁) := by
  cases passes with
  | zero => cases h
  | succ passes =>
    rw [normalizeLoop] at h
    cases hpass : normalizePass depth? φs l with
    | error e =>
      rw [hpass] at h
      cases h
    | ok r => exact ⟨r.1, r.2, rfl⟩

/-- If `base` has one argument throughout, the first pass keeps all ground facts about it. -/
theorem remains_of_fact (hforeign : hasForeignBase φs = false) (hpass : normalizePass depth? φs l = .ok (φs₁, l₁))
    {φ : Formula Symbol} (hφ : φ ∈ φs) (ha : φ.unconditional = .atom a) : Remains φs₁ a.collapse := by
  constructor
  · exact hasForeignBase_eq_false_of_normalizePass hforeign hpass
  · refine ⟨.atom a.collapse, (mem_normalizePass_of_body_eq_nil hpass rfl).2 ⟨φ, hφ, ?_⟩, rfl⟩
    obtain ⟨φ?, hsimplify⟩ := exists_simplify_of_normalizePass hpass hφ
    cases hclean : φ.unconditional.clean with
    | error e => simp [Formula.simplify, hclean, bind, Except.bind] at hsimplify
    | ok χ =>
      obtain ⟨-, -, rfl⟩ := Formula.clean_eq_ok.1 hclean
      rw [ha, Formula.collapse_atom, ← ha] at hclean
      rw [Formula.simplify_of_clean_atom hclean, hforeign]
      rfl

/-- The first pass leaves no other numbers of arguments just if it leaves nothing of the formulas that have them. -/
theorem hasForeignBase_eq_false_iff_vanishes (hforeign : hasForeignBase φs = true)
    (hpass : normalizePass depth? φs l = .ok (φs₁, l₁)) :
    hasForeignBase φs₁ = false ↔ ∀ φ ∈ φs, φ.UsesForeignBase → φ.Vanishes := by
  rw [Bool.eq_false_iff, ne_eq, hasForeignBase_of_normalizePass hpass, hforeign]
  constructor
  · intro hnone φ hφ huses
    obtain ⟨φ?, hφ?⟩ := exists_simplify_of_normalizePass hpass hφ
    rw [hforeign] at hφ?
    cases φ? with
    | none => exact (Formula.simplify_eq_none_iff hφ?).1 rfl
    | some ψ => exact absurd ⟨φ, hφ, huses, ψ, hφ?⟩ hnone
  · rintro hall ⟨φ, hφ, huses, ψ, hψ⟩
    cases (Formula.simplify_eq_none_iff hψ).2 (hall φ hφ huses)

/-- A pass that drops ground facts about `base` leaves those that a rule over equalities settles. -/
theorem exists_unconditional_iff_settlesAs (hforeign : hasForeignBase φs = true)
    (hpass : normalizePass depth? φs l = .ok (φs₁, l₁)) (hb : (Formula.atom b).isBaseFact = true) :
    (∃ φ ∈ φs₁, φ.unconditional = .atom b) ↔ ∃ φ ∈ φs, φ.SettlesAs b := by
  have hground := (Formula.isBaseFact_atom_iff.1 hb).2
  constructor
  · rintro ⟨ψ, hψ, hunconditional⟩
    rcases unconditional_eq_atom_iff.1 hunconditional with rfl | rfl
    · -- the first pass drops what it knows as a fact
      obtain ⟨φ, -, hφ⟩ := (mem_normalizePass_of_body_eq_nil hpass rfl).1 hψ
      obtain ⟨-, -, -, -, -, hkept⟩ := Formula.simplify_eq_some hφ
      rw [hforeign, hb] at hkept
      cases hkept
    · obtain ⟨φ, hφ, hφψ⟩ := (mem_normalizePass_of_body_eq_nil hpass rfl).1 hψ
      rw [hforeign] at hφψ
      exact ⟨φ, hφ, (Formula.simplify_eq_rule_iff hground hφψ).1 rfl⟩
  · rintro ⟨φ, hφ, hsettles⟩
    obtain ⟨φ?, hφ?⟩ := exists_simplify_of_normalizePass hpass hφ
    have hdrops := hφ?
    rw [hforeign] at hdrops
    obtain rfl := (Formula.simplify_eq_rule_iff hground hdrops).2 hsettles
    exact ⟨.rule b [], (mem_normalizePass_of_body_eq_nil hpass rfl).2 ⟨φ, hφ, hφ?⟩, rfl⟩

end Passes

/-- If `base` has one argument throughout a description, its normal form has all ground facts about `base` that the
description has.  If `base` has another number of arguments somewhere, the normal form has no ground facts about
`base`, unless the formulas with other numbers of arguments are all such facts or rules whose equalities nothing makes
true: then it has those ground facts about `base` that are heads of rules over true equalities. -/
theorem mem_normalize_base_iff {settings : Settings} {φs N : List (Formula Symbol)} {l l' : Lexicon}
    (h : normalize settings φs l = (.ok N, l')) :
    ((∀ φ ∈ φs, ¬ φ.UsesForeignBase) → ∀ a : Atom Symbol, a.relation = Keyword.base → a.isGround = true →
      (.atom a ∈ φs ∨ .rule a [] ∈ φs) → .atom a.collapse ∈ N) ∧
    ((∃ φ ∈ φs, φ.UsesForeignBase) → ∀ b : Atom Symbol, b.relation = Keyword.base → b.isGround = true →
      (.atom b ∈ N ↔ (∀ φ ∈ φs, φ.UsesForeignBase → φ.Vanishes) ∧ ∃ φ ∈ φs, φ.SettlesAs b)) := by
  unfold normalize at h
  obtain ⟨φs₁, l₁, hpass⟩ := exists_pass_of_normalizeLoop h
  constructor
  · intro hnone a hrelation hground hmem
    have hforeign : hasForeignBase φs = false := by
      rw [Bool.eq_false_iff, ne_eq, hasForeignBase_iff]
      rintro ⟨φ, hφ, huses⟩
      exact hnone φ hφ huses
    have hbase : (Formula.atom a.collapse).isBaseFact = true :=
      (Formula.isBaseFact_collapse (.atom a)).trans (Formula.isBaseFact_atom_iff.2 ⟨hrelation, hground⟩)
    rw [mem_normalizeLoop_iff_remains hpass hbase h]
    rcases hmem with hatom | hrule
    · exact remains_of_fact hforeign hpass hatom rfl
    · exact remains_of_fact hforeign hpass hrule rfl
  · intro hforeign b hrelation hground
    have hbase := Formula.isBaseFact_atom_iff.2 ⟨hrelation, hground⟩
    have hdrops := hasForeignBase_iff.2 hforeign
    rw [mem_normalizeLoop_iff_remains hpass hbase h, Remains, hasForeignBase_eq_false_iff_vanishes hdrops hpass,
      exists_unconditional_iff_settlesAs hdrops hpass hbase]

/-- Names: three constants, a relation and a variable. -/
def tileNames : Lexicon := .ofNames ["a", "b", "c", "shown", "x"]

/-- Two declarations, one with a function without arguments and one with an empty body, and a use of them. -/
def declaredTiles : List (Formula Symbol) :=
  let base (t : Term Symbol) : Atom Symbol := ⟨Keyword.base, [t]⟩
  let shown (t : Term Symbol) : Atom Symbol := ⟨⟨17⟩, [t]⟩
  let a : Term Symbol := .app ⟨14⟩ []
  let b : Term Symbol := .const ⟨15⟩
  let x : Term Symbol := .var ⟨18⟩
  [.atom (base a), .rule (base b) [], .rule (shown x) [.atom (base x)]]

/-- A fact about `base` with two arguments, and the declaration of a tile that equals itself. -/
def settledTile : List (Formula Symbol) :=
  let a : Term Symbol := .const ⟨14⟩
  let b : Term Symbol := .const ⟨15⟩
  let c : Term Symbol := .const ⟨16⟩
  [.atom ⟨Keyword.base, [b, c]⟩, .rule ⟨Keyword.base, [a]⟩ [.neg (.atom ⟨Keyword.distinct, [a, a]⟩)]]

/-- The same, and a rule that asks for the fact. -/
def askedTiles : List (Formula Symbol) :=
  let shown (t : Term Symbol) : Atom Symbol := ⟨⟨17⟩, [t]⟩
  let b : Term Symbol := .const ⟨15⟩
  let c : Term Symbol := .const ⟨16⟩
  .rule (shown b) [.atom ⟨Keyword.base, [b, c]⟩] :: settledTile

/-- Declarations are kept.  A late one is dropped with the fact only if a rule asks for the fact. -/
theorem mem_normalize_base_iff_tiles :
    (∃ N l', normalize .standard declaredTiles tileNames = (.ok N, l') ∧
      .atom ⟨Keyword.base, [.const ⟨14⟩]⟩ ∈ N ∧ .atom ⟨Keyword.base, [.const ⟨15⟩]⟩ ∈ N) ∧
    (∃ N l', normalize .standard settledTile tileNames = (.ok N, l') ∧ .atom ⟨Keyword.base, [.const ⟨14⟩]⟩ ∈ N) ∧
    ∃ N l', normalize .standard askedTiles tileNames = (.ok N, l') ∧
      ∀ b : Atom Symbol, b.relation = Keyword.base → b.isGround = true → .atom b ∉ N := by
  have hrun : ∀ φs, (normalize .standard φs tileNames).1.toBool = true →
      ∃ N l', normalize .standard φs tileNames = (.ok N, l') := by
    intro φs hok
    rcases hnormal : normalize .standard φs tileNames with ⟨e | N, l'⟩
    · rw [hnormal] at hok
      cases hok
    · exact ⟨N, l', rfl⟩
  have huses : (Formula.atom ⟨Keyword.base, [.const ⟨15⟩, .const ⟨16⟩]⟩ : Formula Symbol).UsesForeignBase :=
    ⟨_, List.mem_singleton_self _, rfl, by decide⟩
  refine ⟨?_, ?_, ?_⟩
  · obtain ⟨N, l', h⟩ := hrun declaredTiles (by decide +kernel)
    have hnone : ∀ φ ∈ declaredTiles, ¬ φ.UsesForeignBase := by
      intro φ hφ huses
      have hforeign := hasForeignBase_iff.2 ⟨φ, hφ, huses⟩
      exact absurd hforeign (by decide)
    have hkept := (mem_normalize_base_iff h).1 hnone
    exact ⟨N, l', h, hkept ⟨Keyword.base, [.app ⟨14⟩ []]⟩ rfl rfl (.inl (by decide)),
      hkept ⟨Keyword.base, [.const ⟨15⟩]⟩ rfl rfl (.inr (by decide))⟩
  · obtain ⟨N, l', h⟩ := hrun settledTile (by decide +kernel)
    refine ⟨N, l', h, ((mem_normalize_base_iff h).2 ⟨_, List.mem_cons_self, huses⟩ _ rfl rfl).2 ⟨?_, ?_⟩⟩
    · intro φ hφ hφuses
      rcases List.mem_cons.1 hφ with rfl | hrule
      · exact .inl rfl
      · obtain rfl := List.mem_singleton.1 hrule
        have hforeign := hasForeignBase_iff.2 ⟨_, List.mem_singleton_self _, hφuses⟩
        exact absurd hforeign (by decide)
    · refine ⟨_, List.mem_cons_of_mem _ (List.mem_singleton_self _), List.cons_ne_nil _ _, ?_, ⟨.var, ?_⟩,
        fun θ _ => rfl⟩
      · intro χ hχ
        obtain rfl := List.mem_singleton.1 hχ
        exact Option.some_ne_none _
      · intro s t hst
        obtain ⟨-, hargs⟩ := Atom.mk.inj (Formula.atom.inj (Formula.neg.inj (List.mem_singleton.1 hst)))
        obtain ⟨rfl, rfl⟩ : s = .const ⟨14⟩ ∧ t = .const ⟨14⟩ := by simpa using hargs
        rfl
  · obtain ⟨N, l', h⟩ := hrun askedTiles (by decide +kernel)
    refine ⟨N, l', h, fun b hrelation hground hmem => ?_⟩
    have hasked : ∃ φ ∈ askedTiles, φ.UsesForeignBase := ⟨_, List.mem_cons_of_mem _ List.mem_cons_self, huses⟩
    obtain ⟨hvanish, -⟩ := ((mem_normalize_base_iff h).2 hasked b hrelation hground).1 hmem
    -- the rule that asks has no equalities
    rcases hvanish _ List.mem_cons_self ⟨_, List.mem_cons_of_mem _ (List.mem_singleton_self _), rfl, by decide⟩ with
      hfact | hnone
    · cases hfact
    · refine hnone .var fun s t hst => ?_
      cases List.mem_singleton.1 hst

/-- Ground facts about `base` are not dropped altogether: the second pass makes a fact of the rule, and knows nothing
of the fact that the first one has dropped. -/
theorem normalize_keeps_late_base_fact : (∃ φ ∈ settledTile, φ.UsesForeignBase) ∧
    (normalize .standard settledTile tileNames).1 = .ok [.atom ⟨Keyword.base, [.const ⟨14⟩]⟩] := by
  refine ⟨⟨_, List.mem_cons_self, _, List.mem_singleton_self _, rfl, by decide⟩, by decide +kernel⟩

end GameCircuit
