import GameCircuit.Proofs.NormalForms
import GameCircuit.Proofs.Variants

/-!
# What a pass leaves

`Formula.Tidy` says what a pass leaves of every formula before variables are specialized: functions have
arguments, bodies hold literals, and no equality is left to be solved.  A pass leaves tidy formulas as they
are, apart from facts written as rules and facts about `base` that do not count (`simplify_of_tidy`).
-/

namespace GameCircuit

/-! ## Functions without arguments -/

namespace Term

@[simp] theorem collapse_const (c : Symbol) : (const c).collapse = const c := rfl

@[simp] theorem collapse_var (x : Symbol) : (var x).collapse = var x := rfl

@[simp] theorem collapse_app (f : Symbol) (ts : List (Term Symbol)) :
    (app f ts).collapse = if ts.isEmpty then const f else app f (ts.map collapse) := by
  simp [collapse]

variable {σ : Symbol → Term Symbol} {t : Term Symbol} {s : Symbol}

theorem collapse_subst (t : Term Symbol) :
    (t.subst σ).collapse = t.collapse.subst fun x => (σ x).collapse := by
  induction t with
  | const c => rfl
  | var x => rfl
  | app f ts ih =>
    rw [subst_app, collapse_app, collapse_app, List.isEmpty_map]
    split_ifs
    · rfl
    · rw [subst_app, List.map_map, List.map_map]
      exact congrArg (app f) (List.map_congr_left ih)

theorem collapse_collapse (t : Term Symbol) : t.collapse.collapse = t.collapse := by
  induction t with
  | const c => rfl
  | var x => rfl
  | app f ts ih =>
    rw [collapse_app]
    split_ifs with hempty
    · rfl
    · rw [collapse_app, List.isEmpty_map, if_neg hempty, List.map_map]
      exact congrArg (app f) (List.map_congr_left ih)

theorem mem_symbols_collapse (h : s ∈ t.collapse.symbols) : s ∈ t.symbols := by
  induction t with
  | const c => exact h
  | var x => exact h
  | app f ts ih =>
    rw [symbols_app]
    rw [collapse_app] at h
    split_ifs at h
    · rw [List.mem_singleton.1 h]
      exact List.mem_cons_self
    · rw [symbols_app, List.mem_cons, List.flatMap_map] at h
      rcases h with rfl | h
      · exact List.mem_cons_self
      · obtain ⟨t, ht, hs⟩ := List.mem_flatMap.1 h
        exact List.mem_cons_of_mem _ (List.mem_flatMap.2 ⟨t, ht, ih t ht hs⟩)

theorem args_ne_nil_of_collapse {f : Symbol} {ts : List (Term Symbol)} (h : (app f ts).collapse = app f ts) :
    ts ≠ [] := by
  rintro rfl
  simp at h

theorem HasAt.collapse_eq {p q : Path} {u : Term Symbol} (h : t.HasAt p q u) (ht : t.collapse = t) :
    u.collapse = u := by
  induction t generalizing p with
  | const c =>
    obtain ⟨-, rfl⟩ := hasAt_const.1 h
    rfl
  | var x =>
    obtain ⟨-, rfl⟩ := hasAt_var.1 h
    rfl
  | app f ts ih =>
    rcases hasAt_app.1 h with ⟨-, rfl⟩ | ⟨i, t, hi, hu⟩
    · exact ht
    · have hne := args_ne_nil_of_collapse ht
      rw [collapse_app, if_neg (by simpa using hne), Term.app.injEq] at ht
      have hmem := List.mem_of_getElem? hi
      refine ih t hmem hu ?_
      have hargs := List.map_eq_iff.1 ht.2 i
      rw [hi, Option.map_some] at hargs
      exact (Option.some.inj hargs).symm

end Term

namespace Atom

variable {σ : Symbol → Term Symbol} {a : Atom Symbol} {s : Symbol}

theorem collapse_subst (a : Atom Symbol) :
    (a.subst σ).collapse = a.collapse.subst fun x => (σ x).collapse := by
  simp only [collapse, subst, List.map_map, Atom.mk.injEq, true_and]
  exact List.map_congr_left fun t _ => Term.collapse_subst t

theorem collapse_collapse (a : Atom Symbol) : a.collapse.collapse = a.collapse := by
  simp only [collapse, List.map_map, Atom.mk.injEq, true_and]
  exact List.map_congr_left fun t _ => Term.collapse_collapse t

theorem mem_symbols_collapse (h : s ∈ a.collapse.symbols) : s ∈ a.symbols := by
  rw [symbols, collapse, List.mem_cons, List.flatMap_map] at h
  rcases h with rfl | h
  · exact List.mem_cons_self
  · obtain ⟨t, ht, hs⟩ := List.mem_flatMap.1 h
    exact List.mem_cons_of_mem _ (List.mem_flatMap.2 ⟨t, ht, Term.mem_symbols_collapse hs⟩)

theorem HasAt.collapse_eq {path : Path} {t : Term Symbol} (h : a.HasAt path t) (ha : a.collapse = a) :
    t.collapse = t := by
  obtain ⟨i, s, hs, ht⟩ := h
  have hargs := congrArg (fun b : Atom Symbol => b.args[i]?) ha
  simp only [collapse, List.getElem?_map, hs, Option.map_some, Option.some.injEq] at hargs
  exact ht.collapse_eq hargs

@[simp] theorem isDegenerate_subst : (a.subst σ).isDegenerate = a.isDegenerate := by
  simp [isDegenerate, subst]

@[simp] theorem isDegenerate_collapse : a.collapse.isDegenerate = a.isDegenerate := by
  simp [isDegenerate, collapse]

@[simp] theorem isComparable_subst : (a.subst σ).isComparable = a.isComparable := by
  simp [isComparable, subst, arity]

@[simp] theorem isComparable_collapse : a.collapse.isComparable = a.isComparable := by
  simp [isComparable, collapse, arity]

end Atom

namespace Formula

@[simp] theorem collapse_atom (a : Atom Symbol) : (atom a).collapse = atom a.collapse := rfl

@[simp] theorem collapse_rule (head : Atom Symbol) (body : List (Formula Symbol)) :
    (rule head body).collapse = rule head.collapse (body.map collapse) := by
  simp [collapse]

@[simp] theorem collapse_neg (φ : Formula Symbol) : (neg φ).collapse = neg φ.collapse := rfl

@[simp] theorem collapse_disj (φs : List (Formula Symbol)) : (disj φs).collapse = disj (φs.map collapse) := by
  simp [collapse]

variable {σ : Symbol → Term Symbol} {φ ψ : Formula Symbol} {s : Symbol}

theorem atoms_collapse (φ : Formula Symbol) : φ.collapse.atoms = φ.atoms.map Atom.collapse := by
  induction φ with
  | atom a => rfl
  | rule head body ih =>
    simp only [collapse_rule, atoms_rule, List.map_cons, List.flatMap_map, List.map_flatMap]
    rw [List.flatMap_congr ih]
  | neg φ ih => exact ih
  | disj φs ih =>
    simp only [collapse_disj, atoms_disj, List.flatMap_map, List.map_flatMap]
    exact List.flatMap_congr ih

theorem mem_symbols_collapse (h : s ∈ φ.collapse.symbols) : s ∈ φ.symbols := by
  rw [symbols, atoms_collapse, List.flatMap_map] at h
  obtain ⟨a, ha, hs⟩ := List.mem_flatMap.1 h
  exact List.mem_flatMap.2 ⟨a, ha, Atom.mem_symbols_collapse hs⟩

theorem collapse_eq_self (h : ∀ a ∈ φ.atoms, a.collapse = a) : φ.collapse = φ := by
  induction φ with
  | atom a => rw [collapse_atom, h a (List.mem_singleton_self a)]
  | rule head body ih =>
    rw [atoms_rule, List.forall_mem_cons] at h
    have hbody : ∀ ψ ∈ body, ψ.collapse = ψ := fun ψ hψ =>
      ih ψ hψ fun a ha => h.2 a (List.mem_flatMap.2 ⟨ψ, hψ, ha⟩)
    rw [collapse_rule, h.1, List.map_congr_left hbody, List.map_id']
  | neg φ ih => rw [collapse_neg, ih h]
  | disj φs ih =>
    rw [atoms_disj] at h
    have hφs : ∀ ψ ∈ φs, ψ.collapse = ψ := fun ψ hψ =>
      ih ψ hψ fun a ha => h a (List.mem_flatMap.2 ⟨ψ, hψ, ha⟩)
    rw [collapse_disj, List.map_congr_left hφs, List.map_id']

/-! ## Supported formulas -/

theorem isSimpleLiteral_subst : (φ.subst σ).isSimpleLiteral = φ.isSimpleLiteral := by
  cases φ with
  | atom a => exact Atom.isComparable_subst
  | rule head body => simp [isSimpleLiteral]
  | neg ψ =>
    cases ψ with
    | atom a => exact Atom.isComparable_subst
    | rule head body => simp [isSimpleLiteral]
    | neg χ => rfl
    | disj φs => simp [isSimpleLiteral]
  | disj φs => simp [isSimpleLiteral]

theorem isSimpleLiteral_collapse : φ.collapse.isSimpleLiteral = φ.isSimpleLiteral := by
  cases φ with
  | atom a => exact Atom.isComparable_collapse
  | rule head body => simp [isSimpleLiteral]
  | neg ψ =>
    cases ψ with
    | atom a => exact Atom.isComparable_collapse
    | rule head body => simp [isSimpleLiteral]
    | neg χ => rfl
    | disj φs => simp [isSimpleLiteral]
  | disj φs => simp [isSimpleLiteral]

theorem isLiteral_subst : (φ.subst σ).isLiteral = φ.isLiteral := by
  cases φ with
  | atom a => exact isSimpleLiteral_subst (φ := .atom a)
  | rule head body => simp [isLiteral, isSimpleLiteral]
  | neg ψ => exact isSimpleLiteral_subst (φ := .neg ψ)
  | disj φs =>
    rw [subst_disj, isLiteral, isLiteral, List.all_map]
    exact congrArg _ (funext fun ψ => isSimpleLiteral_subst)

theorem isLiteral_collapse : φ.collapse.isLiteral = φ.isLiteral := by
  cases φ with
  | atom a => exact isSimpleLiteral_collapse (φ := .atom a)
  | rule head body => simp [isLiteral, isSimpleLiteral]
  | neg ψ => exact isSimpleLiteral_collapse (φ := .neg ψ)
  | disj φs =>
    rw [collapse_disj, isLiteral, isLiteral, List.all_map]
    exact congrArg _ (funext fun ψ => isSimpleLiteral_collapse)

theorem isSupported_subst : (φ.subst σ).isSupported = φ.isSupported := by
  cases φ with
  | atom a => rfl
  | rule head body =>
    rw [subst_rule, isSupported, isSupported, List.all_map]
    exact congrArg _ (funext fun ψ => isLiteral_subst)
  | neg ψ => rfl
  | disj φs => simp [isSupported]

theorem isSupported_collapse : φ.collapse.isSupported = φ.isSupported := by
  cases φ with
  | atom a => rfl
  | rule head body =>
    rw [collapse_rule, isSupported, isSupported, List.all_map]
    exact congrArg _ (funext fun ψ => isLiteral_collapse)
  | neg ψ => rfl
  | disj φs => simp [isSupported]

theorem equality?_subst_eq_none : (φ.subst σ).equality? = none ↔ φ.equality? = none := by
  cases φ with
  | neg ψ =>
    cases ψ with
    | atom a =>
      obtain ⟨relation, args⟩ := a
      rcases args with _ | ⟨s, _ | ⟨t, _ | _⟩⟩
      · exact Iff.rfl
      · exact Iff.rfl
      · simp [Atom.subst, equality?]
      · exact Iff.rfl
    | rule head body => simp [equality?]
    | neg χ => exact Iff.rfl
    | disj φs => simp [equality?]
  | atom a => exact Iff.rfl
  | rule head body => simp [equality?]
  | disj φs => simp [equality?]

end Formula

/-! ## Equalities -/

theorem Formula.equality?_eq_some {φ : Formula Symbol} {s t : Term Symbol} :
    φ.equality? = some (s, t) ↔ φ = .neg (.atom ⟨Keyword.distinct, [s, t]⟩) := by
  constructor
  · intro h
    unfold equality? at h
    split at h
    · split_ifs at h with hd
      obtain ⟨rfl, rfl⟩ := Prod.mk.inj (Option.some.inj h)
      rw [hd]
    · cases h
  · rintro rfl
    rfl

/-- A variable is bound to one of the two terms that are compared. -/
theorem Term.eq_of_compare_eq_bind {s t u : Term Symbol} {x : Symbol} (h : s.compare t = .bind x u) :
    u = s ∨ u = t := by
  have hbind : ∀ {y t}, bindTo y t = .bind x u → u = t := by
    intro y t hy
    cases t with
    | const c => exact (Comparison.bind.inj hy).2.symm
    | var z => exact (Comparison.bind.inj hy).2.symm
    | app f ts =>
      rw [bindTo] at hy
      split_ifs at hy
      exact (Comparison.bind.inj hy).2.symm
  rw [compare.eq_def] at h
  split_ifs at h
  cases s with
  | var y => exact .inr (hbind h)
  | const c =>
    cases t with
    | var y => exact .inl (hbind h)
    | const d => cases h
    | app f ts => cases h
  | app f ts =>
    cases t with
    | var y => exact .inl (hbind h)
    | const d => cases h
    | app g us => cases h

section Equalities

/-- What terms of the equalities share, and what replacing variables keeps, holds of the solution. -/
theorem solveEqualities_induction (Good : Term Symbol → Prop)
    (hsubst : ∀ {t τ}, Good t → (∀ x ∈ t.vars, Good (τ x)) → Good (t.subst τ))
    (hvar : ∀ {t x}, Good t → x ∈ t.vars → Good (.var x)) {body : List (Formula Symbol)}
    (hbody : ∀ φ ∈ body, ∀ s t, φ.equality? = some (s, t) → Good s ∧ Good t) {σ τ : Symbol → Term Symbol}
    (hσ : ∀ x, Good (.var x) → Good (σ x)) (h : solveEqualities σ body = .ok (some τ)) :
    ∀ x, Good (.var x) → Good (τ x) := by
  induction body generalizing σ with
  | nil =>
    obtain rfl : σ = τ := by simpa [solveEqualities] using h
    exact hσ
  | cons φ body ih =>
    obtain ⟨hφ, hrest⟩ := List.forall_mem_cons.1 hbody
    rw [solveEqualities] at h
    cases hequality : φ.equality? with
    | none =>
      simp only [hequality] at h
      exact ih hrest hσ h
    | some p =>
      obtain ⟨s, t⟩ := p
      simp only [hequality] at h
      obtain ⟨hs, ht⟩ := hφ s t hequality
      have hinst : ∀ {t}, Good t → Good (t.subst σ) := fun ht => hsubst ht fun x hx => hσ x (hvar ht hx)
      cases hcompare : (s.subst σ).compare (t.subst σ) with
      | same =>
        simp only [hcompare] at h
        exact ih hrest hσ h
      | clash => simp [hcompare] at h
      | unsupported f g => simp [hcompare] at h
      | bind x u =>
        simp only [hcompare] at h
        refine ih hrest (fun y hy => hsubst (hσ y hy) fun z hz => ?_) h
        rw [Term.single]
        split_ifs
        · -- the term is one of the two that are compared
          rcases Term.eq_of_compare_eq_bind hcompare with rfl | rfl
          · exact hinst hs
          · exact hinst ht
        · exact hvar (hσ y hy) hz

end Equalities

namespace Formula

/-- The formula without the equalities of its body. -/
def withoutEqualities : Formula Symbol → Formula Symbol
  | .rule head body => .rule head (body.filter fun φ => φ.equality?.isNone)
  | φ => φ

variable {dropBase : Bool} {φ ψ : Formula Symbol} {σ : Symbol → Term Symbol} {s : Symbol}

theorem mem_atoms_of_mem_withoutEqualities {a : Atom Symbol} (h : a ∈ φ.withoutEqualities.atoms) :
    a ∈ φ.atoms := by
  cases φ with
  | rule head body =>
    rw [withoutEqualities, atoms_rule, List.mem_cons] at h
    rw [atoms_rule, List.mem_cons]
    refine h.imp_right fun hbody => ?_
    obtain ⟨ψ, hψ, ha⟩ := List.mem_flatMap.1 hbody
    exact List.mem_flatMap.2 ⟨ψ, (List.mem_filter.1 hψ).1, ha⟩
  | atom b => exact h
  | neg ψ => exact h
  | disj φs => exact h

theorem clean_eq_ok : φ.clean = .ok ψ ↔
    (∀ a ∈ φ.atoms, a.isDegenerate = false) ∧ φ.isSupported = true ∧ ψ = φ.collapse := by
  rw [clean]
  split
  · rename_i a ha
    refine iff_of_false (by simp) fun h => ?_
    have hdegenerate := List.find?_some ha
    rw [h.1 a (List.mem_of_find?_eq_some ha)] at hdegenerate
    cases hdegenerate
  · rename_i hnone
    have hproper : ∀ a ∈ φ.atoms, a.isDegenerate = false := by simpa using hnone
    split_ifs with hsupported
    · exact ⟨fun h => ⟨hproper, hsupported, (Except.ok.inj h).symm⟩, fun h => by rw [h.2.2]⟩
    · exact iff_of_false (by simp) fun h => hsupported h.2.1

theorem simplify_of_clean_atom {a : Atom Symbol} (h : φ.unconditional.clean = .ok (.atom a)) :
    φ.simplify dropBase = .ok ((some (atom a)).filter fun φ => !(dropBase && φ.isBaseFact)) := by
  rw [simplify, h]
  rfl

theorem simplify_of_clean_rule {head : Atom Symbol} {body : List (Formula Symbol)}
    (h : φ.unconditional.clean = .ok (.rule head body)) :
    φ.simplify dropBase = (fun c? => (Option.map Clause.toFormula c?).filter
      fun φ => !(dropBase && φ.isBaseFact)) <$> Clause.solve ⟨head, body⟩ := by
  rw [simplify, h]
  cases hsolve : Clause.solve ⟨head, body⟩ with
  | error e => simp [bind, Except.bind, hsolve, Functor.map, Except.map]
  | ok c? => simp [bind, Except.bind, hsolve, Functor.map, Except.map, pure, Except.pure]

/-- A pass replaces variables so that the equalities of a body are solved. -/
theorem simplify_eq_some (h : φ.simplify dropBase = .ok (some ψ)) : ∃ σ,
    (∀ a ∈ φ.unconditional.atoms, a.isDegenerate = false) ∧ φ.unconditional.isSupported = true ∧
      solveEqualities .var φ.unconditional.collapse.body = .ok (some σ) ∧
      ψ = φ.unconditional.collapse.withoutEqualities.subst σ ∧ (dropBase && ψ.isBaseFact) = false := by
  cases hclean : φ.unconditional.clean with
  | error e => simp [simplify, hclean, bind, Except.bind] at h
  | ok χ =>
    obtain ⟨hproper, hsupported, hχ⟩ := clean_eq_ok.1 hclean
    rw [← hχ]
    rw [← isSupported_collapse, ← hχ] at hsupported
    rw [← isSupported_collapse, ← hχ]
    cases χ with
    | rule head body =>
      rw [simplify_of_clean_rule hclean, map_ok] at h
      obtain ⟨c?, hsolve, hψ⟩ := h
      obtain ⟨hsome, hbase⟩ := Option.filter_eq_some_iff.1 hψ.symm
      obtain ⟨c, rfl, rfl⟩ := Option.map_eq_some_iff.1 hsome
      rw [Clause.solve] at hsolve
      split at hsolve
      · cases hsolve
      · cases hsolve
      · rename_i σ hσ
        obtain rfl := Option.some.inj (Except.ok.inj hsolve)
        exact ⟨σ, hproper, hsupported, hσ, (subst_rule _ _ _).symm, by simpa only [Bool.not_eq_true'] using hbase⟩
    | atom a =>
      rw [simplify_of_clean_atom hclean] at h
      obtain ⟨hsome, hbase⟩ := Option.filter_eq_some_iff.1 (Except.ok.inj h)
      obtain rfl := Option.some.inj hsome
      exact ⟨.var, hproper, hsupported, rfl, (subst_var_id _).symm, by simpa only [Bool.not_eq_true'] using hbase⟩
    | neg χ => cases hsupported
    | disj φs => cases hsupported

/-- What a pass leaves of a formula. -/
structure Tidy (φ : Formula Symbol) : Prop where
  /-- It is a fact, or a rule over literals. -/
  supported : φ.isSupported = true
  /-- A relation about states has an argument. -/
  proper : ∀ a ∈ φ.atoms, a.isDegenerate = false
  /-- Functions have arguments. -/
  collapsed : ∀ a ∈ φ.atoms, a.collapse = a
  /-- No equality is left to be solved. -/
  solved : ∀ ψ ∈ φ.body, ψ.equality? = none

theorem Tidy.subst (h : φ.Tidy) (hσ : ∀ x, (σ x).collapse = σ x) : (φ.subst σ).Tidy where
  supported := by
    rw [isSupported_subst]
    exact h.supported
  proper a ha := by
    rw [atoms_subst] at ha
    obtain ⟨b, hb, rfl⟩ := List.mem_map.1 ha
    rw [Atom.isDegenerate_subst]
    exact h.proper b hb
  collapsed a ha := by
    rw [atoms_subst] at ha
    obtain ⟨b, hb, rfl⟩ := List.mem_map.1 ha
    rw [Atom.collapse_subst, h.collapsed b hb, funext hσ]
  solved ψ hψ := by
    cases φ with
    | rule head body =>
      rw [subst_rule] at hψ
      obtain ⟨χ, hχ, rfl⟩ := List.mem_map.1 hψ
      rw [equality?_subst_eq_none]
      exact h.solved χ hχ
    | atom a => cases hψ
    | neg χ => cases hψ
    | disj φs =>
      rw [subst_disj] at hψ
      cases hψ

/-- The terms of a solution have functions with arguments only, as those of the equalities do. -/
theorem collapse_of_solveEqualities {body : List (Formula Symbol)}
    (hbody : ∀ φ ∈ body, ∀ a ∈ φ.atoms, a.collapse = a) (h : solveEqualities .var body = .ok (some σ))
    (x : Symbol) : (σ x).collapse = σ x := by
  refine solveEqualities_induction (fun t => t.collapse = t) ?_ (fun _ _ => rfl) ?_ (fun _ _ => rfl) h x rfl
  · intro t τ ht hτ
    rw [Term.collapse_subst, ht]
    exact Term.subst_congr hτ
  · intro φ hφ s t hequality
    obtain rfl := equality?_eq_some.1 hequality
    have hatom := hbody _ hφ _ (List.mem_singleton_self _)
    simp only [Atom.collapse, Atom.mk.injEq, List.map_cons, List.map_nil, List.cons.injEq, true_and,
      and_true] at hatom
    exact hatom

theorem solveEqualities_of_solved {body : List (Formula Symbol)} (h : ∀ φ ∈ body, φ.equality? = none) :
    solveEqualities σ body = .ok (some σ) := by
  induction body with
  | nil => rfl
  | cons φ body ih =>
    obtain ⟨hφ, hbody⟩ := List.forall_mem_cons.1 h
    rw [solveEqualities, hφ]
    exact ih hbody

@[simp] theorem atoms_unconditional : φ.unconditional.atoms = φ.atoms := by
  cases φ with
  | rule head body =>
    cases body with
    | nil => simp [unconditional]
    | cons ψ body => rfl
  | atom a => rfl
  | neg ψ => rfl
  | disj φs => rfl

theorem unconditional_unconditional (φ : Formula Symbol) : φ.unconditional.unconditional = φ.unconditional := by
  cases φ with
  | rule head body =>
    cases body with
    | nil => rfl
    | cons ψ body => rfl
  | atom a => rfl
  | neg ψ => rfl
  | disj φs => rfl

theorem tidy_withoutEqualities (hproper : ∀ a ∈ φ.atoms, a.isDegenerate = false)
    (hsupported : φ.isSupported = true) : φ.collapse.withoutEqualities.Tidy where
  supported := by
    rw [← isSupported_collapse] at hsupported
    cases hχ : φ.collapse with
    | rule head body =>
      rw [hχ, isSupported, List.all_eq_true] at hsupported
      rw [withoutEqualities, isSupported, List.all_eq_true]
      exact fun ψ hψ => hsupported ψ (List.mem_filter.1 hψ).1
    | atom a => rfl
    | neg ψ => rwa [hχ] at hsupported
    | disj φs => rwa [hχ] at hsupported
  proper a ha := by
    have hmem := mem_atoms_of_mem_withoutEqualities ha
    rw [atoms_collapse] at hmem
    obtain ⟨b, hb, rfl⟩ := List.mem_map.1 hmem
    rw [Atom.isDegenerate_collapse]
    exact hproper b hb
  collapsed a ha := by
    have hmem := mem_atoms_of_mem_withoutEqualities ha
    rw [atoms_collapse] at hmem
    obtain ⟨b, hb, rfl⟩ := List.mem_map.1 hmem
    exact Atom.collapse_collapse b
  solved ψ hψ := by
    cases hχ : φ.collapse with
    | rule head body =>
      rw [hχ] at hψ
      exact Option.isNone_iff_eq_none.1 (List.mem_filter.1 hψ).2
    | atom a =>
      rw [hχ] at hψ
      cases hψ
    | neg χ =>
      rw [hχ] at hψ
      cases hψ
    | disj φs =>
      rw [hχ] at hψ
      cases hψ

/-- A pass leaves tidy formulas. -/
theorem tidy_of_simplify (h : φ.simplify dropBase = .ok (some ψ)) : ψ.Tidy := by
  obtain ⟨σ, hproper, hsupported, hσ, rfl, -⟩ := simplify_eq_some h
  refine (tidy_withoutEqualities hproper hsupported).subst (collapse_of_solveEqualities ?_ hσ)
  intro ψ hψ a ha
  have hmem := mem_atoms_of_mem_body hψ ha
  rw [atoms_collapse] at hmem
  obtain ⟨b, hb, rfl⟩ := List.mem_map.1 hmem
  exact Atom.collapse_collapse b

/-- A pass adds no symbols to a formula before variables are specialized. -/
theorem mem_symbols_of_simplify (h : φ.simplify dropBase = .ok (some ψ)) (hs : s ∈ ψ.symbols) : s ∈ φ.symbols := by
  obtain ⟨σ, -, -, hσ, rfl, -⟩ := simplify_eq_some h
  have hfrom : ∀ {s}, s ∈ φ.unconditional.collapse.symbols → s ∈ φ.symbols := by
    intro s hs
    have hmem := mem_symbols_collapse hs
    rwa [symbols, atoms_unconditional] at hmem
  have hwithout : ∀ {s}, s ∈ φ.unconditional.collapse.withoutEqualities.symbols →
      s ∈ φ.unconditional.collapse.symbols := by
    intro s hs
    obtain ⟨a, ha, hsa⟩ := List.mem_flatMap.1 hs
    exact List.mem_flatMap.2 ⟨a, mem_atoms_of_mem_withoutEqualities ha, hsa⟩
  rcases mem_symbols_subst hs with hold | ⟨x, hx, hnew⟩
  · exact hfrom (hwithout hold)
  · refine hfrom (solveEqualities_induction
      (fun t => ∀ s ∈ t.symbols, s ∈ φ.unconditional.collapse.symbols) ?_ ?_ ?_ ?_ hσ x ?_ s hnew)
    · intro t τ ht hτ s hs
      rcases Term.mem_symbols_subst hs with hold | ⟨y, hy, hnew⟩
      · exact ht s hold
      · exact hτ y hy s hnew
    · intro t y ht hy s hs
      obtain rfl := List.mem_singleton.1 hs
      obtain ⟨q, hq⟩ := Term.exists_hasAt_of_mem_vars [] hy
      exact ht s (hq.mem_symbols (List.mem_singleton_self s))
    · intro ψ hψ u v hequality
      obtain rfl := equality?_eq_some.1 hequality
      have hatom := mem_atoms_of_mem_body hψ (List.mem_singleton_self _)
      refine ⟨fun s hs => List.mem_flatMap.2 ⟨_, hatom, ?_⟩, fun s hs => List.mem_flatMap.2 ⟨_, hatom, ?_⟩⟩
      · simp [Atom.symbols, hs]
      · simp [Atom.symbols, hs]
    · exact fun y hy => hy
    · intro s hs
      obtain rfl := List.mem_singleton.1 hs
      exact hwithout (mem_symbols_of_mem_vars hx)

/-- A formula without equalities is only cleaned. -/
theorem simplify_of_solved (hclean : φ.unconditional.clean = .ok ψ) (hsolved : ∀ χ ∈ ψ.body, χ.equality? = none) :
    φ.simplify dropBase = .ok ((some ψ).filter fun φ => !(dropBase && φ.isBaseFact)) := by
  cases ψ with
  | atom a => exact simplify_of_clean_atom hclean
  | rule head body =>
    have hbody : ∀ χ ∈ body, χ.equality? = none := hsolved
    have hfilter : body.filter (fun χ => χ.equality?.isNone) = body :=
      List.filter_eq_self.2 fun χ hχ => Option.isNone_iff_eq_none.2 (hbody χ hχ)
    have hsubst : Clause.subst .var ⟨head, body⟩ = ⟨head, body⟩ := by
      have hrule := subst_var_id (.rule head body)
      rw [subst_rule] at hrule
      obtain ⟨hhead, hbody⟩ := Formula.rule.inj hrule
      rw [Clause.subst, hhead, hbody]
    rw [simplify_of_clean_rule hclean, Clause.solve]
    simp only [solveEqualities_of_solved hbody, hfilter, hsubst]
    rfl
  | neg χ =>
    obtain ⟨-, hsupported, hχ⟩ := clean_eq_ok.1 hclean
    rw [← isSupported_collapse, ← hχ] at hsupported
    cases hsupported
  | disj φs =>
    obtain ⟨-, hsupported, hφs⟩ := clean_eq_ok.1 hclean
    rw [← isSupported_collapse, ← hφs] at hsupported
    cases hsupported

theorem body_unconditional : φ.unconditional.body = φ.body := by
  cases φ with
  | rule head body =>
    cases body with
    | nil => rfl
    | cons ψ body => rfl
  | atom a => rfl
  | neg ψ => rfl
  | disj φs => rfl

/-- A pass leaves tidy formulas as they are. -/
theorem simplify_of_tidy (h : φ.Tidy) : φ.simplify dropBase =
    .ok ((some φ.unconditional).filter fun φ => !(dropBase && φ.isBaseFact)) := by
  refine simplify_of_solved (clean_eq_ok.2 ⟨?_, ?_, (collapse_eq_self ?_).symm⟩) ?_
  · rw [atoms_unconditional]
    exact h.proper
  · rw [isSupported_unconditional]
    exact h.supported
  · rw [atoms_unconditional]
    exact h.collapsed
  · rw [body_unconditional]
    exact h.solved

end Formula

/-! ## A pass over a description -/

section Pass

variable {φs φs' ψs N : List (Formula Symbol)} {φ ψ : Formula Symbol} {l l' : Lexicon} {depth? : Option Nat}

theorem simplifyAll_eq_ok : simplifyAll φs = .ok ψs ↔
    ∃ results, φs.mapM (Formula.simplify (hasForeignBase φs)) = .ok results ∧
      ψs = distinct (results.filterMap id) := by
  rw [simplifyAll]
  cases φs.mapM (Formula.simplify (hasForeignBase φs)) with
  | error e => simp [bind, Except.bind]
  | ok results => simp [bind, Except.bind, pure, Except.pure, eq_comm]

theorem mem_simplifyAll (h : simplifyAll φs = .ok ψs) :
    ψ ∈ ψs ↔ ∃ φ ∈ φs, φ.simplify (hasForeignBase φs) = .ok (some ψ) := by
  obtain ⟨results, hresults, rfl⟩ := simplifyAll_eq_ok.1 h
  rw [mem_distinct, ← mem_of_mapM hresults]
  simp

theorem nodup_simplifyAll (h : simplifyAll φs = .ok ψs) : ψs.Nodup := by
  obtain ⟨results, -, rfl⟩ := simplifyAll_eq_ok.1 h
  exact nodup_distinct _

theorem tidy_of_simplifyAll (h : simplifyAll φs = .ok ψs) : ∀ ψ ∈ ψs, ψ.Tidy := by
  intro ψ hψ
  obtain ⟨φ, -, hφ⟩ := (mem_simplifyAll h).1 hψ
  exact Formula.tidy_of_simplify hφ

theorem covers_simplifyAll (hl : l.Covers φs) (h : simplifyAll φs = .ok ψs) : l.Covers ψs := by
  intro ψ hψ s hs
  obtain ⟨φ, hφ, hsimplify⟩ := (mem_simplifyAll h).1 hψ
  exact hl φ hφ s (Formula.mem_symbols_of_simplify hsimplify hs)

/-- Tidy formulas stay, apart from facts written as rules and facts about `base` that do not count. -/
theorem simplifyAll_of_tidy (h : ∀ φ ∈ φs, φ.Tidy) : simplifyAll φs = .ok (distinct
    ((φs.map Formula.unconditional).filter fun φ => !(hasForeignBase φs && φ.isBaseFact))) := by
  refine simplifyAll_eq_ok.2 ⟨_, mapM_eq_ok_map fun φ hφ => Formula.simplify_of_tidy (h φ hφ), ?_⟩
  rw [List.filterMap_map, List.filter_map, ← List.filterMap_eq_filter, List.map_filterMap]
  refine congrArg distinct (List.filterMap_congr fun φ _ => ?_)
  simp only [Function.comp, id, Option.filter, Option.guard]
  split_ifs <;> rfl

/-- Specializes variables, if a depth is given. -/
def specializeTo (depth? : Option Nat) (φs : List (Formula Symbol)) (l : Lexicon) :
    List (Formula Symbol) × Lexicon :=
  match depth? with
  | some depth => specialize depth φs l
  | none => (φs, l)

theorem normalizePass_eq_ok : normalizePass depth? φs l = .ok (φs', l') ↔
    ∃ ψs, simplifyAll φs = .ok ψs ∧ specializeTo depth? ψs l = (φs', l') := by
  rw [normalizePass]
  cases simplifyAll φs with
  | error e => simp [bind, Except.bind]
  | ok ψs => cases depth? <;> simp [bind, Except.bind, pure, Except.pure, specializeTo]

/-- A function that stands somewhere in tidy formulas has arguments. -/
theorem arity_ne_zero_of_lookup {site : Site} {f : Symbol} {arity : Nat} (hψs : ∀ ψ ∈ ψs, ψ.Tidy)
    (h : .functor f arity ∈ (Occupancy.ofFormulas ψs).lookup site) : arity ≠ 0 := by
  obtain ⟨ψ, hψ, a, ha, path, hpath, -⟩ := mem_siteOccupants.1 (Occupancy.mem_lookup.1 h)
  obtain ⟨-, t, ht, ho⟩ := Atom.mem_occupants.1 hpath
  cases t with
  | const c => cases ho
  | var y => cases ho
  | app g ts =>
    have hargs := Term.args_ne_nil_of_collapse (ht.collapse_eq ((hψs ψ hψ).collapsed a ha))
    obtain ⟨rfl, rfl⟩ : g = f ∧ ts.length = arity := by simpa [Term.occupant?] using ho
    exact fun hzero => hargs (List.length_eq_zero_iff.1 hzero)

/-- The terms that replace variables have functions with arguments only, as the description has. -/
theorem collapse_variant {depth : Nat} {choice : Symbol → Occupant} (hψs : ∀ ψ ∈ ψs, ψ.Tidy)
    (hselects : Selects (φ.compoundVariables (.ofFormulas ψs) depth) choice) (x : Symbol) :
    (l.variant choice x).collapse = l.variant choice x := by
  rw [Lexicon.variant]
  cases hchoice : choice x with
  | const => rfl
  | functor f arity =>
    have hne : arity ≠ 0 := by
      obtain ⟨site, hsite⟩ := Formula.exists_lookup_of_selects hselects hchoice
      exact arity_ne_zero_of_lookup hψs hsite
    rw [Lexicon.replacement, Term.collapse_app, List.isEmpty_map, if_neg (by simpa using hne), List.map_map]
    rfl

theorem tidy_of_specializeTo (hl : l.Covers ψs) (hψs : ∀ ψ ∈ ψs, ψ.Tidy)
    (h : specializeTo depth? ψs l = (φs', l')) : ∀ φ ∈ φs', φ.Tidy := by
  cases depth? with
  | none =>
    obtain rfl : ψs = φs' := congrArg Prod.fst h
    exact hψs
  | some depth =>
    intro φ hφ
    obtain ⟨ψ, hψ, choice, hselects, rfl⟩ := (mem_specialize hl h).1 hφ
    exact (hψs ψ hψ).subst (collapse_variant hψs hselects)

theorem tidy_of_normalizePass (hl : l.Covers φs) (h : normalizePass depth? φs l = .ok (φs', l')) :
    ∀ φ ∈ φs', φ.Tidy := by
  obtain ⟨ψs, hsimplify, hspecialize⟩ := normalizePass_eq_ok.1 h
  exact tidy_of_specializeTo (covers_simplifyAll hl hsimplify) (tidy_of_simplifyAll hsimplify) hspecialize

/-- What a pass leaves, the lexicon that it leaves knows. -/
theorem covers_of_normalizePass (hl : l.Covers φs) (h : normalizePass depth? φs l = .ok (φs', l')) :
    l'.Covers φs' := by
  obtain ⟨ψs, hsimplify, hspecialize⟩ := normalizePass_eq_ok.1 h
  have hψs := covers_simplifyAll hl hsimplify
  cases depth? with
  | none =>
    obtain ⟨rfl, rfl⟩ := Prod.mk.inj hspecialize
    exact hψs
  | some depth => exact covers_specialize hψs hspecialize

theorem grows_of_normalizePass (hl : l.Covers φs) (h : normalizePass depth? φs l = .ok (φs', l')) : l.Grows l' := by
  obtain ⟨ψs, hsimplify, hspecialize⟩ := normalizePass_eq_ok.1 h
  cases depth? with
  | none =>
    obtain ⟨-, rfl⟩ := Prod.mk.inj hspecialize
    exact Lexicon.Grows.refl l
  | some depth => exact grows_specialize (covers_simplifyAll hl hsimplify) hspecialize

/-- The formula is no rule without conditions, and no fact about `base` that does not count. -/
def Formula.Kept (dropBase : Bool) (φ : Formula Symbol) : Prop :=
  φ.unconditional = φ ∧ (dropBase && φ.isBaseFact) = false

theorem Formula.Kept.subst_variant {dropBase : Bool} {occupancy : Occupancy} {depth : Nat}
    {choice : Symbol → Occupant} (h : φ.Kept dropBase)
    (hselects : Selects (φ.compoundVariables occupancy depth) choice) :
    (φ.subst (l.variant choice)).Kept dropBase := by
  cases φ with
  | rule head body =>
    rw [subst_rule]
    refine ⟨?_, by simp [isBaseFact]⟩
    cases body with
    | nil => cases h.1
    | cons ψ body => rfl
  | atom a =>
    rw [selects_nil.1 hselects, Lexicon.variant_const, subst_var_id]
    exact h
  | neg ψ => exact ⟨rfl, by simp [isBaseFact]⟩
  | disj φs =>
    rw [subst_disj]
    exact ⟨rfl, by simp [isBaseFact]⟩

theorem simplifyAll_eq_self (htidy : ∀ φ ∈ φs, φ.Tidy) (hkept : ∀ φ ∈ φs, φ.Kept (hasForeignBase φs))
    (hnodup : φs.Nodup) : simplifyAll φs = .ok φs := by
  have hmap : φs.map Formula.unconditional = φs := by
    rw [List.map_congr_left fun φ hφ => (hkept φ hφ).1, List.map_id']
  have hfilter : φs.filter (fun φ => !(hasForeignBase φs && φ.isBaseFact)) = φs :=
    List.filter_eq_self.2 fun φ hφ => by rw [(hkept φ hφ).2, Bool.not_false]
  rw [simplifyAll_of_tidy htidy, hmap, hfilter, distinct_eq_self hnodup]

/-- A pass that changes nothing changes nothing before variables are specialized either. -/
theorem kept_of_fixed (hl : l.Covers φs) (h : normalizePass depth? φs l = .ok (φs, l')) :
    (∀ φ ∈ φs, φ.Tidy) ∧ (∀ φ ∈ φs, φ.Kept (hasForeignBase φs)) ∧ φs.Nodup ∧
      specializeTo depth? φs l = (φs, l') := by
  have htidy := tidy_of_normalizePass hl h
  obtain ⟨ψs, hsimplify, hspecialize⟩ := normalizePass_eq_ok.1 h
  have hψs : ψs = _ := Except.ok.inj (hsimplify.symm.trans (simplifyAll_of_tidy htidy))
  have hkeptψ : ∀ ψ ∈ ψs, ψ.Kept (hasForeignBase φs) := by
    intro ψ hψ
    rw [hψs, mem_distinct, List.mem_filter] at hψ
    obtain ⟨φ, -, rfl⟩ := List.mem_map.1 hψ.1
    exact ⟨φ.unconditional_unconditional, by simpa only [Bool.not_eq_true'] using hψ.2⟩
  have hcovers := covers_simplifyAll hl hsimplify
  have hkept : (∀ φ ∈ φs, φ.Kept (hasForeignBase φs)) ∧ φs.Nodup := by
    cases depth? with
    | none =>
      obtain rfl : ψs = φs := congrArg Prod.fst hspecialize
      exact ⟨hkeptψ, nodup_simplifyAll hsimplify⟩
    | some depth =>
      refine ⟨fun φ hφ => ?_, nodup_specialize hcovers hspecialize⟩
      obtain ⟨ψ, hψ, choice, hselects, rfl⟩ := (mem_specialize hcovers hspecialize).1 hφ
      exact (hkeptψ ψ hψ).subst_variant hselects
  have hself := simplifyAll_eq_self htidy hkept.1 hkept.2
  rw [Except.ok.inj (hsimplify.symm.trans hself)] at hspecialize
  exact ⟨htidy, hkept.1, hkept.2, hspecialize⟩

/-- A pass that changed nothing changes nothing when it is run again. -/
theorem normalizePass_again (hl : l.Covers φs) (h : normalizePass depth? φs l = .ok (φs, l')) :
    normalizePass depth? φs l' = .ok (φs, l') := by
  obtain ⟨htidy, hkept, hnodup, hspecialize⟩ := kept_of_fixed hl h
  refine normalizePass_eq_ok.2 ⟨φs, simplifyAll_eq_self htidy hkept hnodup, ?_⟩
  cases depth? with
  | none => rfl
  | some depth =>
    obtain ⟨hφs, hsettled⟩ := specialize_settled hl hspecialize
    exact (specialize_of_settled hsettled).trans (Prod.ext hφs.symm rfl)

end Pass

end GameCircuit
