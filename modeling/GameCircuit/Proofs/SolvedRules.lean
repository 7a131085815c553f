import GameCircuit.Proofs.RuleInstances

/-!
# Solving equalities keeps what a rule says

`Clause.solve` collects one substitution on its way through a body.  `Clause.round` solves the equalities in
the rule itself, one after the other: it looks at the first equality only, and either drops it or replaces a
variable throughout the rule, in the equalities that follow too.  Rounds come to an end, and to the answer of
`Clause.solve` (`Clause.endsWith_solve`).

A solution is as general as it can be: a substitution that makes the two sides of every equality the same term
changes nothing if the solution is applied before it (`andThen_of_solveEqualities`).  So the solved rule has
just those ground instances of the rule that satisfy its equalities.
-/

namespace GameCircuit

/-! ## What an equality demands -/

namespace Term

variable {s t u : Term Symbol} {f x : Symbol} {ts : List (Term Symbol)} {θ : Symbol → Term Symbol}

/-- What takes the place of a variable inside a function term is smaller than the result. -/
theorem sizeOf_lt_of_mem_vars (hx : x ∈ (app f ts).vars) : sizeOf (θ x) < sizeOf ((app f ts).subst θ) := by
  have harg : ∀ {f ts} {t : Term Symbol}, t ∈ ts → sizeOf (t.subst θ) < sizeOf ((app f ts).subst θ) := by
    intro f ts t ht
    have hlt := List.sizeOf_lt_of_mem (List.mem_map_of_mem (f := subst θ) ht)
    rw [subst_app, app.sizeOf_spec]
    omega
  have hle : ∀ {t : Term Symbol}, x ∈ t.vars → sizeOf (θ x) ≤ sizeOf (t.subst θ) := by
    intro t hx
    induction t with
    | const c => cases hx
    | var y => rw [List.mem_singleton.1 hx, subst_var]
    | app g us ih =>
      rw [vars_app] at hx
      obtain ⟨u, hu, hxu⟩ := List.mem_flatMap.1 hx
      exact (ih u hu hxu).trans (Nat.le_of_lt (harg hu))
  rw [vars_app] at hx
  obtain ⟨t, ht, hxt⟩ := List.mem_flatMap.1 hx
  exact Nat.lt_of_le_of_lt (hle hxt) (harg ht)

/-- A function term that holds a variable grows when it takes the place of the variable in itself. -/
theorem subst_single_self_ne (hx : x ∈ (app f ts).vars) : (app f ts).subst (single x (app f ts)) ≠ app f ts := by
  intro heq
  have hlt := sizeOf_lt_of_mem_vars (θ := single x (app f ts)) hx
  rw [heq, single, if_pos rfl] at hlt
  exact Nat.lt_irrefl _ hlt

/-- What it takes for two terms to be equal, where a variable may be bound to a term that holds it. -/
def demand (s t : Term Symbol) : Comparison :=
  if s = t then .same
  else
    match s, t with
    | .var x, t => .bind x t
    | s, .var x => .bind x s
    | .app f _, .app g _ => .unsupported f g
    | .const _, .const _ | .const _, .app _ _ | .app _ _, .const _ => .clash

theorem eq_of_demand_eq_bind (h : s.demand t = .bind x u) : (s = .var x ∧ t = u) ∨ (s = u ∧ t = .var x) := by
  rw [demand.eq_def] at h
  split_ifs at h
  cases s with
  | var y =>
    obtain ⟨rfl, rfl⟩ := Comparison.bind.inj h
    exact .inl ⟨rfl, rfl⟩
  | const c =>
    cases t with
    | var y =>
      obtain ⟨rfl, rfl⟩ := Comparison.bind.inj h
      exact .inr ⟨rfl, rfl⟩
    | const d => cases h
    | app g us => cases h
  | app g us =>
    cases t with
    | var y =>
      obtain ⟨rfl, rfl⟩ := Comparison.bind.inj h
      exact .inr ⟨rfl, rfl⟩
    | const d => cases h
    | app g' us' => cases h

theorem ne_of_demand_eq_clash (h : s.demand t = .clash) (θ : Symbol → Term Symbol) : s.subst θ ≠ t.subst θ := by
  rw [demand.eq_def] at h
  split_ifs at h with hne
  cases s with
  | var y => cases h
  | const c =>
    cases t with
    | var y => cases h
    | const d => simpa using hne
    | app g us => simp
  | app g us =>
    cases t with
    | var y => cases h
    | const d => simp
    | app g' us' => cases h

/-- A variable is compared with a term as its equality demands, unless it would be bound to a function term that
holds it. -/
theorem bindTo_cases (x : Symbol) (t : Term Symbol) : bindTo x t = .bind x t ∨
    ∃ f ts, t = .app f ts ∧ x ∈ t.vars ∧ bindTo x t = .unsupported f f := by
  cases t with
  | const c => exact .inl rfl
  | var y => exact .inl rfl
  | app f ts =>
    rw [bindTo]
    split_ifs with hx
    · exact .inr ⟨f, ts, rfl, hx, rfl⟩
    · exact .inl rfl

/-- Two terms are compared as their equality demands, unless a variable would be bound to a function term that
holds it. -/
theorem compare_cases (s t : Term Symbol) : s.compare t = s.demand t ∨ ∃ x f ts,
    x ∈ (app f ts).vars ∧ s.demand t = .bind x (.app f ts) ∧ s.compare t = .unsupported f f := by
  rw [compare.eq_def, demand.eq_def]
  split_ifs
  · exact .inl rfl
  · have hbind : ∀ x t, bindTo x t = .bind x t ∨ ∃ x' f ts,
        x' ∈ (app f ts).vars ∧ Comparison.bind x t = .bind x' (.app f ts) ∧ bindTo x t = .unsupported f f := by
      intro x t
      rcases bindTo_cases x t with heq | ⟨f, ts, rfl, hx, heq⟩
      · exact .inl heq
      · exact .inr ⟨x, f, ts, hx, rfl, heq⟩
    cases s with
    | var x => exact hbind x t
    | const c =>
      cases t with
      | var x => exact hbind x _
      | const d => exact .inl rfl
      | app g us => exact .inl rfl
    | app f ts =>
      cases t with
      | var x => exact hbind x _
      | const d => exact .inl rfl
      | app g us => exact .inl rfl

theorem demand_of_compare_eq_bind (h : s.compare t = .bind x u) : s.demand t = .bind x u := by
  rcases compare_cases s t with heq | ⟨x', f, ts, -, -, heq⟩
  · rw [← heq, h]
  · rw [h] at heq
    cases heq

theorem demand_of_compare_eq_clash (h : s.compare t = .clash) : s.demand t = .clash := by
  rcases compare_cases s t with heq | ⟨x', f, ts, -, -, heq⟩
  · rw [← heq, h]
  · rw [h] at heq
    cases heq

/-- Replacing a variable by what it equals changes nothing. -/
theorem andThen_single (h : θ x = u.subst θ) : andThen (single x u) θ = θ := by
  funext y
  rw [andThen, single]
  split_ifs with hy
  · rw [hy, h]
  · rfl

theorem andThen_assoc (σ τ θ : Symbol → Term Symbol) : andThen (andThen σ τ) θ = andThen σ (andThen τ θ) :=
  funext fun y => subst_subst (σ y)

/-- A substitution under which two terms are equal replaces the variable that they bind as their comparison says. -/
theorem andThen_of_compare {σ : Symbol → Term Symbol} (h : s.compare t = .bind x u)
    (hsides : s.subst θ = t.subst θ) (hσ : andThen σ θ = θ) : andThen (andThen σ (single x u)) θ = θ := by
  have hx : θ x = u.subst θ := by
    rcases eq_of_demand_eq_bind (demand_of_compare_eq_bind h) with ⟨rfl, rfl⟩ | ⟨rfl, rfl⟩
    · exact hsides
    · exact hsides.symm
  rw [andThen_assoc, andThen_single hx, hσ]

end Term

/-! ## Rounds -/

theorem Formula.equality?_subst {φ : Formula Symbol} {s t : Term Symbol} (h : φ.equality? = some (s, t))
    (σ : Symbol → Term Symbol) : (φ.subst σ).equality? = some (s.subst σ, t.subst σ) := by
  obtain rfl := equality?_eq_some.1 h
  rfl

namespace Clause

/-- One round of solving the equalities of a rule: the first of them is dropped, or a variable that it binds is
replaced in the whole rule.  There may be nothing left to do, and then there is an answer. -/
def round (c : Clause Symbol) : Clause Symbol ⊕ Except CompileError (Option (Clause Symbol)) :=
  match c.body.findSome? Formula.equality? with
  | none => .inr (.ok (some c))
  | some (s, t) =>
    match s.demand t with
    | .same => .inl ⟨c.head, c.body.eraseP fun φ => φ.equality?.isSome⟩
    | .bind x u => .inl (c.subst (Term.single x u))
    | .clash => .inr (.ok none)
    | .unsupported f g => .inr (.error (.unsupportedEquality f g))

/-- The rounds of solving the rule end, with this answer. -/
inductive EndsWith : Clause Symbol → Except CompileError (Option (Clause Symbol)) → Prop where
  | answer {c : Clause Symbol} {r} (h : c.round = .inr r) : EndsWith c r
  | next {c c' : Clause Symbol} {r} (h : c.round = .inl c') (rest : EndsWith c' r) : EndsWith c r

variable {head : Atom Symbol} {pre post : List (Formula Symbol)} {φ : Formula Symbol} {s t u : Term Symbol}
  {σ τ θ : Symbol → Term Symbol} {x f g : Symbol}

theorem findSome?_equality? (hpre : ∀ φ ∈ pre, φ.equality? = none) (hφ : φ.equality? = some (s, t)) :
    (pre ++ φ :: post).findSome? Formula.equality? = some (s, t) := by
  rw [List.findSome?_append, List.findSome?_eq_none_iff.2 hpre, Option.none_or, List.findSome?_cons_of_isSome]
  · exact hφ
  · rw [hφ, Option.isSome_some]

theorem round_same (hpre : ∀ φ ∈ pre, φ.equality? = none) (hφ : φ.equality? = some (s, s)) :
    round ⟨head, pre ++ φ :: post⟩ = .inl ⟨head, pre ++ post⟩ := by
  have hself : s.demand s = .same := by rw [Term.demand.eq_def, if_pos rfl]
  rw [round, findSome?_equality? hpre hφ]
  simp only [hself]
  rw [List.eraseP_append_right, List.eraseP_cons_of_pos]
  · rw [hφ, Option.isSome_some]
  · intro ψ hψ
    rw [hpre ψ hψ, Option.isSome_none]
    exact Bool.false_ne_true

theorem round_bind (hpre : ∀ φ ∈ pre, φ.equality? = none) (hφ : φ.equality? = some (s, t))
    (h : s.demand t = .bind x u) :
    round ⟨head, pre ++ φ :: post⟩ = .inl (subst (Term.single x u) ⟨head, pre ++ φ :: post⟩) := by
  rw [round, findSome?_equality? hpre hφ]
  simp only [h]

theorem round_clash (hpre : ∀ φ ∈ pre, φ.equality? = none) (hφ : φ.equality? = some (s, t))
    (h : s.demand t = .clash) : round ⟨head, pre ++ φ :: post⟩ = .inr (.ok none) := by
  rw [round, findSome?_equality? hpre hφ]
  simp only [h]

theorem round_unsupported (hpre : ∀ φ ∈ pre, φ.equality? = none) (hφ : φ.equality? = some (s, t))
    (h : s.demand t = .unsupported f g) :
    round ⟨head, pre ++ φ :: post⟩ = .inr (.error (.unsupportedEquality f g)) := by
  rw [round, findSome?_equality? hpre hφ]
  simp only [h]

theorem subst_append (σ : Symbol → Term Symbol) (head : Atom Symbol) (pre post : List (Formula Symbol)) :
    subst σ ⟨head, pre ++ post⟩ =
      ⟨head.subst σ, pre.map (Formula.subst σ) ++ post.map (Formula.subst σ)⟩ := by
  rw [subst, List.map_append]

theorem subst_var_id (c : Clause Symbol) : c.subst .var = c := by
  have hrule := Formula.subst_var_id c.toFormula
  rw [toFormula, Formula.subst_rule] at hrule
  obtain ⟨hhead, hbody⟩ := Formula.rule.inj hrule
  rw [subst, hhead, hbody]

theorem subst_subst (σ τ : Symbol → Term Symbol) (c : Clause Symbol) :
    (c.subst σ).subst τ = c.subst (Term.andThen σ τ) := by
  rw [subst, subst, subst, Atom.subst_subst, List.map_map]
  exact congrArg (Clause.mk _) (List.map_congr_left fun φ _ => φ.subst_subst)

theorem equality?_map_subst (hpre : ∀ φ ∈ pre, φ.equality? = none) :
    ∀ φ ∈ pre.map (Formula.subst σ), φ.equality? = none := by
  intro φ hφ
  obtain ⟨ψ, hψ, rfl⟩ := List.mem_map.1 hφ
  exact Formula.equality?_subst_eq_none.2 (hpre ψ hψ)

/-- A variable is replaced in the rule, and then the two sides of the equality are the same term. -/
theorem endsWith_bind {r : Except CompileError (Option (Clause Symbol))} (hpre : ∀ φ ∈ pre, φ.equality? = none)
    (hφ : φ.equality? = some (s, t)) (h : s.compare t = .bind x u)
    (rest : EndsWith (subst (Term.single x u) ⟨head, pre ++ post⟩) r) : EndsWith ⟨head, pre ++ φ :: post⟩ r := by
  refine .next (round_bind hpre hφ (Term.demand_of_compare_eq_bind h)) ?_
  have hsame := Formula.equality?_subst hφ (Term.single x u)
  rw [Term.subst_single_of_compare h] at hsame
  rw [subst_append] at rest ⊢
  exact .next (round_same (equality?_map_subst hpre) hsame) rest

/-- A variable and a function term that holds it are two function terms after a round. -/
theorem endsWith_unsupported (hpre : ∀ φ ∈ pre, φ.equality? = none) (hφ : φ.equality? = some (s, t))
    (h : s.compare t = .unsupported f g) :
    EndsWith ⟨head, pre ++ φ :: post⟩ (.error (.unsupportedEquality f g)) := by
  rcases Term.compare_cases s t with hcompare | ⟨x, k, ts, hx, hdemand, hcompare⟩
  · exact .answer (round_unsupported hpre hφ (hcompare.symm.trans h))
  · obtain ⟨rfl, rfl⟩ : k = f ∧ k = g := Comparison.unsupported.inj (hcompare.symm.trans h)
    refine .next (round_bind hpre hφ hdemand) ?_
    rw [subst_append]
    refine .answer (round_unsupported (equality?_map_subst hpre) (Formula.equality?_subst hφ _) ?_)
    have hvar : (Term.var x).subst (Term.single x (.app k ts)) = .app k ts := if_pos rfl
    have hne := Term.subst_single_self_ne hx
    rcases Term.eq_of_demand_eq_bind hdemand with ⟨rfl, rfl⟩ | ⟨rfl, rfl⟩
    · rw [hvar, Term.demand.eq_def, if_neg (Ne.symm hne), Term.subst_app]
    · rw [hvar, Term.demand.eq_def, if_neg hne, Term.subst_app]

/-- Rounds go on from the substitution that was collected so far. -/
theorem endsWith_solveEqualities (hpre : ∀ φ ∈ pre, φ.equality? = none) : EndsWith (subst σ ⟨head, pre ++ post⟩)
    ((fun τ? => τ?.map fun τ => subst τ ⟨head, pre ++ post.filter fun φ => φ.equality?.isNone⟩) <$>
      solveEqualities σ post) := by
  induction post generalizing σ pre with
  | nil =>
    refine .answer ?_
    have hnone : (pre.map (Formula.subst σ)).findSome? Formula.equality? = none :=
      List.findSome?_eq_none_iff.2 (equality?_map_subst hpre)
    rw [round, List.append_nil, subst, hnone, solveEqualities, List.filter_nil, List.append_nil]
    rfl
  | cons φ post ih =>
    rw [solveEqualities]
    cases hφ : φ.equality? with
    | none =>
      -- the condition stays, and stands in front of all equalities from now on
      have hpre' : ∀ ψ ∈ pre ++ [φ], ψ.equality? = none := by
        intro ψ hψ
        rcases List.mem_append.1 hψ with hold | hnew
        · exact hpre ψ hold
        · rw [List.mem_singleton.1 hnew, hφ]
      have hrest := ih (σ := σ) hpre'
      rw [List.filter_cons_of_pos (by rw [hφ]; rfl)]
      rwa [List.append_assoc, List.append_assoc] at hrest
    | some p =>
      obtain ⟨s, t⟩ := p
      have hpre' := equality?_map_subst (σ := σ) hpre
      have hφ' := Formula.equality?_subst hφ σ
      rw [List.filter_cons_of_neg (by rw [hφ]; exact Bool.false_ne_true), subst_append]
      cases hcompare : (s.subst σ).compare (t.subst σ) with
      | same =>
        simp only [hcompare]
        rw [Term.eq_of_compare_eq_same hcompare] at hφ'
        have hrest := ih (σ := σ) hpre
        rw [subst_append] at hrest
        exact .next (round_same hpre' hφ') hrest
      | bind x u =>
        simp only [hcompare]
        have hrest := ih (σ := Term.andThen σ (Term.single x u)) hpre
        rw [← subst_subst, subst_append] at hrest
        exact endsWith_bind hpre' hφ' hcompare hrest
      | clash =>
        simp only [hcompare]
        exact .answer (round_clash hpre' hφ' (Term.demand_of_compare_eq_clash hcompare))
      | unsupported f g =>
        simp only [hcompare]
        exact endsWith_unsupported hpre' hφ' hcompare

/-- Rounds come to an end, whatever the rule, and to the answer of solving it at once. -/
theorem endsWith_solve (c : Clause Symbol) : c.EndsWith c.solve := by
  have hrounds : (subst .var ⟨c.head, [] ++ c.body⟩).EndsWith _ := endsWith_solveEqualities (by simp)
  rw [List.nil_append, subst_var_id] at hrounds
  rw [solve]
  cases hsolve : solveEqualities .var c.body with
  | error e => rwa [hsolve] at hrounds
  | ok τ? =>
    rw [hsolve] at hrounds
    cases τ? with
    | none => exact hrounds
    | some τ => exact hrounds

end Clause

/-! ## The most general solution -/

/-- The substitution makes the two sides of every equality among the conditions the same term. -/
def Equates (θ : Symbol → Term Symbol) (body : List (Formula Symbol)) : Prop :=
  ∀ s t, .neg (.atom ⟨Keyword.distinct, [s, t]⟩) ∈ body → s.subst θ = t.subst θ

section Solution

variable {σ τ θ : Symbol → Term Symbol} {φ : Formula Symbol} {body : List (Formula Symbol)} {s t u : Term Symbol}
  {x : Symbol} {c c' : Clause Symbol} {V : Set (Term Symbol)}

theorem Equates.tail (h : Equates θ (φ :: body)) : Equates θ body :=
  fun s t hst => h s t (List.mem_cons_of_mem _ hst)

/-- The sides of the first equality are the same term also where variables were replaced before, if that makes no
difference to the substitution. -/
theorem Equates.first (h : Equates θ (φ :: body)) (hφ : φ.equality? = some (s, t)) (hσ : Term.andThen σ θ = θ) :
    (s.subst σ).subst θ = (t.subst σ).subst θ := by
  rw [Term.subst_subst, Term.subst_subst, hσ]
  exact h s t (Formula.equality?_eq_some.1 hφ ▸ List.mem_cons_self)

/-- Whatever makes the sides of every equality the same term is an instance of the solution. -/
theorem andThen_of_solveEqualities (h : solveEqualities σ body = .ok (some τ)) (hσ : Term.andThen σ θ = θ)
    (hθ : Equates θ body) : Term.andThen τ θ = θ := by
  induction body generalizing σ with
  | nil =>
    obtain rfl : σ = τ := by simpa [solveEqualities] using h
    exact hσ
  | cons φ body ih =>
    rw [solveEqualities] at h
    cases hφ : φ.equality? with
    | none =>
      simp only [hφ] at h
      exact ih h hσ hθ.tail
    | some p =>
      obtain ⟨s, t⟩ := p
      simp only [hφ] at h
      cases hcompare : (s.subst σ).compare (t.subst σ) with
      | same =>
        simp only [hcompare] at h
        exact ih h hσ hθ.tail
      | clash => simp [hcompare] at h
      | unsupported f g => simp [hcompare] at h
      | bind x u =>
        simp only [hcompare] at h
        exact ih h (Term.andThen_of_compare hcompare (hθ.first hφ hσ) hσ) hθ.tail

/-- Where there is no solution, nothing makes the sides of every equality the same term. -/
theorem not_equates_of_solveEqualities (h : solveEqualities σ body = .ok none) (hσ : Term.andThen σ θ = θ) :
    ¬ Equates θ body := by
  intro hθ
  induction body generalizing σ with
  | nil => simp [solveEqualities] at h
  | cons φ body ih =>
    rw [solveEqualities] at h
    cases hφ : φ.equality? with
    | none =>
      simp only [hφ] at h
      exact ih h hσ hθ.tail
    | some p =>
      obtain ⟨s, t⟩ := p
      simp only [hφ] at h
      have hsides := hθ.first hφ hσ
      cases hcompare : (s.subst σ).compare (t.subst σ) with
      | same =>
        simp only [hcompare] at h
        exact ih h hσ hθ.tail
      | clash => exact Term.ne_of_demand_eq_clash (Term.demand_of_compare_eq_clash hcompare) θ hsides
      | unsupported f g => simp [hcompare] at h
      | bind x u =>
        simp only [hcompare] at h
        exact ih h (Term.andThen_of_compare hcompare hsides hσ) hθ.tail

end Solution

/-! ## Ground instances -/

/-- The ground terms. -/
def groundTerms : Set (Term Symbol) := {t | t.isGround = true}

/-- The ground terms whose functions have arguments. -/
def plainTerms : Set (Term Symbol) := {t | t.isGround = true ∧ t.collapse = t}

/-- The term is in `V` when its variables are replaced by members of `V`. -/
def Term.StaysIn (V : Set (Term Symbol)) (t : Term Symbol) : Prop :=
  ∀ θ : Symbol → Term Symbol, (∀ x ∈ t.vars, θ x ∈ V) → t.subst θ ∈ V

section GroundInstances

variable {τ θ : Symbol → Term Symbol} {body : List (Formula Symbol)} {t : Term Symbol} {c c' : Clause Symbol}
  {V : Set (Term Symbol)}

theorem Term.staysIn_groundTerms (t : Term Symbol) : t.StaysIn groundTerms := by
  intro θ hθ
  rw [groundTerms, Set.mem_ofPred_eq, isGround, vars_subst, List.isEmpty_iff, List.flatMap_eq_nil_iff]
  exact fun x hx => List.isEmpty_iff.1 (hθ x hx)

theorem Term.staysIn_plainTerms (ht : t.collapse = t) : t.StaysIn plainTerms := by
  intro θ hθ
  refine ⟨t.staysIn_groundTerms θ fun x hx => (hθ x hx).1, ?_⟩
  rw [collapse_subst, ht]
  exact subst_congr fun x hx => (hθ x hx).2

/-- The solution and then terms of `V` give terms of `V`. -/
theorem andThen_mem_of_solveEqualities (h : solveEqualities .var body = .ok (some τ))
    (hV : ∀ s t, .neg (.atom ⟨Keyword.distinct, [s, t]⟩) ∈ body → s.StaysIn V ∧ t.StaysIn V)
    (hθ : ∀ x, θ x ∈ V) (x : Symbol) : Term.andThen τ θ x ∈ V := by
  have hvar : ∀ y, (Term.var y).StaysIn V := fun y θ hθ => hθ y (List.mem_singleton_self y)
  refine solveEqualities_induction (Term.StaysIn V) ?_ (fun _ _ => hvar _) ?_ (fun _ => id) h x (hvar x) θ
    fun y _ => hθ y
  · intro t τ ht hτ θ hθ
    rw [Term.subst_subst]
    refine ht _ fun y hy => hτ y hy θ fun z hz => hθ z ?_
    rw [Term.vars_subst]
    exact List.mem_flatMap.2 ⟨y, hy, hz⟩
  · intro φ hφ s t hequality
    exact hV s t (Formula.equality?_eq_some.1 hequality ▸ hφ)

theorem Clause.solve_eq_some (h : c.solve = .ok (some c')) : ∃ τ, solveEqualities .var c.body = .ok (some τ) ∧
    c' = Clause.subst τ ⟨c.head, c.body.filter fun φ => φ.equality?.isNone⟩ := by
  rw [solve] at h
  split at h
  · cases h
  · cases h
  · rename_i τ hτ
    exact ⟨τ, hτ, (Option.some.inj (Except.ok.inj h)).symm⟩

theorem Clause.solve_eq_none (h : c.solve = .ok none) : solveEqualities .var c.body = .ok none := by
  rw [solve] at h
  split at h
  · cases h
  · assumption
  · cases h

/-- The instances of a solved rule are those of the rule for which its equalities hold. -/
theorem Clause.instances_of_solve (h : c.solve = .ok (some c'))
    (hV : ∀ s t, .neg (.atom ⟨Keyword.distinct, [s, t]⟩) ∈ c.body → s.StaysIn V ∧ t.StaysIn V) :
    {p | ∃ θ : Symbol → Term Symbol, (∀ x, θ x ∈ V) ∧ Equates θ c.body ∧
        p = (c.head.subst θ, (c.body.filter fun φ => φ.equality?.isNone).map (Formula.subst θ))} =
      {p | ∃ θ : Symbol → Term Symbol, (∀ x, θ x ∈ V) ∧ p = (c'.head.subst θ, c'.body.map (Formula.subst θ))} := by
  obtain ⟨τ, hτ, rfl⟩ := solve_eq_some h
  have hpair : ∀ θ, ((Clause.subst τ ⟨c.head, c.body.filter fun φ => φ.equality?.isNone⟩).head.subst θ,
      (Clause.subst τ ⟨c.head, c.body.filter fun φ => φ.equality?.isNone⟩).body.map (Formula.subst θ)) =
        (c.head.subst (Term.andThen τ θ),
          (c.body.filter fun φ => φ.equality?.isNone).map (Formula.subst (Term.andThen τ θ))) := by
    intro θ
    obtain ⟨hhead, hbody⟩ := Clause.mk.inj (subst_subst τ θ ⟨c.head, c.body.filter fun φ => φ.equality?.isNone⟩)
    exact Prod.ext hhead hbody
  ext p
  constructor
  · rintro ⟨θ, hθ, hequates, rfl⟩
    refine ⟨θ, hθ, ?_⟩
    rw [hpair, andThen_of_solveEqualities hτ rfl hequates]
  · rintro ⟨θ, hθ, rfl⟩
    refine ⟨_, andThen_mem_of_solveEqualities hτ hV hθ, fun s t hst => ?_, hpair θ⟩
    rw [← Term.subst_subst, ← Term.subst_subst, (solves_of_solveEqualities hτ).2 _ hst s t rfl]

theorem Clause.not_mem_of_solve (h : c.solve = .ok (some c')) (s t : Term Symbol) :
    .neg (.atom ⟨Keyword.distinct, [s, t]⟩) ∉ c'.body := by
  obtain ⟨τ, -, rfl⟩ := solve_eq_some h
  intro hmem
  obtain ⟨ψ, hψ, heq⟩ := List.mem_map.1 hmem
  have hnone := Formula.isNone_equality?_subst (σ := τ) ψ
  rw [heq, (List.mem_filter.1 hψ).2] at hnone
  cases hnone

/-- If the conditions are literals, so that `distinct` compares two terms, no negation of it is left. -/
theorem Clause.not_mem_of_solve_literals (h : c.solve = .ok (some c')) (hc : ∀ φ ∈ c.body, φ.isLiteral = true)
    (args : List (Term Symbol)) : .neg (.atom ⟨Keyword.distinct, args⟩) ∉ c'.body := by
  intro hmem
  have hliteral : ∀ φ ∈ c'.body, φ.isLiteral = true := by
    obtain ⟨τ, -, rfl⟩ := solve_eq_some h
    intro φ hφ
    obtain ⟨ψ, hψ, rfl⟩ := List.mem_map.1 hφ
    rw [Formula.isLiteral_subst]
    exact hc ψ (List.mem_filter.1 hψ).1
  have hcomparable : Atom.isComparable ⟨Keyword.distinct, args⟩ = true := hliteral _ hmem
  obtain ⟨s, t, rfl⟩ := List.length_eq_two.1 (by simpa [Atom.isComparable, Atom.arity] using hcomparable)
  exact not_mem_of_solve h s t hmem

/-- The sides of equalities have functions with arguments only, if the rule has. -/
theorem Clause.collapse_sides (hc : c.toFormula.collapse = c.toFormula) {s t : Term Symbol}
    (hst : .neg (.atom ⟨Keyword.distinct, [s, t]⟩) ∈ c.body) : s.collapse = s ∧ t.collapse = t := by
  rw [toFormula, Formula.collapse_rule] at hc
  obtain ⟨-, hbody⟩ := Formula.rule.inj hc
  have hφ := List.map_inj_left.1 (hbody.trans (List.map_id _).symm) _ hst
  simpa [Atom.collapse] using hφ

/-- Solving the equalities of a rule ends, and says of the ground terms just what the rule says: either no ground
terms make the sides of every equality equal, or the equalities are gone and the instances of the solved rule
are those of the other conditions and the head for which the equalities hold.  So it is if functions without
arguments are left out. -/
theorem Clause.solve_exact (hc : c.toFormula.collapse = c.toFormula) :
    c.EndsWith c.solve ∧ ∀ V, V = groundTerms ∨ V = plainTerms →
      (c.solve = .ok none → ∀ θ : Symbol → Term Symbol, (∀ x, θ x ∈ V) → ¬ Equates θ c.body) ∧
      ∀ c', c.solve = .ok (some c') →
        (∀ s t, .neg (.atom ⟨Keyword.distinct, [s, t]⟩) ∉ c'.body) ∧
        ((∀ φ ∈ c.body, φ.isLiteral = true) → ∀ args, .neg (.atom ⟨Keyword.distinct, args⟩) ∉ c'.body) ∧
        {p | ∃ θ : Symbol → Term Symbol, (∀ x, θ x ∈ V) ∧ Equates θ c.body ∧
            p = (c.head.subst θ, (c.body.filter fun φ => φ.equality?.isNone).map (Formula.subst θ))} =
          {p | ∃ θ : Symbol → Term Symbol, (∀ x, θ x ∈ V) ∧
            p = (c'.head.subst θ, c'.body.map (Formula.subst θ))} := by
  refine ⟨c.endsWith_solve, fun V hV => ⟨fun h θ _ => ?_, fun c' h =>
    ⟨c.not_mem_of_solve h, c.not_mem_of_solve_literals h, ?_⟩⟩⟩
  · exact not_equates_of_solveEqualities (solve_eq_none h) rfl
  · refine instances_of_solve h fun s t hst => ?_
    rcases hV with rfl | rfl
    · exact ⟨s.staysIn_groundTerms, t.staysIn_groundTerms⟩
    · obtain ⟨hs, ht⟩ := collapse_sides hc hst
      exact ⟨Term.staysIn_plainTerms hs, Term.staysIn_plainTerms ht⟩

end GroundInstances

/-- A rule with a chain of equalities, of which the first binds a variable to a function term, and the later ones
concern that term. -/
def chain : Clause Symbol :=
  let p (r s t : Term Symbol) : Atom Symbol := ⟨⟨14⟩, [r, s, t]⟩
  let q (t : Term Symbol) : Formula Symbol := .atom ⟨⟨15⟩, [t]⟩
  let r (s t : Term Symbol) : Formula Symbol := .atom ⟨⟨16⟩, [s, t]⟩
  let f (t : Term Symbol) : Term Symbol := .app ⟨17⟩ [t]
  let a : Term Symbol := .const ⟨18⟩
  let x : Term Symbol := .var ⟨19⟩
  let y : Term Symbol := .var ⟨20⟩
  let z : Term Symbol := .var ⟨21⟩
  let equal (s t : Term Symbol) : Formula Symbol := .neg (.atom ⟨Keyword.distinct, [s, t]⟩)
  ⟨p x y z, [equal x (f y), q x, equal z x, equal y a, r z y]⟩

/-- The chain with its equalities solved. -/
def solvedChain : Clause Symbol :=
  let p (r s t : Term Symbol) : Atom Symbol := ⟨⟨14⟩, [r, s, t]⟩
  let q (t : Term Symbol) : Formula Symbol := .atom ⟨⟨15⟩, [t]⟩
  let r (s t : Term Symbol) : Formula Symbol := .atom ⟨⟨16⟩, [s, t]⟩
  let a : Term Symbol := .const ⟨18⟩
  let fa : Term Symbol := .app ⟨17⟩ [a]
  ⟨p fa a fa, [q fa, r fa a]⟩

theorem Clause.solve_exact_chain : chain.toFormula.collapse = chain.toFormula ∧
    chain.EndsWith (.ok (some solvedChain)) ∧
    {p | ∃ θ : Symbol → Term Symbol, (∀ x, θ x ∈ plainTerms) ∧ Equates θ chain.body ∧
        p = (chain.head.subst θ, (chain.body.filter fun φ => φ.equality?.isNone).map (Formula.subst θ))} =
      {p | ∃ θ : Symbol → Term Symbol, (∀ x, θ x ∈ plainTerms) ∧
        p = (solvedChain.head.subst θ, solvedChain.body.map (Formula.subst θ))} := by
  have hcollapse : chain.toFormula.collapse = chain.toFormula := by decide
  have hsolve : chain.solve = .ok (some solvedChain) := eq_ok_of_toOption (by decide)
  obtain ⟨hends, hexact⟩ := solve_exact hcollapse
  exact ⟨hcollapse, hsolve ▸ hends, ((hexact plainTerms (.inr rfl)).2 _ hsolve).2.2⟩

end GameCircuit
