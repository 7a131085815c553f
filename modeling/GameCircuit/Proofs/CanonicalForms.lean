import GameCircuit.Proofs.Idempotence
import GameCircuit.Proofs.RuleInstances

/-!
# Normal forms are canonical

`Formula.IsCanonical` says what grounding expects of a formula.  Most of it every pass leaves behind
(`Formula.Tidy`), but not that a rule has conditions: solving equalities may take away the last of them, and
only the next pass makes a fact of what is left.  In a normal form no such rule is left, since the last pass
changed nothing.
-/

namespace GameCircuit

namespace Formula

/-- An atom or a negated atom. -/
def IsSimple (φ : Formula Symbol) : Prop := ∃ a, φ = .atom a ∨ φ = .neg (.atom a)

/-- What grounding expects of a formula. -/
structure IsCanonical (φ : Formula Symbol) : Prop where
  /-- It is a fact, or a rule with conditions. -/
  shape : (∃ a, φ = .atom a) ∨ ∃ head body, φ = .rule head body ∧ body ≠ []
  /-- The conditions are atoms, negated atoms and disjunctions of these. -/
  literal : ∀ ψ ∈ φ.body, ψ.IsSimple ∨ ∃ alternatives, ψ = .disj alternatives ∧ ∀ χ ∈ alternatives, χ.IsSimple
  /-- In the conditions `distinct` compares two terms. -/
  comparison : ∀ ψ ∈ φ.body, ∀ a ∈ ψ.atoms, a.relation = Keyword.distinct → a.arity = 2
  /-- No condition says that terms are equal. -/
  solved : ∀ args, .neg (.atom ⟨Keyword.distinct, args⟩) ∉ φ.body
  /-- Functions have arguments, wherever they stand. -/
  applied : ∀ a ∈ φ.atoms, ∀ path f, ¬ a.HasAt path (.app f [])
  /-- A relation about states has an argument. -/
  proper : ∀ a ∈ φ.atoms, a.relation ∈ [Keyword.holds, Keyword.next, Keyword.init, Keyword.base] → a.args ≠ []

variable {φ ψ : Formula Symbol} {a : Atom Symbol}

theorem isSimple_of_isSimpleLiteral (h : φ.isSimpleLiteral = true) : φ.IsSimple := by
  unfold isSimpleLiteral at h
  split at h
  · exact ⟨_, .inl rfl⟩
  · exact ⟨_, .inr rfl⟩
  · cases h

theorem isComparable_of_isSimpleLiteral (h : φ.isSimpleLiteral = true) (ha : a ∈ φ.atoms) :
    a.isComparable = true := by
  obtain ⟨b, rfl | rfl⟩ := isSimple_of_isSimpleLiteral h
  · rwa [List.mem_singleton.1 ha]
  · rwa [List.mem_singleton.1 ha]

theorem isSimple_or_of_isLiteral (h : φ.isLiteral = true) :
    φ.IsSimple ∨ ∃ alternatives, φ = .disj alternatives ∧ ∀ χ ∈ alternatives, χ.IsSimple := by
  cases φ with
  | disj alternatives =>
    rw [isLiteral, List.all_eq_true] at h
    exact .inr ⟨alternatives, rfl, fun χ hχ => isSimple_of_isSimpleLiteral (h χ hχ)⟩
  | atom a => exact .inl (isSimple_of_isSimpleLiteral h)
  | neg ψ => exact .inl (isSimple_of_isSimpleLiteral h)
  | rule head body => cases h

theorem isComparable_of_isLiteral (h : φ.isLiteral = true) (ha : a ∈ φ.atoms) : a.isComparable = true := by
  cases φ with
  | disj alternatives =>
    rw [isLiteral, List.all_eq_true] at h
    rw [atoms_disj] at ha
    obtain ⟨χ, hχ, haχ⟩ := List.mem_flatMap.1 ha
    exact isComparable_of_isSimpleLiteral (h χ hχ) haχ
  | atom b => exact isComparable_of_isSimpleLiteral (φ := .atom b) h ha
  | neg ψ => exact isComparable_of_isSimpleLiteral (φ := .neg ψ) h ha
  | rule head body => cases h

theorem Tidy.isLiteral (h : φ.Tidy) (hψ : ψ ∈ φ.body) : ψ.isLiteral = true := by
  cases φ with
  | rule head body => exact List.all_eq_true.1 h.supported ψ hψ
  | atom a => cases hψ
  | neg χ => cases hψ
  | disj φs => cases hψ

theorem Tidy.arity_eq_two (h : φ.Tidy) (hψ : ψ ∈ φ.body) (ha : a ∈ ψ.atoms)
    (hdistinct : a.relation = Keyword.distinct) : a.arity = 2 := by
  have hcomparable := isComparable_of_isLiteral (h.isLiteral hψ) ha
  simpa [Atom.isComparable, hdistinct] using hcomparable

/-- A tidy formula that is no rule without conditions is canonical. -/
theorem Tidy.isCanonical (h : φ.Tidy) (hrule : φ.unconditional = φ) : φ.IsCanonical where
  shape := by
    cases φ with
    | atom a => exact .inl ⟨a, rfl⟩
    | rule head body =>
      refine .inr ⟨head, body, rfl, ?_⟩
      rintro rfl
      cases hrule
    | neg ψ => cases h.supported
    | disj φs => cases h.supported
  literal ψ hψ := isSimple_or_of_isLiteral (h.isLiteral hψ)
  comparison ψ hψ a ha := h.arity_eq_two hψ ha
  solved args hmem := by
    obtain ⟨s, t, rfl⟩ := List.length_eq_two.1 (h.arity_eq_two hmem (List.mem_singleton_self _) rfl)
    have hnone := h.solved _ hmem
    rw [equality?_eq_some.2 rfl] at hnone
    cases hnone
  applied a ha path f hat := Term.args_ne_nil_of_collapse (hat.collapse_eq (h.collapsed a ha)) rfl
  proper a ha hstate hargs := by
    have hproper := h.proper a ha
    rw [Atom.isDegenerate, hargs, List.isEmpty_nil, Bool.true_and] at hproper
    simp only [List.mem_cons, List.not_mem_nil, or_false] at hstate
    rcases hstate with hrel | hrel | hrel | hrel
    all_goals
      rw [hrel] at hproper
      cases hproper

theorem unconditional_subst (σ : Symbol → Term Symbol) (φ : Formula Symbol) :
    (φ.subst σ).unconditional = φ.unconditional.subst σ := by
  cases φ with
  | rule head body =>
    cases body with
    | nil => simp [unconditional]
    | cons ψ body => simp [unconditional]
  | atom a => rfl
  | neg ψ => rfl
  | disj φs => simp [unconditional]

end Formula

variable {φs F N : List (Formula Symbol)} {φ : Formula Symbol} {k l l' : Lexicon} {depth? : Option Nat}

/-- What a pass left as it was is tidy, and holds no rule without conditions. -/
theorem tidy_and_unconditional_of_fixed (h : normalizePass depth? F k = .ok (F, l')) (hφ : φ ∈ F) :
    φ.Tidy ∧ φ.unconditional = φ := by
  have htidy : ∀ ψ ∈ F, ψ.Tidy := fun ψ hψ => (instantiates_of_normalizePass h hψ).1
  refine ⟨htidy φ hφ, ?_⟩
  obtain ⟨ψs, hsimplify, hspecialize⟩ := normalizePass_eq_ok.1 h
  obtain ⟨χ, hχ, σ, rfl, -⟩ :=
    exists_subst_of_mem_specializeTo (tidy_of_simplifyAll hsimplify) hspecialize hφ
  -- the formula comes from a tidy one, of which the pass leaves all but an empty body
  obtain ⟨ψ, hψ, hψχ⟩ := (mem_simplifyAll hsimplify).1 hχ
  rw [Formula.simplify_of_tidy (htidy ψ hψ)] at hψχ
  obtain rfl := Option.some.inj (Option.filter_eq_some_iff.1 (Except.ok.inj hψχ)).1
  rw [Formula.unconditional_subst, Formula.unconditional_unconditional]

/-- Every formula of a normal form is canonical, whatever the description and the settings. -/
theorem isCanonical_of_normalize {settings : Settings} (h : normalize settings φs l = (.ok N, l')) :
    ∀ φ ∈ N, φ.IsCanonical := by
  obtain ⟨F, k, -, hpass, rfl⟩ :=
    exists_fixed_of_normalizeLoop (P := fun _ _ => True) (fun _ _ => trivial) trivial h
  intro φ hφ
  obtain ⟨ψ, hψ, rfl⟩ := List.mem_map.1 hφ
  obtain ⟨htidy, hrule⟩ := tidy_and_unconditional_of_fixed hpass hψ
  have hkept : ψ.Kept false := ⟨hrule, rfl⟩
  exact htidy.scheduled.isCanonical hkept.scheduled.1

/-- Names: relations, functions, a constant and a variable. -/
def vaultNames : Lexicon := .ofNames ["open", "seen", "lit", "vault", "box", "key", "x"]

/-- The vault is open, which is said by an equality with a function without arguments; so is a box with a key;
and what is open is seen, if it is not lit or is no vault. -/
def vaults : List (Formula Symbol) :=
  let isOpen (t : Term Symbol) : Atom Symbol := ⟨⟨14⟩, [t]⟩
  let seen (t : Term Symbol) : Atom Symbol := ⟨⟨15⟩, [t]⟩
  let lit (t : Term Symbol) : Atom Symbol := ⟨⟨16⟩, [t]⟩
  let vault : Term Symbol := .app ⟨17⟩ []
  let box (t : Term Symbol) : Term Symbol := .app ⟨18⟩ [t]
  let key : Term Symbol := .const ⟨19⟩
  let x : Term Symbol := .var ⟨20⟩
  let noVault : Formula Symbol := .atom ⟨Keyword.distinct, [x, vault]⟩
  [.rule (isOpen x) [.neg noVault], .atom (isOpen (box key)),
    .rule (seen x) [.disj [.neg (.atom (lit x)), noVault], .atom (isOpen x)]]

theorem isCanonical_of_normalize_vaults : ∃ N l', normalize .standard vaults vaultNames = (.ok N, l') ∧
    .atom ⟨⟨14⟩, [.const ⟨17⟩]⟩ ∈ N ∧ N.length = 4 ∧ ∀ φ ∈ N, φ.IsCanonical := by
  have hrun : (normalize .standard vaults vaultNames).1.toOption.any
      (fun N => decide (.atom ⟨⟨14⟩, [.const ⟨17⟩]⟩ ∈ N) && decide (N.length = 4)) = true := by
    decide +kernel
  rcases hnormal : normalize .standard vaults vaultNames with ⟨e | N, l'⟩
  · rw [hnormal] at hrun
    cases hrun
  · rw [hnormal] at hrun
    obtain ⟨hfact, hlength⟩ := Bool.and_eq_true_iff.1 hrun
    exact ⟨N, l', rfl, of_decide_eq_true hfact, of_decide_eq_true hlength, isCanonical_of_normalize hnormal⟩

end GameCircuit
