import GameCircuit.Proofs.GroundProgram
import GameCircuit.Proofs.Idempotence
import GameCircuit.Proofs.RuleInstances

/-!
# Safe descriptions can be grounded

A rule is *safe* if each of its variables stands in an atom, other than `distinct`, among its conditions,
whichever alternatives are chosen, and a fact is safe if it is ground.  Instances of safe formulas are safe, so
that the normal form of a safe description is.

When a safe rule is scheduled, every equality literal comes behind the literals that bind its variables
(`Formula.InTime`).  So a join of its plan never meets a variable without a value, and without a limit on the
size of tables nothing else can fail: the description is grounded.
-/

namespace GameCircuit

/-! ## Safe formulas -/

/-- The variable stands in an atom of the list that is no `distinct`. -/
def IsBoundIn (choice : List (Formula Symbol)) (x : Symbol) : Prop :=
  ∃ a, .atom a ∈ choice ∧ a.relation ≠ Keyword.distinct ∧ x ∈ a.vars

/-- The fact is ground, or every variable of the rule is bound by its conditions, whichever alternatives are
chosen. -/
def Formula.IsSafe : Formula Symbol → Prop
  | .atom a => a.isGround = true
  | .rule head body => ∀ choice, GameCircuit.Chooses body choice → ∀ x,
      (x ∈ head.vars ∨ ∃ φ ∈ choice, x ∈ φ.vars) → IsBoundIn choice x
  | .neg _ | .disj _ => True

namespace Formula

variable {σ : Symbol → Term Symbol} {φ ψ : Formula Symbol}

/-- A fact is a rule without conditions. -/
theorem isSafe_iff : φ.IsSafe ↔ ∀ choice, GameCircuit.Chooses φ.body choice → ∀ x,
    ((∃ head, φ.head? = some head ∧ x ∈ head.vars) ∨ ∃ χ ∈ choice, x ∈ χ.vars) → IsBoundIn choice x := by
  have hnil : ∀ choice, GameCircuit.Chooses [] choice → choice = [] := fun choice h => by
    cases h
    rfl
  cases φ with
  | atom a =>
    constructor
    · rintro hground choice hchoice x (⟨head, ⟨rfl⟩, hx⟩ | ⟨χ, hχ, -⟩)
      · rw [show a.vars = [] from List.isEmpty_iff.1 hground] at hx
        cases hx
      · rw [hnil choice hchoice] at hχ
        cases hχ
    · intro h
      refine List.isEmpty_iff.2 (List.eq_nil_iff_forall_not_mem.2 fun x hx => ?_)
      obtain ⟨b, hb, -⟩ := h [] .nil x (.inl ⟨a, rfl, hx⟩)
      cases hb
  | rule head body => simp [IsSafe, head?, Formula.body]
  | neg φ =>
    refine iff_of_true trivial ?_
    rintro choice hchoice x (⟨head, hhead, -⟩ | ⟨χ, hχ, -⟩)
    · cases hhead
    · rw [hnil choice hchoice] at hχ
      cases hχ
  | disj φs =>
    refine iff_of_true trivial ?_
    rintro choice hchoice x (⟨head, hhead, -⟩ | ⟨χ, hχ, -⟩)
    · cases hhead
    · rw [hnil choice hchoice] at hχ
      cases hχ

/-- Replacing variables keeps what may be chosen. -/
theorem exists_chooses_of_subst (h : (φ.subst σ).Chooses ψ) : ∃ χ, φ.Chooses χ ∧ ψ = χ.subst σ := by
  cases φ with
  | disj φs =>
    rw [subst_disj] at h
    obtain ⟨χ, hχ, rfl⟩ := List.mem_map.1 h
    exact ⟨χ, hχ, rfl⟩
  | rule head body =>
    rw [subst_rule] at h
    exact ⟨_, rfl, (subst_rule σ head body).symm ▸ h⟩
  | atom a => exact ⟨_, rfl, h⟩
  | neg φ => exact ⟨_, rfl, h⟩

/-- So does making constants of functions without arguments. -/
theorem exists_chooses_of_collapse (h : φ.collapse.Chooses ψ) : ∃ χ, φ.Chooses χ ∧ ψ = χ.collapse := by
  cases φ with
  | disj φs =>
    rw [collapse_disj] at h
    obtain ⟨χ, hχ, rfl⟩ := List.mem_map.1 h
    exact ⟨χ, hχ, rfl⟩
  | rule head body =>
    rw [collapse_rule] at h
    exact ⟨_, rfl, (collapse_rule head body).symm ▸ h⟩
  | atom a => exact ⟨_, rfl, h⟩
  | neg φ => exact ⟨_, rfl, h⟩

end Formula

/-- A choice among formulas that were changed is a changed choice. -/
theorem exists_chooses_of_map {g : Formula Symbol → Formula Symbol}
    (hg : ∀ {φ ψ : Formula Symbol}, (g φ).Chooses ψ → ∃ χ, φ.Chooses χ ∧ ψ = g χ)
    {body choice : List (Formula Symbol)} (h : Chooses (body.map g) choice) :
    ∃ choice', Chooses body choice' ∧ choice = choice'.map g := by
  induction body generalizing choice with
  | nil =>
    cases h
    exact ⟨[], .nil, rfl⟩
  | cons φ body ih =>
    rw [List.map_cons, Chooses, List.forall₂_cons_left_iff] at h
    obtain ⟨ψ, rest, hψ, hrest, rfl⟩ := h
    obtain ⟨χ, hχ, rfl⟩ := hg hψ
    obtain ⟨rest', hrest', rfl⟩ := ih hrest
    exact ⟨χ :: rest', .cons hχ hrest', rfl⟩

/-- Equality literals offer no choice. -/
theorem exists_chooses_of_filter {body choice : List (Formula Symbol)}
    (h : Chooses (body.filter fun χ => χ.equality?.isNone) choice) :
    ∃ choice', Chooses body choice' ∧ choice ⊆ choice' ∧ ∀ a, .atom a ∈ choice' → .atom a ∈ choice := by
  induction body generalizing choice with
  | nil =>
    cases h
    exact ⟨[], .nil, List.Subset.refl _, fun _ h => h⟩
  | cons φ body ih =>
    cases hφ : φ.equality? with
    | none =>
      rw [List.filter_cons_of_pos (by rw [hφ]; rfl), Chooses, List.forall₂_cons_left_iff] at h
      obtain ⟨ψ, rest, hψ, hrest, rfl⟩ := h
      obtain ⟨choice', hchoice', hsub, hatoms⟩ := ih hrest
      refine ⟨ψ :: choice', .cons hψ hchoice', List.cons_subset_cons ψ hsub, fun a ha => ?_⟩
      exact (List.mem_cons.1 ha).elim (fun heq => heq ▸ List.mem_cons_self) fun ha =>
        List.mem_cons_of_mem _ (hatoms a ha)
    | some equality =>
      rw [List.filter_cons_of_neg (by rw [hφ]; simp)] at h
      obtain ⟨choice', hchoice', hsub, hatoms⟩ := ih h
      have hkeeps : φ.Chooses φ ∧ ∀ a, .atom a ≠ φ := by
        cases φ with
        | neg φ => exact ⟨rfl, fun a ha => by cases ha⟩
        | atom a => cases hφ
        | rule head body => cases hφ
        | disj φs => cases hφ
      refine ⟨φ :: choice', .cons hkeeps.1 hchoice', List.subset_cons_of_subset φ hsub, fun a ha => ?_⟩
      exact hatoms a ((List.mem_cons.1 ha).resolve_left (hkeeps.2 a))

namespace Formula

variable {σ : Symbol → Term Symbol} {φ ψ : Formula Symbol}

theorem IsSafe.collapse (h : φ.IsSafe) : φ.collapse.IsSafe := by
  rw [isSafe_iff] at h ⊢
  intro choice hchoice x hx
  rw [body_collapse] at hchoice
  obtain ⟨choice', hchoice', rfl⟩ := exists_chooses_of_map exists_chooses_of_collapse hchoice
  have hx' : (∃ head, φ.head? = some head ∧ x ∈ head.vars) ∨ ∃ χ ∈ choice', x ∈ χ.vars := by
    rcases hx with ⟨head, hhead, hx⟩ | ⟨χ, hχ, hx⟩
    · rw [head?_collapse] at hhead
      obtain ⟨head', hhead', rfl⟩ := Option.map_eq_some_iff.1 hhead
      exact .inl ⟨head', hhead', Atom.vars_collapse head' ▸ hx⟩
    · obtain ⟨χ', hχ', rfl⟩ := List.mem_map.1 hχ
      exact .inr ⟨χ', hχ', vars_collapse χ' ▸ hx⟩
  obtain ⟨a, ha, hrelation, hxa⟩ := h choice' hchoice' x hx'
  exact ⟨a.collapse, List.mem_map_of_mem (f := Formula.collapse) ha, hrelation, (Atom.vars_collapse a).symm ▸ hxa⟩

/-- Instances of safe formulas are safe: what binds a variable binds those of the term in its place. -/
theorem IsSafe.instantiates (h : φ.IsSafe) (hψ : Instantiates σ φ ψ) : ψ.IsSafe := by
  rw [isSafe_iff] at h ⊢
  intro choice hchoice x hx
  -- the choice, in the order of the rule and without its equalities, comes from a choice of the rule
  obtain ⟨moved, hmoved, hperm⟩ := List.perm_comp_forall₂ hψ.body.symm hchoice
  obtain ⟨kept, hkept, rfl⟩ := exists_chooses_of_map exists_chooses_of_subst hmoved
  obtain ⟨whole, hwhole, hsub, hatoms⟩ := exists_chooses_of_filter hkept
  obtain ⟨y, hy, hxy⟩ : ∃ y, ((∃ head, φ.head? = some head ∧ y ∈ head.vars) ∨ ∃ χ ∈ whole, y ∈ χ.vars) ∧
      x ∈ (σ y).vars := by
    rcases hx with ⟨head, hhead, hx⟩ | ⟨χ, hχ, hx⟩
    · rw [hψ.head] at hhead
      obtain ⟨head', hhead', rfl⟩ := Option.map_eq_some_iff.1 hhead
      rw [Atom.vars_subst] at hx
      obtain ⟨y, hy, hxy⟩ := List.mem_flatMap.1 hx
      exact ⟨y, .inl ⟨head', hhead', hy⟩, hxy⟩
    · obtain ⟨χ', hχ', rfl⟩ := List.mem_map.1 (hperm.mem_iff.2 hχ)
      rw [vars_subst] at hx
      obtain ⟨y, hy, hxy⟩ := List.mem_flatMap.1 hx
      exact ⟨y, .inr ⟨χ', hsub hχ', hy⟩, hxy⟩
  obtain ⟨a, ha, hrelation, hya⟩ := h whole hwhole y hy
  have hmem : (atom a).subst σ ∈ choice := hperm.mem_iff.1 (List.mem_map_of_mem (hatoms a ha))
  refine ⟨a.subst σ, hmem, hrelation, ?_⟩
  rw [Atom.vars_subst]
  exact List.mem_flatMap.2 ⟨y, hya, hxy⟩

/-- What a literal binds are the variables of an atom that is no `distinct`. -/
theorem mem_binds_iff {x : Symbol} (h : φ.isSimpleLiteral = true) :
    x ∈ φ.binds ↔ ∃ a, φ = .atom a ∧ a.relation ≠ Keyword.distinct ∧ x ∈ a.vars := by
  cases φ with
  | atom a =>
    by_cases hd : a.relation = Keyword.distinct
    · simp [binds, hd]
    · simp [binds, hd]
  | neg φ => simp [binds]
  | rule head body => cases h
  | disj φs => cases h

theorem binds_of_isEquality (h : φ.isEquality = true) : φ.binds = [] := by
  cases φ with
  | atom a =>
    have hd : a.relation = Keyword.distinct := by simpa [isEquality] using h
    simp [binds, hd]
  | neg φ => rfl
  | rule head body =>
    rw [isEquality_rule] at h
    cases h
  | disj φs =>
    rw [isEquality_disj] at h
    cases h

theorem isBoundBy_iff {bound : List Symbol} : φ.isBoundBy bound = true ↔ ∀ x ∈ φ.vars, x ∈ bound := by
  simp [isBoundBy]

end Formula

theorem isBoundIn_iff {choice : List (Formula Symbol)} (h : ∀ φ ∈ choice, φ.isSimpleLiteral = true) {x : Symbol} :
    IsBoundIn choice x ↔ x ∈ choice.flatMap Formula.binds := by
  rw [List.mem_flatMap]
  constructor
  · rintro ⟨a, ha, hrelation, hx⟩
    exact ⟨_, ha, (Formula.mem_binds_iff (h _ ha)).2 ⟨a, rfl, hrelation, hx⟩⟩
  · rintro ⟨φ, hφ, hx⟩
    obtain ⟨a, rfl, hrelation, hxa⟩ := (Formula.mem_binds_iff (h φ hφ)).1 hx
    exact ⟨a, hφ, hrelation, hxa⟩

/-- The body of the clause binds all its variables. -/
def Clause.IsSafe (c : Clause Symbol) : Prop := ∀ x ∈ c.vars, x ∈ c.body.flatMap Formula.binds

instance (c : Clause Symbol) : Decidable c.IsSafe :=
  inferInstanceAs (Decidable (∀ x ∈ c.vars, x ∈ c.body.flatMap Formula.binds))

/-- A rule over literals is safe just if all clauses are that it splits into. -/
theorem Formula.isSafe_rule_iff {head : Atom Symbol} {body : List (Formula Symbol)}
    (hbody : body.all isLiteral = true) :
    (rule head body).IsSafe ↔ ∀ choice ∈ splitDisjunctions body, Clause.IsSafe ⟨head, choice⟩ := by
  refine forall_congr' fun choice => ?_
  rw [mem_splitDisjunctions_iff]
  refine forall_congr' fun hchoice => forall_congr' fun x => ?_
  rw [Clause.mem_vars_iff, isBoundIn_iff (all_isSimpleLiteral_of_chooses hbody hchoice)]

/-! ## Equality literals come in time -/

/-- Every equality literal comes behind literals that bind its variables, if `bound` has values already. -/
def InTime (bound : List Symbol) : List (Formula Symbol) → Prop
  | [] => True
  | φ :: φs => (φ.isEquality = true → φ.isBoundBy bound = true) ∧ InTime (bound ++ φ.binds) φs

/-- Equality literals that can be decided bind nothing, and can be decided at once. -/
theorem inTime_append {bound : List Symbol} {released φs : List (Formula Symbol)}
    (hreleased : ∀ ψ ∈ released, ψ.isEquality = true ∧ ψ.isBoundBy bound = true) (h : InTime bound φs) :
    InTime bound (released ++ φs) := by
  induction released with
  | nil => exact h
  | cons ψ released ih =>
    obtain ⟨⟨hequality, hbound⟩, hrest⟩ := List.forall_mem_cons.1 hreleased
    refine ⟨fun _ => hbound, ?_⟩
    rw [Formula.binds_of_isEquality hequality, List.append_nil]
    exact ih hrest

theorem inTime_scheduleFrom {bound : List Symbol} {held body : List (Formula Symbol)}
    (hheld : ∀ ψ ∈ held, ψ.isEquality = true ∧ ψ.isBoundBy (bound ++ body.flatMap Formula.binds) = true)
    (hbody : ∀ ψ ∈ body, ψ.isEquality = true → ψ.isBoundBy (bound ++ body.flatMap Formula.binds) = true) :
    InTime bound (scheduleFrom bound held body) := by
  induction body generalizing bound held with
  | nil =>
    rw [List.flatMap_nil, List.append_nil] at hheld
    have hend : InTime bound (held ++ []) := inTime_append hheld trivial
    rwa [List.append_nil] at hend
  | cons φ body ih =>
    rw [List.flatMap_cons, ← List.append_assoc] at hheld hbody
    obtain ⟨hφ, hbody⟩ := List.forall_mem_cons.1 hbody
    rw [scheduleFrom]
    split_ifs with hequality hbound
    · -- the literal is decided where it stands
      rw [Formula.binds_of_isEquality hequality, List.append_nil] at hheld hbody
      refine ⟨fun _ => hbound, ?_⟩
      rw [Formula.binds_of_isEquality hequality, List.append_nil]
      exact ih hheld hbody
    · -- the literal has to wait
      have hφ := hφ hequality
      rw [Formula.binds_of_isEquality hequality, List.append_nil] at hheld hbody hφ
      refine ih (fun ψ hψ => ?_) hbody
      rcases List.mem_append.1 hψ with hψ | hψ
      · exact hheld ψ hψ
      · rw [List.mem_singleton.1 hψ]
        exact ⟨hequality, hφ⟩
    · -- the literal releases those that wait for its variables
      refine ⟨fun h => absurd h hequality, inTime_append (fun ψ hψ => ?_) (ih (fun ψ hψ => ?_) hbody)⟩
      · obtain ⟨hψ, hbound⟩ := List.mem_filter.1 hψ
        exact ⟨(hheld ψ hψ).1, hbound⟩
      · exact hheld ψ (List.mem_filter.1 hψ).1

/-- In a safe clause nothing waits for a variable that is never bound. -/
theorem inTime_schedule {head : Atom Symbol} {body : List (Formula Symbol)} (h : Clause.IsSafe ⟨head, body⟩) :
    InTime [] (schedule body) := by
  refine inTime_scheduleFrom (by simp) fun ψ hψ _ => Formula.isBoundBy_iff.2 fun x hx => ?_
  exact h x (Clause.mem_vars_iff.2 (.inr ⟨ψ, hψ, hx⟩))

/-! ## Joins that always return -/

namespace Binding

variable {b b' : Binding} {xs : List Symbol}

/-- All the variables have a value. -/
def Covers (b : Binding) (xs : List Symbol) : Prop := ∀ x ∈ xs, ∃ c, b.lookup x = some c

/-- A variable whose value is settled by a binding has one in it. -/
theorem exists_lookup {x : Symbol} (h : ∀ σ τ, b.Agrees σ → b.Agrees τ → σ x = τ x) : ∃ c, b.lookup x = some c := by
  cases hx : b.lookup x with
  | some c => exact ⟨c, rfl⟩
  | none =>
    obtain ⟨σ, hσ⟩ := b.exists_agrees
    -- without a value in the binding, the variable may have any
    have hother : b.Agrees (Function.update σ x ⟨(σ x).handle + 1⟩) := by
      intro y c hy
      have hyx : y ≠ x := by
        rintro rfl
        rw [hx] at hy
        cases hy
      rw [Function.update_of_ne hyx]
      exact hσ y c hy
    have heq := congrArg Symbol.handle (h _ _ hσ hother)
    rw [Function.update_self] at heq
    simp at heq

/-- Fitting a tuple gives a value to the variables of the template, and takes none away. -/
theorem Covers.fit {slots : List Slot} {tuple ys : List Symbol} (hb : b.Covers xs)
    (hlen : slots.length = tuple.length) (h : b.fit slots tuple = some b') (hys : ∀ y ∈ ys, .var y ∈ slots) :
    b'.Covers (xs ++ ys) := by
  intro x hx
  refine exists_lookup fun σ τ hσ hτ => ?_
  obtain ⟨hσb, hσslots⟩ := (agrees_of_fit hlen h).1 hσ
  obtain ⟨hτb, hτslots⟩ := (agrees_of_fit hlen h).1 hτ
  rcases List.mem_append.1 hx with hx | hx
  · obtain ⟨c, hc⟩ := hb x hx
    rw [hσb x c hc, hτb x c hc]
  · exact List.map_inj_left.1 (hσslots.trans hτslots.symm) _ (hys x hx)

theorem exists_resolve_ok (relation : Symbol) {t : Term Symbol} (h : b.Covers t.vars) :
    ∃ u, b.resolve relation t = .ok u := by
  have hnone : (t.vars.find? fun x => (b.lookup x).isNone) = none := by
    refine List.find?_eq_none.2 fun x hx => ?_
    obtain ⟨c, hc⟩ := h x hx
    simp [hc]
  rw [resolve, hnone]
  exact ⟨_, rfl⟩

theorem exists_values_ok (relation : Symbol) (h : b.Covers xs) : ∃ values, b.values relation xs = .ok values := by
  induction xs with
  | nil => exact ⟨[], rfl⟩
  | cons x xs ih =>
    obtain ⟨⟨c, hc⟩, hrest⟩ := List.forall_mem_cons.1 h
    obtain ⟨rest, hrest⟩ := ih hrest
    exact ⟨c :: rest, values_cons_ok.2 ⟨c, rest, hc, hrest, rfl⟩⟩

end Binding

namespace Formula

variable {schemas : OrderedSet Schema} {φ : Formula Symbol}

/-- A step that compares terms stands for an equality literal with these terms. -/
theorem step?_eq_compare {s t : Term Symbol} {negated : Bool}
    (h : φ.step? schemas = some (.compare s t negated)) :
    φ.isEquality = true ∧ (∀ x ∈ s.vars, x ∈ φ.vars) ∧ ∀ x ∈ t.vars, x ∈ φ.vars := by
  obtain ⟨a, ha, hd, hargs⟩ : ∃ a, (φ = .atom a ∨ φ = .neg (.atom a)) ∧ a.relation = Keyword.distinct ∧
      a.args = [s, t] := by
    cases φ with
    | atom a =>
      by_cases hd : a.relation = Keyword.distinct
      · rw [step?, if_pos hd] at h
        split at h
        · rename_i s' t' hargs
          obtain ⟨rfl, rfl, -⟩ := Step.compare.inj (Option.some.inj h)
          exact ⟨a, .inl rfl, hd, hargs⟩
        · cases h
      · rw [step?, if_neg hd] at h
        obtain ⟨j, -, hscan⟩ := Option.map_eq_some_iff.1 h
        cases hscan
    | neg ψ =>
      cases ψ with
      | atom a =>
        rw [step?] at h
        split at h
        · rename_i s' t' hargs
          split_ifs at h with hd
          obtain ⟨rfl, rfl, -⟩ := Step.compare.inj (Option.some.inj h)
          exact ⟨a, .inr rfl, hd, hargs⟩
        · cases h
      | neg χ => cases h
      | rule head body => cases h
      | disj χs => cases h
    | rule head body => cases h
    | disj ψs => cases h
  have hvars : ∀ x, x ∈ φ.vars ↔ x ∈ s.vars ∨ x ∈ t.vars := by
    intro x
    rcases ha with rfl | rfl <;> simp [vars, Atom.vars, hargs]
  refine ⟨?_, fun x hx => (hvars x).2 (.inl hx), fun x hx => (hvars x).2 (.inr hx)⟩
  rcases ha with rfl | rfl <;> simp [isEquality, hd]

/-- A literal that becomes no step binds nothing. -/
theorem binds_of_step?_eq_none (hsimple : φ.isSimpleLiteral = true) (htable : φ.HasTable schemas)
    (h : φ.step? schemas = none) : φ.binds = [] := by
  refine List.eq_nil_iff_forall_not_mem.2 fun x hx => ?_
  obtain ⟨a, rfl, hd, -⟩ := (mem_binds_iff hsimple).1 hx
  obtain ⟨i, hi⟩ := htable hd
  rw [step?, if_neg hd, hi] at h
  cases h

end Formula

namespace Database

variable {db db' : Database} {p : Plan} {restricted : Option Nat} {rule : Nat}

/-- A row that is looked at is there, and fits the template in length. -/
theorem WellFormed.exists_row (hwf : db.WellFormed) {a : Atom Symbol} {t : Table} {i n row : Nat} {b : Binding}
    (ht : db.tables[i]? = some t) (hschema : t.schema = a.schema)
    (hrow : row ∈ t.candidates a.slots b (if restricted = some n then t.settled else 0)
      (if restricted = some n then t.frontier else t.size)) :
    ∃ tuple, t.row? row = some tuple ∧ tuple.length = a.slots.length := by
  have hlt : row < t.size := by
    have hstop := (Table.candidates_range hrow).2
    split_ifs at hstop
    · exact Nat.lt_of_lt_of_le hstop (hwf.tables ht).frontier_le
    · exact hstop
  have hrow' : t.row? row = t.tuples.toList[row]? := Table.row?_eq t row
  rw [Table.size_eq] at hlt
  rw [List.getElem?_eq_getElem hlt] at hrow'
  refine ⟨_, hrow', ?_⟩
  rw [(hwf.tables ht).length_tuple _ (List.getElem_mem hlt), hschema, Atom.length_slots]

/-- A join never meets a variable without a value if the equality literals come in time and all variables of the
rule are bound in the end. -/
theorem WellFormed.exists_joinFrom_ok (hwf : db.WellFormed) {body : List (Formula Symbol)} {bound : List Symbol}
    {b : Binding} {n : Nat} (hsimple : ∀ φ ∈ body, φ.isSimpleLiteral = true)
    (htables : ∀ φ ∈ body, φ.HasTable db.schemas) (htime : InTime bound body) (hb : b.Covers bound)
    (hvars : ∀ x ∈ p.vars, x ∈ bound ++ body.flatMap Formula.binds) :
    ∃ found, p.joinFrom db.tables restricted n (body.filterMap (Formula.step? db.schemas)) b = .ok found := by
  induction body generalizing bound b n with
  | nil =>
    rw [List.flatMap_nil, List.append_nil] at hvars
    obtain ⟨values, hvalues⟩ := Binding.exists_values_ok p.clause.head.relation fun x hx =>
      hb x (hvars x hx)
    exact ⟨[values], Plan.joinFrom_nil_ok.2 ⟨values, hvalues, rfl⟩⟩
  | cons φ body ih =>
    obtain ⟨hφ, hsimples⟩ := List.forall_mem_cons.1 hsimple
    obtain ⟨htable, htables'⟩ := List.forall_mem_cons.1 htables
    obtain ⟨hequality, htime⟩ := htime
    rw [List.flatMap_cons, ← List.append_assoc] at hvars
    cases hstep : φ.step? db.schemas with
    | none =>
      rw [List.filterMap_cons_none hstep]
      rw [Formula.binds_of_step?_eq_none hφ htable hstep, List.append_nil] at htime hvars
      exact ih hsimples htables' htime hb hvars
    | some step =>
      rw [List.filterMap_cons_some hstep]
      cases step with
      | compare s t negated =>
        obtain ⟨heq, hs, ht⟩ := Formula.step?_eq_compare hstep
        have hbound := Formula.isBoundBy_iff.1 (hequality heq)
        obtain ⟨s', hs'⟩ := Binding.exists_resolve_ok p.clause.head.relation fun x hx =>
          hb x (hbound x (hs x hx))
        obtain ⟨t', ht'⟩ := Binding.exists_resolve_ok p.clause.head.relation fun x hx =>
          hb x (hbound x (ht x hx))
        rw [Formula.binds_of_isEquality heq, List.append_nil] at htime hvars
        obtain ⟨found, hfound⟩ := ih (n := n + 1) hsimples htables' htime hb hvars
        by_cases hgo : s' ≠ t' ↔ negated = false
        · exact ⟨found, Plan.joinFrom_compare_ok.2 ⟨s', t', hs', ht', by rw [if_pos hgo]; exact hfound⟩⟩
        · exact ⟨[], Plan.joinFrom_compare_ok.2 ⟨s', t', hs', ht', by rw [if_neg hgo]⟩⟩
      | scan i template =>
        obtain ⟨a, rfl, hd, hi, rfl⟩ := Formula.step?_eq_scan hstep
        obtain ⟨t, ht, hschema⟩ := hwf.position?_iff.1 hi
        rw [Plan.joinFrom, ht]
        refine exists_collect_ok fun row hrow => ?_
        obtain ⟨tuple, htuple, hlen⟩ := hwf.exists_row ht hschema hrow
        simp only [htuple, hlen, ne_eq, not_true_eq_false, if_false]
        cases hfit : b.fit a.slots tuple with
        | none => exact ⟨[], rfl⟩
        | some b' =>
          refine ih hsimples htables' htime (hb.fit hlen.symm hfit fun y hy => ?_) hvars
          obtain ⟨a', ⟨rfl⟩, -, hya⟩ := (Formula.mem_binds_iff hφ).1 hy
          exact Atom.var_mem_slots_iff.2 hya

/-- What makes saturation and emission succeed: tables may grow without limit, and the rules are safe clauses
over literals with their equality literals in time. -/
structure Ready (db : Database) : Prop where
  limit : db.limit = none
  sound : db.Sound
  simple : ∀ c ∈ db.plans.toList.map Plan.clause, ∀ φ ∈ c.body, φ.isSimpleLiteral = true
  safe : ∀ c ∈ db.plans.toList.map Plan.clause, c.IsSafe
  inTime : ∀ c ∈ db.plans.toList.map Plan.clause, InTime [] c.body

theorem Moves.limit (h : Moves db db') : db'.limit = db.limit := by
  induction h with
  | refl => rfl
  | tail _ hmove ih =>
    cases hmove with
    | firing hfiring => exact (Firings.grows (.single hfiring)).limit.trans ih
    | advance => exact ih
    | count => exact ih

theorem Ready.moves (h : db.Ready) (hmoves : Moves db db') : db'.Ready := by
  have hclauses := hmoves.keeps.2.2
  refine ⟨hmoves.limit.trans h.limit, hmoves.sound h.sound, ?_, ?_, ?_⟩
  · rw [hclauses]
    exact h.simple
  · rw [hclauses]
    exact h.safe
  · rw [hclauses]
    exact h.inTime

theorem Ready.exists_join_ok (h : db.Ready) (hp : db.plans[rule]? = some p) (restricted : Option Nat) :
    ∃ found, p.join db.tables restricted = .ok found := by
  have hfits := h.sound.wellFormed.plans hp
  have hc : p.clause ∈ db.plans.toList.map Plan.clause :=
    List.mem_map_of_mem (Array.mem_toList_iff.2 (Array.mem_of_getElem? hp))
  rw [Plan.join_eq_joinFrom, hfits.steps]
  refine h.sound.wellFormed.exists_joinFrom_ok (h.simple _ hc) hfits.hasTable (h.inTime _ hc) (by intro x hx; cases hx)
    fun x hx => ?_
  rw [hfits.vars] at hx
  exact h.safe _ hc x hx

theorem Ready.exists_instances_ok (h : db.Ready) (hp : db.plans[rule]? = some p) :
    ∃ found, db.instances p = .ok found := by
  unfold instances
  split_ifs
  · exact h.exists_join_ok hp none
  · exact exists_collect_ok fun q _ => h.exists_join_ok hp (some q.1)

theorem insert_ok (h : db.limit = none) (i : Nat) (tuple : List Symbol) : (db.insert i tuple).2 = none := by
  have hlimit : (db.modifyTable i (·.insert tuple)).limit = none := h
  show overflow? _ i = none
  rw [overflow?, hlimit]

theorem fire_ok (h : db.limit = none) (rule : Nat) (values : List Symbol) : (fire rule db values).2 = none := by
  unfold fire
  split
  · rfl
  · split_ifs
    · rfl
    · exact insert_ok h _ _

theorem Ready.fireAll_ok (h : db.Ready) (rule : Nat) : (fireAll db rule).2 = none := by
  rw [fireAll]
  cases hp : db.plans[rule]? with
  | none => rfl
  | some p =>
    obtain ⟨found, hfound⟩ := h.exists_instances_ok hp
    simp only [hfound]
    refine runAll_ok (P := fun db => db.limit = none) (fun db values _ hlimit => ?_) h.limit
    exact ⟨(grows_fire rule db values).limit.trans hlimit, fire_ok hlimit rule values⟩

theorem Ready.saturateUpTo_ok (h : db.Ready) (fuel : Nat) :
    (saturateUpTo fuel db).2 = none ∧ (saturateUpTo fuel db).1.Ready := by
  induction fuel generalizing db with
  | zero => exact ⟨rfl, h⟩
  | succ fuel ih =>
    have hadvance : db.advance.Ready := h.moves (.single .advance)
    rw [saturateUpTo]
    cases hpending : db.advance.pending with
    | nil => exact ⟨rfl, hadvance⟩
    | cons rule rules =>
      have hround : (runAll fireAll db.advance (rule :: rules)).2 = none :=
        runAll_ok (P := Ready) (fun db rule _ hdb =>
          ⟨hdb.moves (firings_fireAll hdb.sound.wellFormed rule).moves, hdb.fireAll_ok rule⟩) hadvance
      have hready := hadvance.moves (firings_runAll_fireAll hadvance.sound (rule :: rules)).moves
      simp only
      rcases hrun : runAll fireAll db.advance (rule :: rules) with ⟨db1, _ | e⟩
      · rw [hrun] at hready
        exact ih (hready.moves (.single .count))
      · rw [hrun] at hround
        cases hround

theorem Ready.exists_emit_ok (h : db.Ready) : ∃ G, db.emit = .ok G := h.sound.exists_emit

/-! ## Loading -/

theorem limit_foldl_addRule (hwf : db.WellFormed) (cs : List (Clause Symbol)) :
    (cs.foldl addRule db).limit = db.limit := by
  induction cs generalizing db with
  | nil => rfl
  | cons c cs ih =>
    obtain ⟨p, db', -, -, hopens, hadd, hwf'⟩ := addRule_spec hwf c
    rw [List.foldl_cons, ih hwf', hadd]
    exact hopens.limit

/-- Without a limit, facts and rules are loaded. -/
theorem loadFormula_ok (hwf : db.WellFormed) (hlimit : db.limit = none) {φ : Formula Symbol}
    (hφ : φ.isSupported = true) : (db.loadFormula φ).1.limit = none ∧ (db.loadFormula φ).2 = none := by
  cases φ with
  | atom a =>
    rw [loadFormula]
    split_ifs
    · have hlimit' : (db.tableFor a).2.limit = none := (opens_tableFor hwf a).1.limit.trans hlimit
      have hok := insert_ok hlimit' (db.tableFor a).1 a.constants
      have hkept : ((db.tableFor a).2.insert (db.tableFor a).1 a.constants).1.limit = none := hlimit'
      simp only
      rcases hinsert : (db.tableFor a).2.insert (db.tableFor a).1 a.constants with ⟨db1, _ | e⟩
      · rw [hinsert] at hkept
        exact ⟨hkept, rfl⟩
      · rw [hinsert] at hok
        cases hok
    · exact ⟨(limit_foldl_addRule hwf [⟨a, []⟩]).trans hlimit, rfl⟩
  | rule head body =>
    have hlimit' := limit_foldl_addRule hwf (Formula.rule head body).clauses
    rw [Formula.clauses, List.foldl_map] at hlimit'
    exact ⟨hlimit'.trans hlimit, rfl⟩
  | neg φ => cases hφ
  | disj φs => cases hφ

theorem load_ok {φs : List (Formula Symbol)} (hφs : ∀ φ ∈ φs, φ.isSupported = true) (hwf : db.WellFormed)
    (hlimit : db.limit = none) : (db.load φs).1.limit = none ∧ (db.load φs).2 = none := by
  have hstep : ∀ db : Database, ∀ φ ∈ φs, db.WellFormed ∧ db.limit = none →
      ((db.loadFormula φ).1.WellFormed ∧ (db.loadFormula φ).1.limit = none) ∧ (db.loadFormula φ).2 = none := by
    intro db φ hφ hdb
    obtain ⟨hlimit, hok⟩ := loadFormula_ok hdb.1 hdb.2 (hφs φ hφ)
    exact ⟨⟨(Loads.of_loadFormula hdb.1 (eq_pair_of_snd hok)).wellFormed, hlimit⟩, hok⟩
  refine ⟨?_, runAll_ok hstep ⟨hwf, hlimit⟩⟩
  exact (runAll_induction (fun db φ hφ hdb => (hstep db φ hφ hdb).1) ⟨hwf, hlimit⟩).2

/-- Safe facts and rules make a database ready. -/
theorem Loaded.ready {φs : List (Formula Symbol)} (h : Loaded φs db) (hsafe : ∀ φ ∈ φs, φ.IsSafe)
    (hlimit : db.limit = none) : db.Ready := by
  obtain ⟨hsupported, limit, hloads⟩ := h
  have hclauses : ∀ c ∈ db.plans.toList.map Plan.clause, ∃ head body choice, .rule head body ∈ φs ∧
      Chooses body choice ∧ c = ⟨head, schedule choice⟩ := by
    intro c hc
    obtain ⟨ps, hps, hmap, -⟩ := hloads.plans
    rw [hps, List.map_append, hmap] at hc
    obtain ⟨φ, hφ, hcφ⟩ := List.mem_flatMap.1 (show c ∈ φs.flatMap Formula.clauses from hc)
    cases φ with
    | atom a =>
      have hground : a.isGround = true := hsafe _ hφ
      simp [Formula.clauses, hground] at hcφ
    | rule head body =>
      obtain ⟨choice, hchoice, rfl⟩ := List.mem_map.1 hcφ
      exact ⟨head, body, choice, hφ, mem_splitDisjunctions_iff.1 hchoice, rfl⟩
    | neg φ => cases hcφ
    | disj φs => cases hcφ
  have hchoice : ∀ {head body choice}, .rule head body ∈ φs → Chooses body choice → Clause.IsSafe ⟨head, choice⟩ :=
    fun hrule hchoice => (Formula.isSafe_rule_iff (hsupported _ hrule)).1 (hsafe _ hrule) _
      (mem_splitDisjunctions_iff.2 hchoice)
  refine ⟨hlimit, hloads.sound (exhausted_empty limit).sound, fun c hc => ?_, fun c hc => ?_, fun c hc => ?_⟩
  · obtain ⟨head, body, choice, hrule, hchosen, rfl⟩ := hclauses c hc
    exact fun φ hφ => all_isSimpleLiteral_of_chooses (hsupported _ hrule) hchosen φ (mem_schedule.1 hφ)
  · obtain ⟨head, body, choice, hrule, hchosen, rfl⟩ := hclauses c hc
    intro x hx
    rw [List.Perm.mem_iff ((schedule_perm choice).flatMap_right _)]
    refine hchoice hrule hchosen x ?_
    rw [Clause.mem_vars_iff] at hx ⊢
    simpa only [mem_schedule] using hx
  · obtain ⟨head, body, choice, hrule, hchosen, rfl⟩ := hclauses c hc
    exact inTime_schedule (hchoice hrule hchosen)

end Database

/-- The normal form of a safe description is safe. -/
theorem isSafe_of_normalize {settings : Settings} {φs N : List (Formula Symbol)} {l l' : Lexicon}
    (hsafe : ∀ φ ∈ φs, φ.IsSafe) (h : normalize settings φs l = (.ok N, l')) : ∀ ψ ∈ N, ψ.IsSafe := by
  intro ψ hψ
  obtain ⟨φ, hφ, σ, hσ⟩ := instantiates_of_normalize h hψ
  exact (hsafe φ hφ).collapse.instantiates hσ

/-- The normal form of a safe description, whatever the settings, can be grounded if tables may grow without
limit. -/
theorem exists_ground_of_safe {settings : Settings} {φs N : List (Formula Symbol)} {l l' : Lexicon}
    (hsafe : ∀ φ ∈ φs, φ.IsSafe) (h : normalize settings φs l = (.ok N, l')) :
    ∃ db G, (Database.empty none).ground N = (db, .ok G) := by
  have hsupported := isSupported_of_normalize h
  obtain ⟨hlimit, hok⟩ := Database.load_ok hsupported (Database.wellFormed_empty none) rfl
  rcases hload : (Database.empty none).load N with ⟨loaded, _ | e⟩
  · rw [hload] at hlimit
    have hready := (Database.loaded_of_load hsupported hload).ready (isSafe_of_normalize hsafe h) hlimit
    obtain ⟨hrun, hend⟩ := hready.saturateUpTo_ok (loaded.capacity + 2)
    obtain ⟨G, hG⟩ := hend.exists_emit_ok
    refine ⟨loaded.saturate.1, G, ?_⟩
    have hsaturate : loaded.saturate = (loaded.saturate.1, none) := eq_pair_of_snd hrun
    rw [Database.ground, hload]
    simp only
    rw [hsaturate]
    exact eq_pair_of_snd hG
  · rw [hload] at hok
    cases hok

/-- Names: relations, a function, constants and variables. -/
def hallNames : Lexicon := .ofNames ["door", "gate", "beyond", "reach", "far", "a", "b", "x", "y", "z"]

/-- Rooms with doors and gates between them: reachable is what a door or an open gate leads to, and far is what is
not next to a room. -/
def hall : List (Formula Symbol) :=
  let door (s t : Term Symbol) : Formula Symbol := .atom ⟨⟨14⟩, [s, t]⟩
  let gate (s t : Term Symbol) : Formula Symbol := .atom ⟨⟨15⟩, [s, t]⟩
  let beyond (t : Term Symbol) : Term Symbol := .app ⟨16⟩ [t]
  let reach (s t : Term Symbol) : Atom Symbol := ⟨⟨17⟩, [s, t]⟩
  let far (s t : Term Symbol) : Atom Symbol := ⟨⟨18⟩, [s, t]⟩
  let a : Term Symbol := .const ⟨19⟩
  let b : Term Symbol := .const ⟨20⟩
  let x : Term Symbol := .var ⟨21⟩
  let y : Term Symbol := .var ⟨22⟩
  let z : Term Symbol := .var ⟨23⟩
  [door a b, gate b (beyond a), .rule (reach x y) [.disj [door x y, gate x y]],
    .rule (reach x z) [.atom ⟨Keyword.distinct, [x, z]⟩, .atom (reach x y), .disj [door y z, gate y z]],
    .rule (far x y) [.neg (door x y), .disj [.atom (reach x y), gate x y], .neg (.atom ⟨Keyword.distinct, [x, z]⟩),
      .atom (reach z y)]]

theorem exists_ground_of_safe_hall : (∀ φ ∈ hall, φ.IsSafe) ∧
    ∃ N l', normalize .standard hall hallNames = (.ok N, l') ∧
      ∃ db G, (Database.empty none).ground N = (db, .ok G) := by
  have hsafe : ∀ φ ∈ hall, φ.IsSafe := by
    have hrule : ∀ {head body}, body.all Formula.isLiteral = true →
        (∀ choice ∈ splitDisjunctions body, Clause.IsSafe ⟨head, choice⟩) → (Formula.rule head body).IsSafe :=
      fun hbody => (Formula.isSafe_rule_iff hbody).2
    simp only [hall, List.forall_mem_cons]
    exact ⟨rfl, rfl, hrule rfl (by decide +kernel), hrule rfl (by decide +kernel), hrule rfl (by decide +kernel),
      fun _ h => absurd h List.not_mem_nil⟩
  have hrun : (normalize .standard hall hallNames).1.toOption.isSome = true := by decide +kernel
  rcases hnormal : normalize .standard hall hallNames with ⟨e | N, l'⟩
  · rw [hnormal] at hrun
    cases hrun
  · exact ⟨hsafe, N, l', rfl, exists_ground_of_safe hsafe hnormal⟩

end GameCircuit
