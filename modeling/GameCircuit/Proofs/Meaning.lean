import GameCircuit.Canonical.Literal
import GameCircuit.Canonical.Schedule
import GameCircuit.Grounding.Plan
import GameCircuit.Proofs.Flattening
import Mathlib.Data.List.Forall2
import Mathlib.Data.Set.Basic

/-!
# What a description says

An interpretation is a set of atoms.  `Formula.TrueIn` says when a formula without variables is true in
it: `distinct` compares terms, a negation is true if its formula is not, a disjunction if some
alternative is.  `Formula.MayHold` is the weaker reading that grounding uses, in which a negated atom is
never an obstacle.

The conditions of a rule hold if all literals of some choice among its alternatives do (`Chooses`),
and neither choosing nor scheduling adds or loses a literal.
-/

namespace GameCircuit

namespace Atom

/-- The two arguments are different terms. -/
def Differs (a : Atom Symbol) : Prop :=
  match a.args with
  | [s, t] => s ≠ t
  | _ => False

/-- `distinct` is decided by its arguments, and any other atom by the interpretation. -/
def TrueIn (I : Set (Atom Symbol)) (a : Atom Symbol) : Prop :=
  if a.relation = Keyword.distinct then a.Differs else a ∈ I

variable {I J : Set (Atom Symbol)} {a : Atom Symbol}

theorem trueIn_of_distinct (h : a.relation = Keyword.distinct) : a.TrueIn I ↔ a.Differs := by
  rw [TrueIn, if_pos h]

theorem trueIn_of_ne_distinct (h : a.relation ≠ Keyword.distinct) : a.TrueIn I ↔ a ∈ I := by
  rw [TrueIn, if_neg h]

theorem TrueIn.mono (h : I ⊆ J) (ha : a.TrueIn I) : a.TrueIn J := by
  by_cases hd : a.relation = Keyword.distinct
  · exact (trueIn_of_distinct hd).2 ((trueIn_of_distinct hd).1 ha)
  · exact (trueIn_of_ne_distinct hd).2 (h ((trueIn_of_ne_distinct hd).1 ha))

end Atom

namespace Formula

/-- The formula is true in the interpretation.  A rule is no condition, so that it never is. -/
def TrueIn (I : Set (Atom Symbol)) : Formula Symbol → Prop :=
  fold (Atom.TrueIn I) (fun _ _ => False) Not fun ps => ∃ p ∈ ps, p

/-- The literal may hold when just the atoms of `D` may.  Only `distinct` is decided under a negation. -/
def MayHold (D : Set (Atom Symbol)) : Formula Symbol → Prop
  | .atom a => a.TrueIn D
  | .neg (.atom a) => a.relation = Keyword.distinct → ¬ a.Differs
  | _ => True

section Truth

variable {I D E : Set (Atom Symbol)}

@[simp] theorem trueIn_atom (a : Atom Symbol) : (atom a).TrueIn I ↔ a.TrueIn I := Iff.rfl

@[simp] theorem trueIn_neg (φ : Formula Symbol) : (neg φ).TrueIn I ↔ ¬ φ.TrueIn I := Iff.rfl

@[simp] theorem trueIn_disj (φs : List (Formula Symbol)) :
    (disj φs).TrueIn I ↔ ∃ φ ∈ φs, φ.TrueIn I := by
  rw [TrueIn, fold_disj]
  constructor
  · rintro ⟨p, hp, htrue⟩
    obtain ⟨φ, hφ, rfl⟩ := List.mem_map.1 hp
    exact ⟨φ, hφ, htrue⟩
  · rintro ⟨φ, hφ, htrue⟩
    exact ⟨_, List.mem_map_of_mem hφ, htrue⟩

theorem MayHold.mono {φ : Formula Symbol} (h : D ⊆ E) (hφ : φ.MayHold D) : φ.MayHold E := by
  match φ, hφ with
  | .atom a, hφ => exact Atom.TrueIn.mono h hφ
  | .neg (.atom a), hφ => exact hφ
  | .neg (.neg _), _ => trivial
  | .neg (.disj _), _ => trivial
  | .neg (.rule _ _), _ => trivial
  | .disj _, _ => trivial
  | .rule _ _, _ => trivial

/-- A literal that is true among atoms that may hold may hold. -/
theorem TrueIn.mayHold {φ : Formula Symbol} (h : I ⊆ D) (hφ : φ.TrueIn I) : φ.MayHold D := by
  match φ, hφ with
  | .atom a, hφ => exact Atom.TrueIn.mono h hφ
  | .neg (.atom a), hφ => exact fun hd hdiff => hφ ((Atom.trueIn_of_distinct hd).2 hdiff)
  | .neg (.neg _), _ => trivial
  | .neg (.disj _), _ => trivial
  | .neg (.rule _ _), _ => trivial
  | .disj _, _ => trivial
  | .rule _ _, _ => trivial

end Truth

/-- Keeps a literal, and takes one of the alternatives of a disjunction. -/
def Chooses : Formula Symbol → Formula Symbol → Prop
  | .disj φs, ψ => ψ ∈ φs
  | φ, ψ => ψ = φ

end Formula

/-- `choice` holds one alternative of each disjunction of the body, and its other literals. -/
def Chooses (body choice : List (Formula Symbol)) : Prop := List.Forall₂ Formula.Chooses body choice

/-! ## Choices -/

theorem mem_splitDisjunctions_iff {body choice : List (Formula Symbol)} :
    choice ∈ splitDisjunctions body ↔ Chooses body choice := by
  induction body generalizing choice with
  | nil => simp [splitDisjunctions, Chooses]
  | cons φ φs ih =>
    have hkeep : (choice ∈ (splitDisjunctions φs).map (φ :: ·)) ↔
        ∃ ψ rest, ψ = φ ∧ Chooses φs rest ∧ choice = ψ :: rest := by
      simp only [List.mem_map, ih]
      constructor
      · rintro ⟨rest, hrest, rfl⟩
        exact ⟨φ, rest, rfl, hrest, rfl⟩
      · rintro ⟨ψ, rest, rfl, hrest, rfl⟩
        exact ⟨rest, hrest, rfl⟩
    rw [Chooses, List.forall₂_cons_left_iff]
    cases φ with
    | disj alternatives =>
      simp only [splitDisjunctions, List.mem_flatMap, List.mem_map, ih]
      constructor
      · rintro ⟨ψ, hψ, rest, hrest, rfl⟩
        exact ⟨ψ, rest, hψ, hrest, rfl⟩
      · rintro ⟨ψ, rest, hψ, hrest, rfl⟩
        exact ⟨ψ, hψ, rest, hrest, rfl⟩
    | atom a => exact hkeep
    | rule head body => exact hkeep
    | neg ψ => exact hkeep

namespace Formula

/-- A formula is true if one that it may be replaced by is. -/
theorem trueIn_inst_iff_exists_chooses {I : Set (Atom Symbol)} {σ : Symbol → Symbol}
    {φ : Formula Symbol} :
    (φ.inst σ).TrueIn I ↔ ∃ ψ, φ.Chooses ψ ∧ (ψ.inst σ).TrueIn I := by
  cases φ with
  | disj φs => simp [Chooses]
  | atom a => simp [Chooses]
  | rule head body => simp [Chooses]
  | neg φ => simp [Chooses]

/-- What a literal may be replaced by is an atom or a negated atom. -/
theorem isSimpleLiteral_of_chooses {φ ψ : Formula Symbol} (hφ : φ.isLiteral = true)
    (h : φ.Chooses ψ) : ψ.isSimpleLiteral = true := by
  cases φ with
  | disj φs =>
    simp only [isLiteral, List.all_eq_true] at hφ
    exact hφ ψ h
  | atom a => exact h ▸ hφ
  | rule head body => exact h ▸ hφ
  | neg φ => exact h ▸ hφ

end Formula

/-- All conditions are true if all literals of some choice are. -/
theorem forall_trueIn_iff_exists_choice {I : Set (Atom Symbol)} {σ : Symbol → Symbol}
    {body : List (Formula Symbol)} :
    (∀ φ ∈ body, (φ.inst σ).TrueIn I) ↔
      ∃ choice, Chooses body choice ∧ ∀ φ ∈ choice, (φ.inst σ).TrueIn I := by
  induction body with
  | nil =>
    refine iff_of_true (by simp) ⟨[], .nil, by simp⟩
  | cons φ φs ih =>
    rw [List.forall_mem_cons, ih, Formula.trueIn_inst_iff_exists_chooses]
    constructor
    · rintro ⟨⟨ψ, hψ, htrue⟩, rest, hrest, htrues⟩
      exact ⟨ψ :: rest, .cons hψ hrest, List.forall_mem_cons.2 ⟨htrue, htrues⟩⟩
    · rintro ⟨choice, hchoice, htrue⟩
      obtain ⟨ψ, rest, hψ, hrest, rfl⟩ := List.forall₂_cons_left_iff.1 hchoice
      obtain ⟨h1, h2⟩ := List.forall_mem_cons.1 htrue
      exact ⟨⟨ψ, hψ, h1⟩, rest, hrest, h2⟩

/-- The literals of a choice in a body of literals are atoms and negated atoms. -/
theorem all_isSimpleLiteral_of_chooses {body choice : List (Formula Symbol)}
    (hbody : body.all Formula.isLiteral = true) (h : Chooses body choice) :
    ∀ φ ∈ choice, φ.isSimpleLiteral = true := by
  induction h with
  | nil => simp
  | cons hψ _ ih =>
    simp only [List.all_cons, Bool.and_eq_true] at hbody
    exact List.forall_mem_cons.2 ⟨Formula.isSimpleLiteral_of_chooses hbody.1 hψ, ih hbody.2⟩

/-! ## Schedules -/

theorem scheduleFrom_perm (bound : List Symbol) (held body : List (Formula Symbol)) :
    (scheduleFrom bound held body).Perm (held ++ body) := by
  induction body generalizing bound held with
  | nil => simp [scheduleFrom]
  | cons φ φs ih =>
    rw [scheduleFrom]
    split_ifs with heq hbound
    · exact ((ih bound held).cons φ).trans List.perm_middle.symm
    · refine (ih bound (held ++ [φ])).trans ?_
      rw [List.append_assoc, List.singleton_append]
    · set free := held.filter (·.isBoundBy (bound ++ φ.binds))
      set rest := held.filter fun ψ => !ψ.isBoundBy (bound ++ φ.binds)
      have hheld : (free ++ rest).Perm held := List.filter_append_perm _ held
      have hrest : (free ++ scheduleFrom (bound ++ φ.binds) rest φs).Perm (held ++ φs) := by
        refine ((ih _ rest).append_left free).trans ?_
        rw [← List.append_assoc]
        exact hheld.append_right φs
      exact (hrest.cons φ).trans List.perm_middle.symm

theorem schedule_perm (body : List (Formula Symbol)) : (schedule body).Perm body :=
  scheduleFrom_perm [] [] body

theorem mem_schedule {body : List (Formula Symbol)} {φ : Formula Symbol} :
    φ ∈ schedule body ↔ φ ∈ body :=
  (schedule_perm body).mem_iff

/-! ## Consequences -/

/-- The description concludes the atom in the interpretation: as a fact, or by a rule all of whose conditions
are true. -/
def Concludes (φs : List (Formula Symbol)) (I : Set (Atom Symbol)) (a : Atom Symbol) : Prop :=
  .atom a ∈ φs ∨ ∃ body, .rule a body ∈ φs ∧ ∀ φ ∈ body, φ.TrueIn I

/-- The immediate consequences of an interpretation: what is concluded by instances of the formulas,
where a fact is a rule without conditions. -/
def consequences (φs : List (Formula Symbol)) (I : Set (Atom Symbol)) : Set (Atom Symbol) :=
  {b | ∃ σ, (∃ a, .atom a ∈ φs ∧ b = a.inst σ) ∨
    ∃ head body, .rule head body ∈ φs ∧ b = head.inst σ ∧ ∀ φ ∈ body, (φ.inst σ).TrueIn I}

/-- A ground description has just its own formulas as instances. -/
theorem mem_consequences_iff_concludes {φs : List (Formula Symbol)}
    (hφs : ∀ φ ∈ φs, φ.isGround = true) {I : Set (Atom Symbol)} {a : Atom Symbol} :
    a ∈ consequences φs I ↔ Concludes φs I a := by
  have hinst : ∀ φ ∈ φs, ∀ σ, φ.inst σ = φ := fun φ hφ σ => Formula.inst_of_isGround (hφs φ hφ)
  have hbody : ∀ {head body}, .rule head body ∈ φs → ∀ σ, ∀ φ ∈ body, φ.inst σ = φ := by
    intro head body hrule σ φ hφ
    refine Formula.inst_of_isGround (Formula.isGround_iff.2 fun a ha => ?_)
    refine Formula.isGround_iff.1 (hφs _ hrule) a ?_
    rw [Formula.atoms_rule]
    exact List.mem_cons_of_mem _ (List.mem_flatMap.2 ⟨φ, hφ, ha⟩)
  constructor
  · rintro ⟨σ, ⟨b, hb, rfl⟩ | ⟨head, body, hrule, rfl, htrue⟩⟩
    · have hb' := hinst _ hb σ
      rw [Formula.inst_atom] at hb'
      rw [← hb'] at hb
      exact .inl hb
    · have hhead := hinst _ hrule σ
      rw [Formula.inst_rule, Formula.rule.injEq] at hhead
      rw [hhead.1]
      exact .inr ⟨body, hrule, fun φ hφ => hbody hrule σ φ hφ ▸ htrue φ hφ⟩
  · rintro (hfact | ⟨body, hrule, htrue⟩)
    · have hfact' := hinst _ hfact id
      rw [Formula.inst_atom, Formula.atom.injEq] at hfact'
      exact ⟨id, .inl ⟨a, hfact, hfact'.symm⟩⟩
    · have hhead := hinst _ hrule id
      rw [Formula.inst_rule, Formula.rule.injEq] at hhead
      refine ⟨id, .inr ⟨a, body, hrule, hhead.1.symm, fun φ hφ => ?_⟩⟩
      rw [hbody hrule id φ hφ]
      exact htrue φ hφ

end GameCircuit
