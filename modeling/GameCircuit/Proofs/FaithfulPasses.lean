import GameCircuit.Proofs.HerbrandModels
import GameCircuit.Proofs.NormalForms

/-!
# Passes that lose nothing

A pass replaces each rule by variants, as the text of the description suggests what its variables may stand
for.  If the text shows what the model has there (`Shows`), each instance of a rule that the model uses is an
instance of the variant that fits it, so that the description still derives what the program does
(`Represents`).  For a finite model, whether this is so on the whole way can be computed (`showsOnTheWay`).
-/

namespace GameCircuit

/-! ## What a description shows of a model -/

/-- Some atom of `M` has `o` at the site. -/
def StandsAt (M : Set (Atom Symbol)) (site : Site) (o : Occupant) : Prop :=
  ∃ A ∈ M, ∃ path, (path, o) ∈ A.occupants ∧ A.site path = site

/-- The description shows what its variables may stand for: what the model has at all places of a variable in
the conditions of a rule, the description has at those where it has a function. -/
def Shows (φs : List (Formula Symbol)) (M : Set (Atom Symbol)) : Prop :=
  ∀ φ ∈ φs, ∀ x o, (∀ a ∈ φ.conditions, ∀ path ∈ a.pathsTo x, StandsAt M (a.site path) o) →
    ∀ a ∈ φ.conditions, ∀ path ∈ a.pathsTo x,
      ((Occupancy.ofFormulas φs).lookup (a.site path)).any Occupant.isFunctor = true →
        o ∈ (Occupancy.ofFormulas φs).lookup (a.site path)

/-- A relation that shares its tuples with no other is named by itself only. -/
theorem Symbol.canonical_eq_iff {s k : Symbol} (hk : k.canonical = k) (hdoes : k ≠ Keyword.does)
    (hholds : k ≠ Keyword.holds) : s.canonical = k ↔ s = k := by
  refine ⟨fun h => ?_, fun h => by rw [h, hk]⟩
  rw [canonical] at h
  split_ifs at h
  · exact absurd h.symm hdoes
  · exact absurd h.symm hholds
  · exact h

theorem Atom.occupants_canonical (a : Atom Symbol) : a.canonical.occupants = a.occupants := by
  have hdistinct : a.relation.canonical = Keyword.distinct ↔ a.relation = Keyword.distinct :=
    Symbol.canonical_eq_iff (by decide) (by decide) (by decide)
  rw [occupants, occupants, canonical]
  simp only [hdistinct]

theorem Atom.site_canonical (a : Atom Symbol) (path : Path) : a.canonical.site path = a.site path := by
  rw [site, site, canonical, Symbol.canonical_canonical]

theorem Term.occupant?_of_isGround {t : Term Symbol} (h : t.isGround = true) :
    t.occupant? = some (t.occupant?.getD .const) := by
  cases t with
  | const c => rfl
  | var x => cases h
  | app f ts => rfl

theorem Term.fits_occupant (t : Term Symbol) : (t.occupant?.getD .const).Fits t := by
  cases t with
  | const c => trivial
  | var x => trivial
  | app f ts => exact ⟨ts, rfl, rfl⟩

namespace Formula

variable {occupancy : Occupancy} {depth : Nat} {φ : Formula Symbol} {x : Symbol} {o : Occupant}
  {os : List Occupant} {θ : Symbol → Term Symbol}

theorem mem_compoundVariables_of_horn (h : φ.IsHorn) : (x, os) ∈ φ.compoundVariables occupancy depth ↔
    x ∈ φ.vars ∧ (∀ a ∈ φ.conditions, (a.evidence occupancy depth x).tooDeep = false) ∧
      (Evidence.all (φ.conditions.map (Atom.evidence occupancy depth x))).allowed = some os ∧
        os.any Occupant.isFunctor = true := by
  cases φ with
  | atom a =>
    refine iff_of_false (by simp [compoundVariables]) fun hx => ?_
    obtain ⟨b, hb, -⟩ := h.bound x hx.1
    cases hb
  | rule head body =>
    have hbody : body = (rule head body).conditions.map atom := h.literals
    have hevidence : body.map (evidence occupancy depth x) =
        (rule head body).conditions.map (Atom.evidence occupancy depth x) := by
      rw [hbody, List.map_map, ← hbody]
      rfl
    rw [compoundVariables, Clause.mem_compoundVariables, Clause.candidates_eq_some, hevidence, Clause.vars,
      List.mem_eraseDups]
    rw [hbody, List.forall_mem_map, ← hbody, and_assoc]
    rfl
  | neg φ => cases h.concludes
  | disj φs => cases h.concludes

/-- A variable may stand for what the description has at its places. -/
theorem mem_of_places (h : φ.IsHorn) (hx : (x, os) ∈ φ.compoundVariables occupancy depth)
    (hplaces : ∀ a ∈ φ.conditions, ∀ path ∈ a.pathsTo x,
      (occupancy.lookup (a.site path)).any Occupant.isFunctor = true → o ∈ occupancy.lookup (a.site path)) :
    o ∈ os := by
  obtain ⟨-, -, hallowed, hany⟩ := (mem_compoundVariables_of_horn h).1 hx
  obtain ⟨g, hg, hfunctor⟩ := List.any_eq_true.1 hany
  -- the function that makes the variable compound stands at all places that count
  have hpermits := Evidence.permits_all_iff.1 fun os' hos' => Option.some.inj (hallowed.symm.trans hos') ▸ hg
  refine Evidence.permits_all_iff.2 (fun e he => ?_) os hallowed
  have heg := hpermits e he
  obtain ⟨a, ha, rfl⟩ := List.mem_map.1 he
  intro os' hos'
  refine (Atom.mem_allowed_evidence hos').2.2 fun path hpath => hplaces a ha path hpath ?_
  exact List.any_eq_true.2 ⟨g, (Atom.mem_allowed_evidence hos').2.1 (heg os' hos') path hpath, hfunctor⟩

/-- A function that stands at all places of a variable, none of them too deep, is one that it may stand for. -/
theorem exists_mem_compoundVariables (h : φ.IsHorn) (hx : x ∈ φ.vars) (ho : o.isFunctor = true)
    (hplaces : ∀ a ∈ φ.conditions, ∀ path ∈ a.pathsTo x,
      o ∈ occupancy.lookup (a.site path) ∧ path.length ≤ depth) :
    x ∈ (φ.compoundVariables occupancy depth).map Prod.fst := by
  have hsome : (Evidence.all (φ.conditions.map (Atom.evidence occupancy depth x))).allowed.isSome = true := by
    obtain ⟨a, ha, hxa⟩ := h.bound x hx
    refine Evidence.isSome_allowed_all ⟨_, List.mem_map_of_mem ha, ?_⟩
    refine Atom.isSome_allowed_evidence ?_ fun path hpath => ?_
    · obtain ⟨path, hpath⟩ := Atom.exists_hasAt_of_mem_vars hxa
      have hd := h.relations a (mem_atoms_of_mem_conditions ha)
      exact List.ne_nil_of_mem (Atom.mem_pathsTo.2 ⟨hd, hpath⟩)
    · exact List.ne_nil_of_mem (hplaces a ha path hpath).1
  obtain ⟨os, hos⟩ := Option.isSome_iff_exists.1 hsome
  have hmem : o ∈ os := by
    refine Evidence.permits_all_iff.2 (fun e he os' hos' => ?_) os hos
    obtain ⟨a, ha, rfl⟩ := List.mem_map.1 he
    exact (Atom.mem_allowed_evidence hos').2.2 fun path hpath => (hplaces a ha path hpath).1
  refine List.mem_map.2 ⟨(x, os), (mem_compoundVariables_of_horn h).2 ⟨hx, fun a ha => ?_, hos, ?_⟩, rfl⟩
  · rw [Bool.eq_false_iff, ne_eq, Atom.tooDeep_evidence]
    rintro ⟨path, hpath, hlt⟩
    have hle := (hplaces a ha path hpath).2
    omega
  · exact List.any_eq_true.2 ⟨o, hmem, ho⟩

/-! ## The variant that fits an instance -/

/-- Terms for the variables with which the conditions of the formula are in the model. -/
structure Meets (φ : Formula Symbol) (θ : Symbol → Term Symbol) (M : Set (Atom Symbol)) : Prop where
  ground : ∀ x, (θ x).isGround = true
  collapsed : ∀ x, (θ x).collapse = θ x
  conditions : ∀ a ∈ φ.conditions, (a.subst θ).reading ∈ M

/-- What the variables that may stand for function terms stand for. -/
def fitting (occupancy : Occupancy) (depth : Nat) (θ : Symbol → Term Symbol) (φ : Formula Symbol) :
    Symbol → Occupant :=
  fun x => if x ∈ (φ.compoundVariables occupancy depth).map Prod.fst then (θ x).occupant?.getD .const else .const

theorem fits_fitting (x : Symbol) : (φ.fitting occupancy depth θ x).Fits (θ x) := by
  rw [fitting]
  split_ifs
  · exact (θ x).fits_occupant
  · trivial

/-- The atoms of an instance have the terms where the formula has the variables. -/
theorem mem_occupants_reading {a : Atom Symbol} {path : Path} (ha : a.collapse = a)
    (hground : (θ x).isGround = true) (hcollapsed : ∀ x, (θ x).collapse = θ x) (hpath : path ∈ a.pathsTo x) :
    (path, (θ x).occupant?.getD .const) ∈ (a.subst θ).reading.occupants ∧
      (a.subst θ).reading.site path = a.site path := by
  rw [Atom.reading_of_collapsed ha hcollapsed, Atom.occupants_canonical, Atom.site_canonical]
  exact ⟨Atom.mem_occupants_of_mem_pathsTo hpath (Term.occupant?_of_isGround hground), rfl⟩

end Formula

section Fitting

variable {M : Set (Atom Symbol)} {φs ψs : List (Formula Symbol)} {φ : Formula Symbol} {head : Atom Symbol}
  {l m : Lexicon} {depth : Nat} {θ : Symbol → Term Symbol}
  (hφ : φ ∈ ψs) (hhorn : φ.IsHorn) (htidy : φ.Tidy) (hshows : Shows ψs M) (hθ : φ.Meets θ M)

include hφ hhorn htidy hshows hθ

theorem selects_fitting : Selects (φ.compoundVariables (.ofFormulas ψs) depth)
    (φ.fitting (.ofFormulas ψs) depth θ) := by
  refine ⟨fun x os hx => ?_, fun x hx => if_neg hx⟩
  rw [Formula.fitting, if_pos (List.mem_map_of_mem hx)]
  refine Formula.mem_of_places hhorn hx (hshows φ hφ x _ fun a ha path hpath => ?_)
  have hcollapse := htidy.collapsed a (Formula.mem_atoms_of_mem_conditions ha)
  obtain ⟨hoccupant, hsite⟩ := Formula.mem_occupants_reading hcollapse (hθ.ground x) hθ.collapsed hpath
  exact ⟨_, hθ.conditions a ha, path, hoccupant, hsite⟩

/-- The variant that fits an instance is made, and derives what the instance does. -/
theorem derives_fitting (hl : l.Covers ψs) (hspecialize : specialize depth ψs l = (φs, m))
    (hap : l.Apart φ.vars) (hhead : φ.head? = some head) :
    φ.subst (m.variant (φ.fitting (.ofFormulas ψs) depth θ)) ∈ φs ∧
      (φ.subst (m.variant (φ.fitting (.ofFormulas ψs) depth θ))).Derives
        (φ.conditions.map fun b => (b.subst θ).reading) (head.subst θ).reading := by
  have hselects : Selects (φ.compoundVariables (.ofFormulas ψs) depth) _ :=
    selects_fitting hφ hhorn htidy hshows hθ
  have hknows : ∀ x ∈ φ.vars, l.Knows x := fun x hx => hl φ hφ x (Formula.mem_symbols_of_mem_vars hx)
  have hgrows := grows_specialize hl hspecialize
  refine ⟨(mem_specialize hl hspecialize).2 ⟨φ, hφ, _, hselects, rfl⟩, ?_⟩
  obtain ⟨θ', hground, hvariant⟩ := Lexicon.exists_subst_variant (hap.grows hknows hgrows)
    (fun x hx => (hknows x hx).grows hgrows) (fun x _ => names_of_selects hl hspecialize hφ hselects x)
    (fun x _ => Formula.fits_fitting x) hθ.ground
  exact Formula.derives_subst hhead hground hvariant

end Fitting

/-! ## What every pass keeps -/

/-- The program without the facts about `base` that are no declarations. -/
def declared (φs : List (Formula Symbol)) : List (Formula Symbol) :=
  φs.filter fun φ => !(hasForeignBase φs && φ.unconditional.isBaseFact)

/-- What derives the same as a fact about `base` is one itself. -/
theorem Formula.isBaseFact_of_derives {φ ψ : Formula Symbol} {Bs : List (Atom Symbol)} {A : Atom Symbol}
    (hφ : φ.IsHorn) (h : φ.Derives Bs A) (hψ : ψ.isBaseFact = true) (h' : ψ.Derives Bs A) :
    φ.unconditional.isBaseFact = true := by
  cases ψ with
  | atom a =>
    obtain ⟨head, θ, hhead, -, rfl, hBs⟩ := h
    obtain ⟨a', θ', ha', -, hA, rfl⟩ := h'
    obtain rfl := Option.some.inj ha'
    have hbase : a.relation = Keyword.base := by
      rw [isBaseFact, Bool.and_eq_true] at hψ
      exact of_decide_eq_true hψ.1
    have hconditions : φ.conditions = [] := List.map_eq_nil_iff.1 hBs.symm
    have hrelation : head.relation = Keyword.base := by
      have hcanonical := congrArg Atom.relation hA
      change head.relation.canonical = a.relation.canonical at hcanonical
      rw [hbase] at hcanonical
      exact (Symbol.canonical_eq_iff (by decide) (by decide) (by decide)).1 hcanonical
    have hvars : head.vars = [] := by
      refine List.eq_nil_iff_forall_not_mem.2 fun x hx => ?_
      obtain ⟨b, hb, -⟩ := hφ.bound x (List.mem_flatMap.2 ⟨head, by simp [atoms_eq_cons hhead], hx⟩)
      rw [hconditions] at hb
      cases hb
    have hatom : φ.unconditional = .atom head := by
      have hbody := hφ.literals
      rw [hconditions] at hbody
      cases φ with
      | atom b =>
        obtain rfl := Option.some.inj hhead
        rfl
      | rule head' body =>
        obtain rfl := Option.some.inj hhead
        obtain rfl : body = [] := hbody
        rfl
      | neg φ => cases hhead
      | disj φs => cases hhead
    rw [hatom, isBaseFact, hrelation, Atom.isGround, hvars]
    rfl
  | rule head body => cases hψ
  | neg ψ => cases hψ
  | disj φs => cases hψ

/-- The description still derives what the program does in its model. -/
structure Represents (P : List (Formula Symbol)) (M : Set (Atom Symbol)) (φs : List (Formula Symbol))
    (l : Lexicon) : Prop where
  covers : l.Covers φs
  horn : ∀ φ ∈ φs, φ.IsHorn
  apart : ∀ φ ∈ φs, l.Apart φ.vars
  foreign : hasForeignBase φs = true → hasForeignBase P = true
  derives : ∀ φ ∈ declared P, ∀ Bs A, φ.Derives Bs A → (∀ B ∈ Bs, B ∈ M) → ∃ ψ ∈ φs, ψ.Derives Bs A

namespace Represents

variable {P φs ψs : List (Formula Symbol)} {M : Set (Atom Symbol)} {l m : Lexicon} {depth : Nat}

/-- A program represents itself. -/
theorem refl (hcovers : l.Covers P) (hhorn : ∀ φ ∈ P, φ.IsHorn) (hap : ∀ φ ∈ P, l.Apart φ.vars) :
    Represents P M P l where
  covers := hcovers
  horn := hhorn
  apart := hap
  foreign := id
  derives φ hφ _ _ hA _ := ⟨φ, (List.mem_filter.1 hφ).1, hA⟩

/-- `base` gets no other numbers of arguments if atoms keep their relations and arities. -/
theorem hasForeignBase_of_atoms (hψs : hasForeignBase ψs = true)
    (h : ∀ ψ ∈ ψs, ∃ φ ∈ φs, ∃ g : Atom Symbol → Atom Symbol,
      (∀ a, (g a).relation = a.relation ∧ (g a).arity = a.arity) ∧ ψ.atoms = φ.atoms.map g) :
    hasForeignBase φs = true := by
  obtain ⟨b, hb, hforeign⟩ := List.any_eq_true.1 hψs
  obtain ⟨ψ, hψ, hbψ⟩ := List.mem_flatMap.1 hb
  obtain ⟨φ, hφ, g, hg, hatoms⟩ := h ψ hψ
  rw [hatoms] at hbψ
  obtain ⟨a, ha, rfl⟩ := List.mem_map.1 hbψ
  rw [(hg a).1, (hg a).2] at hforeign
  exact List.any_eq_true.2 ⟨a, List.mem_flatMap.2 ⟨φ, hφ, ha⟩, hforeign⟩

variable (h : Represents P M φs l)

include h

/-- What derives the same as a declared formula is not dropped. -/
theorem kept_of_derives {φ ψ : Formula Symbol} {Bs : List (Atom Symbol)} {A : Atom Symbol} (hhorn : φ.IsHorn)
    (hφ : φ ∈ declared P) (hA : φ.Derives Bs A) (hψA : ψ.Derives Bs A) :
    (hasForeignBase φs && ψ.isBaseFact) = false := by
  by_contra hdropped
  obtain ⟨hforeign, hbase⟩ := Bool.and_eq_true_iff.1 (Bool.not_eq_false _ ▸ hdropped)
  have hdeclared := (List.mem_filter.1 hφ).2
  rw [h.foreign hforeign, Formula.isBaseFact_of_derives hhorn hA hbase hψA] at hdeclared
  cases hdeclared

theorem of_simplifyAll (hP : ∀ φ ∈ P, φ.IsHorn) (hsimplify : simplifyAll φs = .ok ψs) : Represents P M ψs l := by
  have hmem : ∀ ψ ∈ ψs, ∃ φ ∈ φs, ψ = φ.unconditional.collapse := by
    intro ψ hψ
    obtain ⟨φ, hφ, hr⟩ := (mem_simplifyAll hsimplify).1 hψ
    have hsome := (h.horn φ hφ).eq_of_simplify hr
    exact ⟨φ, hφ, (Option.some.inj (Option.filter_eq_some_iff.1 hsome.symm).1).symm⟩
  refine ⟨covers_simplifyAll h.covers hsimplify, fun ψ hψ => ?_, fun ψ hψ => ?_, fun hforeign => ?_, ?_⟩
  · obtain ⟨φ, hφ, rfl⟩ := hmem ψ hψ
    exact (h.horn φ hφ).unconditional.collapse
  · obtain ⟨φ, hφ, rfl⟩ := hmem ψ hψ
    rw [Formula.vars_collapse, Formula.vars_unconditional]
    exact h.apart φ hφ
  · refine h.foreign (hasForeignBase_of_atoms hforeign fun ψ hψ => ?_)
    obtain ⟨φ, hφ, rfl⟩ := hmem ψ hψ
    refine ⟨φ, hφ, Atom.collapse, fun a => ⟨rfl, List.length_map _⟩, ?_⟩
    rw [Formula.atoms_collapse, Formula.atoms_unconditional]
  · intro φ hφ Bs A hA hBs
    obtain ⟨ψ, hψ, hψA⟩ := h.derives φ hφ Bs A hA hBs
    obtain ⟨results, hresults, -⟩ := simplifyAll_eq_ok.1 hsimplify
    obtain ⟨r, hr⟩ := exists_ok_of_mapM hresults hψ
    have hrψ := (h.horn ψ hψ).eq_of_simplify hr
    have hclean := hψA.unconditional_collapse
    rw [Option.filter_some, h.kept_of_derives (hP φ (List.mem_filter.1 hφ).1) hφ hA hclean] at hrψ
    refine ⟨_, (mem_simplifyAll hsimplify).2 ⟨ψ, hψ, ?_⟩, hclean⟩
    rw [hr, hrψ]
    rfl

theorem of_specialize (htidy : ∀ φ ∈ φs, φ.Tidy) (hshows : Shows φs M)
    (hspecialize : specialize depth φs l = (ψs, m)) : Represents P M ψs m := by
  have hmem : ∀ ψ ∈ ψs, _ := fun ψ => (mem_specialize h.covers hspecialize).1
  refine ⟨covers_specialize h.covers hspecialize, fun ψ hψ => ?_, fun ψ hψ => ?_, fun hforeign => ?_, ?_⟩
  · obtain ⟨φ, hφ, choice, -, rfl⟩ := hmem ψ hψ
    exact (h.horn φ hφ).subst _
  · obtain ⟨φ, hφ, choice, hselects, rfl⟩ := hmem ψ hψ
    have hknows : ∀ x ∈ φ.vars, l.Knows x := fun x hx => h.covers φ hφ x (Formula.mem_symbols_of_mem_vars hx)
    have hgrows := grows_specialize h.covers hspecialize
    rw [Formula.vars_subst]
    exact ((h.apart φ hφ).grows hknows hgrows).replacement (fun x hx => (hknows x hx).grows hgrows)
      fun x _ => names_of_selects h.covers hspecialize hφ hselects x
  · refine h.foreign (hasForeignBase_of_atoms hforeign fun ψ hψ => ?_)
    obtain ⟨φ, hφ, choice, -, rfl⟩ := hmem ψ hψ
    exact ⟨φ, hφ, Atom.subst _, fun a => ⟨rfl, List.length_map _⟩, Formula.atoms_subst _ φ⟩
  · intro φ hφ Bs A hA hBs
    obtain ⟨ψ, hψ, hψA⟩ := h.derives φ hφ Bs A hA hBs
    obtain ⟨head, θ, hhead, hground, hcollapsed, rfl, rfl⟩ := hψA.exists_collapsed
    have hθ : ψ.Meets θ M := ⟨hground, hcollapsed, fun a ha => hBs _ (List.mem_map_of_mem ha)⟩
    exact ⟨_, derives_fitting hψ (h.horn ψ hψ) (htidy ψ hψ) hshows hθ h.covers hspecialize (h.apart ψ hψ) hhead⟩

/-- A pass keeps what the program derives, if the simplified description shows what variables stand for. -/
theorem of_normalizePass (hP : ∀ φ ∈ P, φ.IsHorn) (hshows : ∀ χs, simplifyAll φs = .ok χs → Shows χs M)
    (hpass : normalizePass (some depth) φs l = .ok (ψs, m)) : Represents P M ψs m := by
  obtain ⟨χs, hsimplify, hvariants⟩ := normalizePass_eq_ok.1 hpass
  have hχs := h.of_simplifyAll hP hsimplify
  exact hχs.of_specialize (tidy_of_simplifyAll hsimplify) (hshows χs hsimplify) hvariants

end Represents

/-- Passes lead from one description and its lexicon to the other. -/
def PassesTo (depth? : Option Nat) : List (Formula Symbol) × Lexicon → List (Formula Symbol) × Lexicon → Prop :=
  Relation.ReflTransGen fun p q => normalizePass depth? p.1 p.2 = .ok q

/-- Every description on the way, as it is when variables are specialized, shows what they may stand for. -/
def ShowsThroughout (P : List (Formula Symbol)) (l : Lexicon) (M : Set (Atom Symbol)) : Prop :=
  ∀ φs m ψs, PassesTo (some (compoundDepth P)) (P, l) (φs, m) → simplifyAll φs = .ok ψs → Shows ψs M

/-! ## Checking what is shown -/

/-- What the atoms of the list have at all places of a variable. -/
def Formula.occupantsOf (As : List (Atom Symbol)) (x : Symbol) (φ : Formula Symbol) : List Occupant :=
  ((siteOccupants (As.map .atom)).map Prod.snd).filter fun o => φ.conditions.all fun a =>
    (a.pathsTo x).all fun path => (siteOccupants (As.map .atom)).contains (a.site path, o)

/-- `Shows` for the atoms of a list. -/
def ShowsAll (φs : List (Formula Symbol)) (As : List (Atom Symbol)) : Prop :=
  ∀ φ ∈ φs, ∀ x ∈ φ.vars, ∀ o ∈ φ.occupantsOf As x, ∀ a ∈ φ.conditions, ∀ path ∈ a.pathsTo x,
    ((Occupancy.ofFormulas φs).lookup (a.site path)).any Occupant.isFunctor = true →
      o ∈ (Occupancy.ofFormulas φs).lookup (a.site path)

instance (φs : List (Formula Symbol)) (As : List (Atom Symbol)) : Decidable (ShowsAll φs As) := by
  unfold ShowsAll
  infer_instance

/-- At most `n` passes end, with `ShowsAll` on the way. -/
def showsOnTheWay (depth : Nat) (As : List (Atom Symbol)) : Nat → List (Formula Symbol) → Lexicon → Bool
  | 0, _, _ => false
  | n + 1, φs, l =>
    match simplifyAll φs with
    | .error _ => true
    | .ok ψs =>
      let next := specialize depth ψs l
      decide (ShowsAll ψs As) && (decide (next.1 = φs) || showsOnTheWay depth As n next.1 next.2)

section Check

variable {φs ψs : List (Formula Symbol)} {As : List (Atom Symbol)} {M : Set (Atom Symbol)} {l : Lexicon}
  {depth n : Nat} {q : List (Formula Symbol) × Lexicon}

theorem PassesTo.eq_of_fixed {depth? : Option Nat} {p : List (Formula Symbol) × Lexicon}
    (h : PassesTo depth? p q) (hfixed : normalizePass depth? p.1 p.2 = .ok p) : q = p := by
  induction h with
  | refl => rfl
  | tail _ hlast ih =>
    rw [ih] at hlast
    exact Except.ok.inj (hlast.symm.trans hfixed)

theorem ShowsAll.shows (h : ShowsAll φs As) (hM : ∀ A ∈ M, A ∈ As) : Shows φs M := by
  have hsite : ∀ {site o}, StandsAt M site o → (site, o) ∈ siteOccupants (As.map .atom) := by
    rintro site o ⟨A, hA, path, ho, hsite⟩
    exact mem_siteOccupants.2
      ⟨.atom A, List.mem_map_of_mem (hM A hA), A, List.mem_singleton_self A, path, ho, hsite⟩
  intro φ hφ x o hstands a ha path hpath hany
  have hx : x ∈ φ.vars := List.mem_flatMap.2
    ⟨a, Formula.mem_atoms_of_mem_conditions ha, (Atom.mem_pathsTo.1 hpath).2.mem_vars⟩
  refine h φ hφ x hx o (List.mem_filter.2 ⟨?_, ?_⟩) a ha path hpath hany
  · exact List.mem_map_of_mem (f := Prod.snd) (hsite (hstands a ha path hpath))
  · refine List.all_eq_true.2 fun b hb => List.all_eq_true.2 fun path' hpath' => ?_
    exact List.contains_iff_mem.2 (hsite (hstands b hb path' hpath'))

theorem showsAll_of_passesTo (hl : l.Covers φs) (h : showsOnTheWay depth As n φs l = true)
    (hreach : PassesTo (some depth) (φs, l) q) (hsimplify : simplifyAll q.1 = .ok ψs) : ShowsAll ψs As := by
  induction n generalizing φs l with
  | zero => cases h
  | succ n ih =>
    rw [showsOnTheWay] at h
    have hhere : ∀ {χs}, simplifyAll φs = .ok χs → ShowsAll χs As ∧
        ((specialize depth χs l).1 = φs ∨
          showsOnTheWay depth As n (specialize depth χs l).1 (specialize depth χs l).2 = true) := by
      intro χs hχs
      simpa [hχs] using h
    rcases Relation.ReflTransGen.cases_head hreach with rfl | ⟨⟨φs', l'⟩, hpass, hrest⟩
    · exact (hhere hsimplify).1
    · obtain ⟨χs, hχs, hspecialize⟩ := normalizePass_eq_ok.1 hpass
      have hnext : specialize depth χs l = (φs', l') := hspecialize
      obtain ⟨hshown, hlater⟩ := hhere hχs
      rw [hnext] at hlater
      rcases hlater with hsame | hlater
      · -- the pass changed nothing, nor will later ones
        obtain rfl : φs' = φs := hsame
        rw [PassesTo.eq_of_fixed hrest (normalizePass_again hl hpass)] at hsimplify
        rw [← Except.ok.inj (hχs.symm.trans hsimplify)]
        exact hshown
      · exact ih (covers_of_normalizePass hl hpass) hlater hrest

end Check

end GameCircuit
