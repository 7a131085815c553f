import GameCircuit.Proofs.Candidates
import GameCircuit.Proofs.ChoiceOrder
import Mathlib.Data.Set.Finite.List
import Mathlib.Data.Set.Finite.Lattice

/-!
# Passes that specialize variables, one after another

A run of passes over a description (`PassRun`) replaces each formula by its variants over and over, with the same
names for the same new variables throughout.  The sites down to the depth of the run fill up, and from some pass on
no new constant or function appears at any of them (`PassRun.eventually_mem_order`).  A variant is the formula itself
or lighter than it, where a variable weighs more the less deep it stands (`Formula.weight_variant_lt`).
-/

namespace GameCircuit

open Filter

/-! ## Variants -/

namespace Formula

variable {ν : Naming} {look look' : Site → List Occupant} {depth : Nat} {φ ψ : Formula Symbol} {x : Symbol} {s : Site}
  {os : List Occupant} {o : Occupant} {choice : Symbol → Occupant}

theorem mem_options : (x, os) ∈ φ.options look depth ↔
    x ∈ φ.vars ∧ judge look depth (φ.profile x) = some os ∧ os.any Occupant.isFunctor = true := by
  rw [options, List.mem_filterMap]
  constructor
  · rintro ⟨y, hy, h⟩
    split at h
    · rename_i os' hos'
      split_ifs at h with hany
      obtain ⟨rfl, rfl⟩ := Prod.mk.inj (Option.some.inj h)
      exact ⟨List.mem_eraseDups.1 hy, hos', hany⟩
    · cases h
  · rintro ⟨hx, hos, hany⟩
    exact ⟨x, List.mem_eraseDups.2 hx, by simp only [hos, hany, if_true]⟩

theorem nodup_options (look : Site → List Occupant) (depth : Nat) (φ : Formula Symbol) :
    ((φ.options look depth).map Prod.fst).Nodup := by
  refine nodup_filterMap_map_fst (nodup_eraseDups φ.vars) fun y p hp => ?_
  split at hp
  · split_ifs at hp
    exact congrArg Prod.fst (Option.some.inj hp).symm
  · cases hp

theorem options_congr (h : ∀ s : Site, s.path.length ≤ depth → look s = look' s) (φ : Formula Symbol) :
    φ.options look depth = φ.options look' depth := by
  refine List.filterMap_congr fun x _ => ?_
  rw [judge_congr h]

theorem ne_nil_of_mem_options (h : (x, os) ∈ φ.options look depth) : os ≠ [] := by
  rintro rfl
  cases (mem_options.1 h).2.2

theorem nodup_of_mem_options (hlook : ∀ s, (look s).Nodup) (h : (x, os) ∈ φ.options look depth) : os.Nodup := by
  have hrel := judge_rel respected_rearranged
    (fun s (_ : s.path.length ≤ depth) => ⟨hlook s, hlook s, fun _ => Iff.rfl⟩) (φ.profile x)
  rw [(mem_options.1 h).2.1] at hrel
  cases hrel with
  | some hrearranged => exact hrearranged.1

/-- A site of a variable in a literal of the body is a place of the variable. -/
theorem mem_walk_of_mem_profile {alternatives : List (List Site)} {sites : List Site}
    (halternatives : alternatives ∈ φ.profile x) (hsites : sites ∈ alternatives) (hs : s ∈ sites) :
    (s, .free x) ∈ φ.walk := by
  obtain ⟨ψ, hψ, rfl⟩ := List.mem_map.1 halternatives
  have hatom : ∀ a : Atom Symbol, a ∈ φ.atoms → s ∈ a.places x → (s, .free x) ∈ φ.walk := by
    intro a ha hplace
    obtain ⟨path, hpath, rfl⟩ := List.mem_map.1 hplace
    rw [Atom.pathsTo_eq] at hpath
    obtain ⟨e, he, rfl⟩ := List.mem_map.1 hpath
    obtain ⟨hmem, hfree⟩ := List.mem_filter.1 he
    have hc : e.2 = .free x := of_decide_eq_true hfree
    exact List.mem_flatMap.2 ⟨a, ha, List.mem_map.2 ⟨e, hmem, by rw [hc]⟩⟩
  have hbody : ∀ a ∈ ψ.atoms, a ∈ φ.atoms := fun a ha => mem_atoms_of_mem_body hψ ha
  cases ψ with
  | atom a =>
    obtain rfl := List.mem_singleton.1 hsites
    exact hatom a (hbody a (List.mem_singleton_self a)) hs
  | neg χ =>
    obtain rfl := List.mem_singleton.1 hsites
    cases hs
  | rule head body =>
    obtain rfl := List.mem_singleton.1 hsites
    cases hs
  | disj φs =>
    obtain ⟨χ, hχ, rfl⟩ := List.mem_map.1 hsites
    cases χ with
    | atom a =>
      refine hatom a (hbody a ?_) hs
      rw [atoms_disj]
      exact List.mem_flatMap.2 ⟨.atom a, hχ, List.mem_singleton_self a⟩
    | neg χ => cases hs
    | rule head body => cases hs
    | disj ψs => cases hs

/-- A variable that may stand for something stands at a site that is not too deep. -/
theorem exists_mem_outline_of_judge (h : judge look depth (φ.profile x) = some os) (hne : os ≠ []) :
    ∃ s, (s, .free x) ∈ φ.outline depth := by
  obtain ⟨π, sites, hπ, ⟨alternatives, halternatives, hsites⟩, hshallow, -⟩ := exists_led_of_judge h hne
  exact ⟨π, mem_outline.2 ⟨mem_walk_of_mem_profile halternatives hsites hπ, hshallow π hπ⟩⟩

/-- What a variable may stand for depends on its places alone. -/
theorem mem_options_of_profile_eq (h : (x, os) ∈ φ.options look depth) (hprofile : ψ.profile x = φ.profile x) :
    (x, os) ∈ ψ.options look depth := by
  obtain ⟨-, hjudge, hany⟩ := mem_options.1 h
  rw [← hprofile] at hjudge
  obtain ⟨s, hs⟩ := exists_mem_outline_of_judge hjudge (ne_nil_of_mem_options h)
  exact mem_options.2 ⟨mem_vars_of_mem_walk (mem_outline.1 hs).1, hjudge, hany⟩

theorem exists_selects_options (look : Site → List Occupant) (depth : Nat) (φ : Formula Symbol) :
    ∃ choice, Selects (φ.options look depth) choice :=
  exists_selects_of_ne_nil (nodup_options look depth φ) fun _ hp => ne_nil_of_mem_options hp

/-- The variants of a formula, if these are the constants and functions with their sites. -/
def variants (ν : Naming) (depth : Nat) (entries : List (Site × Occupant)) (φ : Formula Symbol) :
    List (Formula Symbol) :=
  (assignments (φ.options (standing entries) depth)).map (φ.variant ν)

theorem mem_variants {entries : List (Site × Occupant)} : ψ ∈ φ.variants ν depth entries ↔
    ∃ choice, Selects (φ.options (standing entries) depth) choice ∧ φ.variant ν choice = ψ := by
  rw [variants, List.mem_map]
  simp only [mem_assignments (nodup_options _ _ _)]

end Formula

/-! ## Weights -/

/-- What a variable weighs with so many steps left below it, if functions have at most so many arguments. -/
def roomFor (arity : Nat) : Nat → Nat
  | 0 => 0
  | r + 1 => arity * roomFor arity r + 1

/-- What an entry of an outline weighs. -/
def entryWeight (arity depth : Nat) (e : Site × Content) : Nat :=
  match e.2 with
  | .filled _ => 0
  | .free _ => roomFor arity (depth + 1 - e.1.path.length)

/-- What entries of an outline weigh together. -/
def weigh (arity depth : Nat) (es : List (Site × Content)) : Nat :=
  es.foldr (fun e n => entryWeight arity depth e + n) 0

/-- What a formula weighs. -/
def Formula.weight (arity depth : Nat) (φ : Formula Symbol) : Nat := weigh arity depth (φ.outline depth)

section Weights

variable {arity depth : Nat} {es es' : List (Site × Content)} {e : Site × Content}

@[simp] theorem weigh_nil : weigh arity depth [] = 0 := rfl

@[simp] theorem weigh_cons : weigh arity depth (e :: es) = entryWeight arity depth e + weigh arity depth es := rfl

theorem weigh_append : weigh arity depth (es ++ es') = weigh arity depth es + weigh arity depth es' := by
  induction es with
  | nil => simp
  | cons e es ih => simp [ih, Nat.add_assoc]

theorem weigh_le {n : Nat} (h : ∀ e ∈ es, entryWeight arity depth e ≤ n) :
    weigh arity depth es ≤ es.length * n := by
  induction es with
  | nil => simp
  | cons e es ih =>
    obtain ⟨he, hes⟩ := List.forall_mem_cons.1 h
    have hrest := ih hes
    rw [weigh_cons, List.length_cons, Nat.succ_mul]
    omega

/-- If no entry is replaced by heavier ones, the whole does not get heavier; if some entry is by lighter ones, it
gets lighter. -/
theorem weigh_flatMap_le {g : Site × Content → List (Site × Content)}
    (h : ∀ e ∈ es, weigh arity depth (g e) ≤ entryWeight arity depth e) :
    weigh arity depth (es.flatMap g) ≤ weigh arity depth es ∧
      ((∃ e ∈ es, weigh arity depth (g e) < entryWeight arity depth e) →
        weigh arity depth (es.flatMap g) < weigh arity depth es) := by
  induction es with
  | nil => simp
  | cons e es ih =>
    obtain ⟨he, hes⟩ := List.forall_mem_cons.1 h
    obtain ⟨hle, hlt⟩ := ih hes
    rw [List.flatMap_cons, weigh_append, weigh_cons]
    refine ⟨by omega, ?_⟩
    rintro ⟨e', he', hlighter⟩
    rcases List.mem_cons.1 he' with rfl | hmem
    · omega
    · have hrest := hlt ⟨e', hmem, hlighter⟩
      omega

variable {ν : Naming} {choice : Symbol → Occupant} {s : Site} {x : Symbol}

/-- The arguments of a function in place of a variable weigh no more than as many variables one step below. -/
theorem weigh_arguments_le (arity depth : Nat) (ν : Naming) (x f : Symbol) (n : Nat) (s : Site) :
    weigh arity depth (((List.range n).map fun i => (s.below i, Content.free (ν x f i))).filter
      fun e => e.1.path.length ≤ depth) ≤ n * roomFor arity (depth - s.path.length) := by
  have heach : ∀ e ∈ ((List.range n).map fun i => (s.below i, Content.free (ν x f i))).filter
      fun e => e.1.path.length ≤ depth, entryWeight arity depth e ≤ roomFor arity (depth - s.path.length) := by
    intro e he
    obtain ⟨i, -, rfl⟩ := List.mem_map.1 (List.mem_filter.1 he).1
    show roomFor arity (depth + 1 - (s.path.length + 1)) ≤ _
    rw [Nat.add_sub_add_right]
  refine (weigh_le heach).trans (Nat.mul_le_mul_right _ ((List.length_filter_le _ _).trans ?_))
  rw [List.length_map, List.length_range]

/-- A function with its arguments is lighter than the variable that it replaces. -/
theorem weigh_growth_lt {f : Symbol} {n : Nat} (hn : n ≤ arity) (hs : s.path.length ≤ depth)
    (hchoice : choice x = .functor f n) :
    weigh arity depth (ν.growth choice depth (s, .free x)) < entryWeight arity depth (s, .free x) := by
  have hgrowth : ν.growth choice depth (s, .free x) = (s, .filled (.functor f n)) ::
      ((List.range n).map fun i => (s.below i, Content.free (ν x f i))).filter fun e => e.1.path.length ≤ depth := by
    show ((ν.branch x (choice x) s).filter fun e => e.1.path.length ≤ depth) = _
    rw [hchoice, Naming.branch, List.filter_cons_of_pos (by simpa using hs)]
  have hentry : entryWeight arity depth (s, .free x) = arity * roomFor arity (depth - s.path.length) + 1 := by
    show roomFor arity (depth + 1 - s.path.length) = _
    rw [Nat.succ_sub hs, roomFor]
  have harguments := weigh_arguments_le arity depth ν x f n s
  have hprod := Nat.mul_le_mul_right (roomFor arity (depth - s.path.length)) hn
  rw [hgrowth, weigh_cons, hentry]
  show 0 + _ < _
  omega

theorem weigh_growth_const (hs : s.path.length ≤ depth) (hchoice : choice x = .const) :
    weigh arity depth (ν.growth choice depth (s, .free x)) = entryWeight arity depth (s, .free x) := by
  have hgrowth : ν.growth choice depth (s, .free x) = [(s, .free x)] := by
    show ((ν.branch x (choice x) s).filter fun e => e.1.path.length ≤ depth) = _
    rw [hchoice, Naming.branch, List.filter_cons_of_pos (by simpa using hs), List.filter_nil]
  rw [hgrowth, weigh_cons, weigh_nil, Nat.add_zero]

namespace Formula

variable {φ : Formula Symbol} {look : Site → List Occupant}

/-- A variant other than the formula itself is lighter. -/
theorem weight_variant_lt (ν : Naming) (hselects : Selects (φ.options look depth) choice)
    (harity : ∀ x f n, choice x = .functor f n → n ≤ arity) (hne : choice ≠ fun _ => .const) :
    (φ.variant ν choice).weight arity depth < φ.weight arity depth := by
  rw [weight, weight, outline_variant]
  refine (weigh_flatMap_le fun e he => ?_).2 ?_
  · have hs := (mem_outline.1 he).2
    obtain ⟨s, c⟩ := e
    cases c with
    | filled o =>
      show weigh arity depth ([(s, .filled o)].filter fun e => e.1.path.length ≤ depth) ≤ 0
      rw [List.filter_cons_of_pos (by simpa using hs)]
      exact le_rfl
    | free x =>
      cases hchoice : choice x with
      | const => exact (weigh_growth_const hs hchoice).le
      | functor f n => exact (weigh_growth_lt (harity x f n hchoice) hs hchoice).le
  · -- some variable is replaced, and it stands at a place that counts
    obtain ⟨x, hx⟩ := Function.ne_iff.1 hne
    obtain ⟨os, hos, -⟩ := hselects.exists_mem_options hx
    obtain ⟨s, hs⟩ := exists_mem_outline_of_judge (mem_options.1 hos).2.1 (ne_nil_of_mem_options hos)
    refine ⟨_, hs, ?_⟩
    cases hchoice : choice x with
    | const => exact absurd hchoice hx
    | functor f n => exact weigh_growth_lt (harity x f n hchoice) (mem_outline.1 hs).2 hchoice

theorem variant_eq_or_weight_lt (ν : Naming) (hselects : Selects (φ.options look depth) choice)
    (harity : ∀ x f n, choice x = .functor f n → n ≤ arity) :
    φ.variant ν choice = φ ∨ (φ.variant ν choice).weight arity depth < φ.weight arity depth := by
  by_cases hconst : choice = fun _ => .const
  · rw [hconst]
    exact .inl (variant_const ν φ)
  · exact .inr (weight_variant_lt ν hselects harity hconst)

end Formula

end Weights

/-! ## Runs -/

/-- The number of arguments of a function. -/
def Occupant.arity : Occupant → Nat
  | const => 0
  | functor _ arity => arity

/-- Passes that replace the formulas of a description by their variants, one after another. -/
structure PassRun where
  /-- How deep variables are replaced. -/
  depth : Nat
  /-- The names of new variables. -/
  naming : Naming
  /-- The description before each pass. -/
  stage : Nat → List (Formula Symbol)
  step : ∀ k, stage (k + 1) =
    ((stage k).flatMap (Formula.variants naming depth (occupiedSites depth (stage k)))).eraseDups
  separates : ∀ k, ∀ φ ∈ stage k, ∀ choice,
    Selects (φ.options (standing (occupiedSites depth (stage k))) depth) choice → naming.Separates choice φ.vars

namespace PassRun

variable (R : PassRun) {k : Nat} {φ ψ : Formula Symbol} {p : Site × Occupant} {choice : Symbol → Occupant}

/-- What stands where before a pass, in order. -/
def order (k : Nat) : List (Site × Occupant) := occupiedSites R.depth (R.stage k)

/-- What the variables of a formula may stand for in a pass. -/
def options (k : Nat) (φ : Formula Symbol) : List (Symbol × List Occupant) :=
  φ.options (standing (R.order k)) R.depth

/-- What a formula is replaced by in a pass. -/
def variants (k : Nat) (φ : Formula Symbol) : List (Formula Symbol) := φ.variants R.naming R.depth (R.order k)

/-- The run from a later pass on. -/
def drop (n : Nat) : PassRun where
  depth := R.depth
  naming := R.naming
  stage k := R.stage (n + k)
  step k := R.step (n + k)
  separates k := R.separates (n + k)

theorem nodup_order (k : Nat) : (R.order k).Nodup := nodup_occupiedSites _ _

theorem nodup_options (k : Nat) (φ : Formula Symbol) : ((R.options k φ).map Prod.fst).Nodup :=
  Formula.nodup_options _ _ _

theorem nodup_of_mem_options : ∀ q ∈ R.options k φ, q.2.Nodup := fun _ hq =>
  Formula.nodup_of_mem_options (fun s => nodup_standing (R.nodup_order k) s) hq

variable {R}

theorem mem_variants : ψ ∈ R.variants k φ ↔
    ∃ choice, Selects (R.options k φ) choice ∧ φ.variant R.naming choice = ψ := Formula.mem_variants

theorem mem_stage_succ : ψ ∈ R.stage (k + 1) ↔ ∃ φ ∈ R.stage k, ψ ∈ R.variants k φ := by
  rw [R.step, List.mem_eraseDups, List.mem_flatMap]
  rfl

theorem mem_order : p ∈ R.order k ↔ ∃ φ ∈ R.stage k, (p.1, .filled p.2) ∈ φ.outline R.depth := by
  rw [order, occupiedSites, List.mem_eraseDups, List.mem_flatMap]
  exact exists_congr fun φ => and_congr_right fun _ => mem_filledEntries

/-- What a variable is replaced by stands somewhere before the pass. -/
theorem exists_mem_order_of_selects {x : Symbol} (h : Selects (R.options k φ) choice)
    (hfunctor : choice x ≠ .const) : ∃ s, (s, choice x) ∈ R.order k := by
  obtain ⟨os, hos, hmem⟩ := h.exists_mem_options hfunctor
  obtain ⟨s, hs⟩ := exists_mem_of_judge (Formula.mem_options.1 hos).2.1 hmem
  exact ⟨s, mem_standing.1 hs⟩

/-- What stands somewhere stays there. -/
theorem mem_order_succ (h : p ∈ R.order k) : p ∈ R.order (k + 1) := by
  obtain ⟨φ, hφ, hmem⟩ := mem_order.1 h
  obtain ⟨choice, hselects⟩ := Formula.exists_selects_options (standing (R.order k)) R.depth φ
  refine mem_order.2 ⟨φ.variant R.naming choice, mem_stage_succ.2 ⟨φ, hφ, mem_variants.2 ⟨choice, hselects, rfl⟩⟩, ?_⟩
  rw [Formula.outline_variant]
  refine List.mem_flatMap.2 ⟨_, hmem, List.mem_filter.2 ⟨List.mem_singleton_self _, ?_⟩⟩
  simpa using (Formula.mem_outline.1 hmem).2

theorem mem_order_of_le {j : Nat} (hjk : j ≤ k) (h : p ∈ R.order j) : p ∈ R.order k := by
  induction k, hjk using Nat.le_induction with
  | base => exact h
  | succ k _ ih => exact mem_order_succ ih

/-- No constant or function appears that was nowhere in the beginning. -/
theorem exists_mem_order_zero (h : p ∈ R.order k) : ∃ s, (s, p.2) ∈ R.order 0 := by
  induction k generalizing p with
  | zero => exact ⟨p.1, h⟩
  | succ k ih =>
    obtain ⟨ψ, hψ, hmem⟩ := mem_order.1 h
    obtain ⟨φ, hφ, hvariant⟩ := mem_stage_succ.1 hψ
    obtain ⟨choice, hselects, rfl⟩ := mem_variants.1 hvariant
    rcases Formula.mem_outline_variant_filled hmem with hold | ⟨x, hx, hfunctor, -⟩
    · exact ih (mem_order.2 ⟨φ, hφ, hold⟩)
    · obtain ⟨s, hs⟩ := exists_mem_order_of_selects hselects (x := x) (by rw [hx]; exact hfunctor)
      rw [hx] at hs
      exact ih (p := (s, p.2)) hs

variable (R) in
/-- The largest number of arguments of a function that stands somewhere. -/
def arity : Nat := (R.order 0).foldr (fun p n => max p.2.arity n) 0

theorem arity_le (hselects : Selects (R.options k φ) choice) {x f : Symbol} {n : Nat}
    (hx : choice x = .functor f n) : n ≤ R.arity := by
  have hfold : ∀ es : List (Site × Occupant), ∀ e ∈ es, e.2.arity ≤ es.foldr (fun p n => max p.2.arity n) 0 := by
    intro es
    induction es with
    | nil => simp
    | cons e es ih =>
      rw [List.foldr_cons]
      refine List.forall_mem_cons.2 ⟨le_max_left _ _, fun e' he' => (ih e' he').trans (le_max_right _ _)⟩
  obtain ⟨s, hs⟩ := exists_mem_order_of_selects hselects (x := x) (by rw [hx]; simp)
  obtain ⟨s', hs'⟩ := exists_mem_order_zero hs
  rw [hx] at hs'
  exact hfold _ _ hs'

/-- A variant of a formula is the formula itself or lighter. -/
theorem eq_or_weight_lt (h : ψ ∈ R.variants k φ) :
    ψ = φ ∨ ψ.weight R.arity R.depth < φ.weight R.arity R.depth := by
  obtain ⟨choice, hselects, rfl⟩ := mem_variants.1 h
  exact Formula.variant_eq_or_weight_lt R.naming hselects fun x f n hx => arity_le hselects hx

/-- A choice that gives back the formula replaces nothing. -/
theorem eq_const_of_variant_eq (hselects : Selects (R.options k φ) choice) (h : φ.variant R.naming choice = φ) :
    choice = fun _ => .const := by
  by_contra hne
  have hlt := Formula.weight_variant_lt R.naming hselects (fun x f n hx => arity_le hselects hx) hne
  rw [h] at hlt
  exact lt_irrefl _ hlt

/-- The sites of a run lie among finitely many. -/
theorem exists_bounds (R : PassRun) : ∃ (relations : List Symbol) (n : Nat), R.arity ≤ n ∧
    ∀ k, ∀ φ ∈ R.stage k, ∀ e ∈ φ.outline R.depth, e.1.relation ∈ relations ∧ ∀ i ∈ e.1.path, i < n := by
  have hbound : ∀ ns : List Nat, ∃ n, ∀ i ∈ ns, i < n := by
    intro ns
    induction ns with
    | nil => exact ⟨0, by simp⟩
    | cons i ns ih =>
      obtain ⟨n, hn⟩ := ih
      refine ⟨max n (i + 1), List.forall_mem_cons.2 ⟨by omega, fun j hj => ?_⟩⟩
      have hlt := hn j hj
      omega
  let entries := (R.stage 0).flatMap (Formula.outline R.depth)
  obtain ⟨n, hn⟩ := hbound (entries.flatMap fun e => e.1.path)
  refine ⟨entries.map fun e => e.1.relation, max n R.arity, le_max_right _ _, fun k => ?_⟩
  induction k with
  | zero =>
    intro φ hφ e he
    have hentry : e ∈ entries := List.mem_flatMap.2 ⟨φ, hφ, he⟩
    refine ⟨List.mem_map_of_mem hentry, fun i hi => ?_⟩
    exact lt_max_of_lt_left (hn i (List.mem_flatMap.2 ⟨e, hentry, hi⟩))
  | succ k ih =>
    intro ψ hψ e he
    obtain ⟨φ, hφ, hvariant⟩ := mem_stage_succ.1 hψ
    obtain ⟨choice, hselects, rfl⟩ := mem_variants.1 hvariant
    rw [Formula.outline_variant] at he
    obtain ⟨⟨s, c⟩, hs, hgrowth⟩ := List.mem_flatMap.1 he
    obtain ⟨hrelation, hpath⟩ := ih φ hφ _ hs
    have hmem := (List.mem_filter.1 hgrowth).1
    cases c with
    | filled o =>
      rw [List.mem_singleton.1 hmem]
      exact ⟨hrelation, hpath⟩
    | free x =>
      rcases Naming.mem_branch.1 hmem with ⟨-, rfl⟩ | ⟨f, m, hx, rfl | ⟨i, hi, rfl⟩⟩
      · exact ⟨hrelation, hpath⟩
      · exact ⟨hrelation, hpath⟩
      · refine ⟨hrelation, List.forall_mem_cons.2 ⟨?_, hpath⟩⟩
        exact lt_max_of_lt_right (Nat.lt_of_lt_of_le hi (arity_le hselects hx))

/-- What stands where before the passes lies in a finite set. -/
theorem exists_finite (R : PassRun) : ∃ U : Set (Site × Occupant), U.Finite ∧ ∀ k, ∀ p ∈ R.order k, p ∈ U := by
  obtain ⟨relations, n, -, hbounds⟩ := R.exists_bounds
  let paths : Set Path := (fun l : List (Fin n) => l.map Fin.val) '' {l | l.length ≤ R.depth}
  have hpaths : paths.Finite := (List.finite_length_le (Fin n) R.depth).image _
  let sites : Set Site := (fun q : Symbol × Path => ⟨q.1, q.2⟩) '' ({r | r ∈ relations} ×ˢ paths)
  have hsites : sites.Finite := ((List.finite_toSet relations).prod hpaths).image _
  refine ⟨sites ×ˢ {o | ∃ s, (s, o) ∈ R.order 0}, hsites.prod ?_, fun k p hp => ?_⟩
  · refine Set.Finite.subset (List.finite_toSet ((R.order 0).map Prod.snd)) ?_
    rintro o ⟨s, hs⟩
    exact List.mem_map.2 ⟨(s, o), hs, rfl⟩
  · refine ⟨?_, exists_mem_order_zero hp⟩
    obtain ⟨φ, hφ, hmem⟩ := mem_order.1 hp
    obtain ⟨hrelation, hpath⟩ := hbounds k φ hφ _ hmem
    refine ⟨(p.1.relation, p.1.path), ⟨hrelation, ?_⟩, rfl⟩
    refine ⟨p.1.path.attach.map fun i => ⟨i.1, hpath i.1 i.2⟩, ?_, ?_⟩
    · simpa using (Formula.mem_outline.1 hmem).2
    · simp

/-- The same stands at the sites before each pass. -/
def Steady (R : PassRun) : Prop := ∀ k p, p ∈ R.order k ↔ p ∈ R.order 0

/-- From some pass on, nothing appears at a site where it was not before. -/
theorem exists_steady_drop (R : PassRun) : ∃ n, (R.drop n).Steady := by
  obtain ⟨U, hU, hmem⟩ := R.exists_finite
  have hbound : ∀ k, (R.order k).length ≤ hU.toFinset.card := by
    intro k
    rw [← List.toFinset_card_of_nodup (R.nodup_order k)]
    refine Finset.card_le_card fun p hp => ?_
    exact hU.mem_toFinset.2 (hmem k p (List.mem_toFinset.1 hp))
  have hsubperm : ∀ {j k}, j ≤ k → (R.order j).Subperm (R.order k) := fun hjk =>
    List.subperm_of_subset (R.nodup_order _) fun p hp => mem_order_of_le hjk hp
  -- the number of free places falls, and so settles
  obtain ⟨n, hn⟩ := exists_eventually_eq_of_descent (u := fun k => hU.toFinset.card - (R.order k).length) (μ := id)
    (Eventually.of_forall fun k => by
      have hle := (hsubperm (Nat.le_add_right k 1)).length_le
      simp only [id]
      omega)
  obtain ⟨K, hK⟩ := eventually_atTop.1 hn
  refine ⟨K, fun k p => ⟨fun hp => ?_, fun hp => mem_order_of_le (Nat.zero_le k) hp⟩⟩
  have hlength : (R.order (K + k)).length ≤ (R.order K).length := by
    have h1 := hK K le_rfl
    have h2 := hK (K + k) (Nat.le_add_right K k)
    have h3 := hbound K
    have h4 := hbound (K + k)
    omega
  exact ((hsubperm (Nat.le_add_right K k)).perm_of_length_le hlength).mem_iff.2 hp

end PassRun

end GameCircuit
