import GameCircuit.Canonical.Occupancy
import GameCircuit.Proofs.Instances
import GameCircuit.Proofs.OrderedMaps
import Mathlib.Data.List.Basic
import Mathlib.Logic.Relation

/-!
# What stands where, as a relation

`Term.HasAt` and `Atom.HasAt` say which term stands at a path.  The lists of occupants and of variables
with their paths are read off them, so that what replacing variables does to these lists follows from what
it does to the terms at a path.
-/

namespace GameCircuit

/-- Places of arguments hold what the arguments hold there, if each argument adds it to the rest. -/
theorem mem_argumentsOnto {α : Type} (g : Term Symbol → Path → List α → List α)
    (S : Term Symbol → Path → α → Prop) {ts : List (Term Symbol)} {path : Path} {rest : List α} {x : α}
    (h : ∀ t ∈ ts, ∀ path rest, x ∈ g t path rest ↔ S t path x ∨ x ∈ rest) :
    x ∈ argumentsOnto (ts.map g) path rest ↔ (∃ i t, ts[i]? = some t ∧ S t (i :: path) x) ∨ x ∈ rest := by
  suffices hfrom : ∀ k, x ∈ ((ts.map g).zipIdx k).foldr (fun p rest => p.1 (p.2 :: path) rest) rest ↔
      (∃ i t, ts[i]? = some t ∧ S t ((k + i) :: path) x) ∨ x ∈ rest by
    have hzero := hfrom 0
    simp only [Nat.zero_add] at hzero
    exact hzero
  induction ts with
  | nil => simp
  | cons t ts ih =>
    intro k
    obtain ⟨ht, hts⟩ := List.forall_mem_cons.1 h
    rw [List.map_cons, List.zipIdx_cons, List.foldr_cons, ht, ih hts (k + 1), ← or_assoc]
    refine or_congr_left ⟨?_, ?_⟩
    · rintro (hS | ⟨i, u, hu, hS⟩)
      · exact ⟨0, t, rfl, hS⟩
      · refine ⟨i + 1, u, hu, ?_⟩
        rwa [show k + (i + 1) = k + 1 + i by omega]
    · rintro ⟨i, u, hu, hS⟩
      cases i with
      | zero =>
        obtain rfl : t = u := Option.some.inj hu
        exact .inl hS
      | succ i =>
        refine .inr ⟨i, u, hu, ?_⟩
        rwa [show k + 1 + i = k + (i + 1) by omega]

namespace Term

/-- What a term other than a variable is at its place. -/
def occupant? : Term Symbol → Option Occupant
  | .const _ => some .const
  | .var _ => none
  | .app f args => some (.functor f args.length)

/-- One step down, from a term with the path to it to one of its arguments. -/
def Inside (p q : Path × Term Symbol) : Prop :=
  ∃ f args i, p.2 = .app f args ∧ args[i]? = some q.2 ∧ q.1 = i :: p.1

/-- The term `u` stands at the path `q`, if the path `p` leads to the term `t`. -/
def HasAt (t : Term Symbol) (p q : Path) (u : Term Symbol) : Prop :=
  Relation.ReflTransGen Inside (p, t) (q, u)

variable {σ : Symbol → Term Symbol} {t u : Term Symbol} {ts : List (Term Symbol)} {f c x : Symbol} {p q : Path}

theorem HasAt.refl (t : Term Symbol) (p : Path) : t.HasAt p p t := Relation.ReflTransGen.refl

theorem hasAt_iff : t.HasAt p q u ↔ (q = p ∧ u = t) ∨
    ∃ f args i, ∃ s : Term Symbol, t = .app f args ∧ args[i]? = some s ∧ s.HasAt (i :: p) q u := by
  rw [HasAt, Relation.ReflTransGen.cases_head_iff]
  refine or_congr ?_ ⟨?_, ?_⟩
  · rw [Prod.mk.injEq, eq_comm, eq_comm (a := t)]
  · rintro ⟨⟨r, s⟩, ⟨f, args, i, ht, hs, hr⟩, hrest⟩
    obtain rfl : r = i :: p := hr
    exact ⟨f, args, i, s, ht, hs, hrest⟩
  · rintro ⟨f, args, i, s, ht, hs, hrest⟩
    exact ⟨(i :: p, s), ⟨f, args, i, ht, hs, rfl⟩, hrest⟩

@[simp] theorem hasAt_const : (const c).HasAt p q u ↔ q = p ∧ u = .const c := by simp [hasAt_iff (t := const c)]

@[simp] theorem hasAt_var : (var x).HasAt p q u ↔ q = p ∧ u = .var x := by simp [hasAt_iff (t := var x)]

@[simp] theorem hasAt_app : (app f ts).HasAt p q u ↔ (q = p ∧ u = .app f ts) ∨
    ∃ i, ∃ t : Term Symbol, ts[i]? = some t ∧ t.HasAt (i :: p) q u := by
  rw [hasAt_iff]
  simp

theorem mem_occupantsOnto {o : Path × Occupant} {rest : List (Path × Occupant)} :
    o ∈ t.occupantsOnto p rest ↔ (∃ u, t.HasAt p o.1 u ∧ u.occupant? = some o.2) ∨ o ∈ rest := by
  induction t generalizing p rest with
  | const c => simp [occupantsOnto, occupant?, Prod.ext_iff, eq_comm]
  | var x => simp [occupantsOnto, occupant?]
  | app f ts ih =>
    have harguments : o ∈ argumentsOnto (ts.map occupantsOnto) p rest ↔ _ :=
      mem_argumentsOnto _ (fun t p o => ∃ u, t.HasAt p o.1 u ∧ u.occupant? = some o.2) fun t ht _ _ => ih t ht
    rw [occupantsOnto, fold_app, ← occupantsOnto, List.length_map, List.mem_cons, harguments, ← or_assoc]
    refine or_congr_left ⟨?_, ?_⟩
    · rintro (rfl | ⟨i, t, ht, u, hu, ho⟩)
      · exact ⟨.app f ts, HasAt.refl _ _, rfl⟩
      · exact ⟨u, hasAt_app.2 (.inr ⟨i, t, ht, hu⟩), ho⟩
    · rintro ⟨u, hu, ho⟩
      rcases hasAt_app.1 hu with ⟨hp, rfl⟩ | ⟨i, t, ht, hu⟩
      · exact .inl (Prod.ext hp (Option.some.inj ho).symm)
      · exact .inr ⟨i, t, ht, u, hu, ho⟩

theorem mem_variablePathsOnto {o : Path × Symbol} {rest : List (Path × Symbol)} :
    o ∈ t.variablePathsOnto p rest ↔ t.HasAt p o.1 (.var o.2) ∨ o ∈ rest := by
  induction t generalizing p rest with
  | const c => simp [variablePathsOnto]
  | var x => simp [variablePathsOnto, Prod.ext_iff]
  | app f ts ih =>
    have harguments : o ∈ argumentsOnto (ts.map variablePathsOnto) p rest ↔ _ :=
      mem_argumentsOnto _ (fun t p o => t.HasAt p o.1 (.var o.2)) fun t ht _ _ => ih t ht
    rw [variablePathsOnto, fold_app, ← variablePathsOnto, harguments, hasAt_app]
    simp

theorem HasAt.subst (σ : Symbol → Term Symbol) (h : t.HasAt p q u) : (t.subst σ).HasAt p q (u.subst σ) := by
  refine Relation.ReflTransGen.lift (fun r : Path × Term Symbol => (r.1, r.2.subst σ)) ?_ _ _ h
  rintro ⟨r, s⟩ ⟨r', s'⟩ ⟨f, args, i, hs, hs', hr⟩
  obtain rfl : s = .app f args := hs
  refine ⟨f, args.map (Term.subst σ), i, subst_app σ f args, ?_, hr⟩
  rw [List.getElem?_map, hs']
  rfl

/-- If variables are replaced by constants, nothing new stands inside. -/
theorem HasAt.of_subst (hσ : ∀ x, ∃ c, σ x = .const c) (h : (t.subst σ).HasAt p q u) :
    ∃ s, t.HasAt p q s ∧ u = s.subst σ := by
  induction t generalizing p with
  | const c =>
    obtain ⟨rfl, rfl⟩ := hasAt_const.1 h
    exact ⟨.const c, HasAt.refl _ _, rfl⟩
  | var x =>
    obtain ⟨c, hc⟩ := hσ x
    rw [subst_var, hc] at h
    obtain ⟨rfl, rfl⟩ := hasAt_const.1 h
    exact ⟨.var x, HasAt.refl _ _, hc.symm⟩
  | app f ts ih =>
    rw [subst_app] at h
    rcases hasAt_app.1 h with ⟨rfl, rfl⟩ | ⟨i, t', ht', hu⟩
    · exact ⟨.app f ts, HasAt.refl _ _, (subst_app σ f ts).symm⟩
    · rw [List.getElem?_map, Option.map_eq_some_iff] at ht'
      obtain ⟨t, ht, rfl⟩ := ht'
      obtain ⟨s, hs, hus⟩ := ih t (List.mem_of_getElem? ht) hu
      exact ⟨s, hasAt_app.2 (.inr ⟨i, t, ht, hs⟩), hus⟩

theorem HasAt.mem_vars (h : t.HasAt p q (.var x)) : x ∈ t.vars := by
  induction t generalizing p with
  | const c => simp at h
  | var y =>
    obtain ⟨-, heq⟩ := hasAt_var.1 h
    rw [vars_var, Term.var.inj heq]
    exact List.mem_singleton_self y
  | app f ts ih =>
    rcases hasAt_app.1 h with ⟨-, heq⟩ | ⟨i, t, ht, hx⟩
    · cases heq
    · rw [vars_app]
      exact List.mem_flatMap.2 ⟨t, List.mem_of_getElem? ht, ih t (List.mem_of_getElem? ht) hx⟩

theorem exists_hasAt_of_mem_vars (p : Path) (h : x ∈ t.vars) : ∃ q, t.HasAt p q (.var x) := by
  induction t generalizing p with
  | const c => simp at h
  | var y => exact ⟨p, by simpa using h⟩
  | app f ts ih =>
    rw [vars_app] at h
    obtain ⟨t, ht, hx⟩ := List.mem_flatMap.1 h
    obtain ⟨i, hi⟩ := List.mem_iff_getElem?.1 ht
    obtain ⟨q, hq⟩ := ih t ht (i :: p) hx
    exact ⟨q, hasAt_app.2 (.inr ⟨i, t, hi, hq⟩)⟩

end Term

namespace Atom

/-- The term stands at the path in the atom. -/
def HasAt (a : Atom Symbol) (path : Path) (t : Term Symbol) : Prop :=
  ∃ i, ∃ s : Term Symbol, a.args[i]? = some s ∧ s.HasAt [i] path t

variable {σ : Symbol → Term Symbol} {a : Atom Symbol} {path : Path} {t : Term Symbol} {o : Occupant} {x : Symbol}

theorem mem_occupants : (path, o) ∈ a.occupants ↔
    a.relation ≠ Keyword.distinct ∧ ∃ t, a.HasAt path t ∧ t.occupant? = some o := by
  rw [occupants]
  split_ifs with hd
  · simp [hd]
  · have harguments : (path, o) ∈ argumentsOnto (a.args.map Term.occupantsOnto) [] [] ↔ _ :=
      mem_argumentsOnto _ (fun t p o => ∃ u, t.HasAt p o.1 u ∧ u.occupant? = some o.2)
        fun t _ _ _ => Term.mem_occupantsOnto
    rw [harguments]
    simp only [List.not_mem_nil, or_false, ne_eq, hd, not_false_eq_true, true_and]
    constructor
    · rintro ⟨i, s, hs, t, ht, ho⟩
      exact ⟨t, ⟨i, s, hs, ht⟩, ho⟩
    · rintro ⟨t, ⟨i, s, hs, ht⟩, ho⟩
      exact ⟨i, s, hs, t, ht, ho⟩

theorem mem_variablePaths : (path, x) ∈ a.variablePaths ↔
    a.relation ≠ Keyword.distinct ∧ a.HasAt path (.var x) := by
  rw [variablePaths]
  split_ifs with hd
  · simp [hd]
  · have harguments : (path, x) ∈ argumentsOnto (a.args.map Term.variablePathsOnto) [] [] ↔ _ :=
      mem_argumentsOnto _ (fun t p o => t.HasAt p o.1 (.var o.2)) fun t _ _ _ => Term.mem_variablePathsOnto
    rw [harguments]
    simp [hd, HasAt]

theorem mem_pathsTo : path ∈ a.pathsTo x ↔ a.relation ≠ Keyword.distinct ∧ a.HasAt path (.var x) := by
  rw [← mem_variablePaths]
  simp [pathsTo]

theorem HasAt.subst (σ : Symbol → Term Symbol) (h : a.HasAt path t) : (a.subst σ).HasAt path (t.subst σ) := by
  obtain ⟨i, s, hs, ht⟩ := h
  refine ⟨i, s.subst σ, ?_, ht.subst σ⟩
  rw [Atom.subst, List.getElem?_map, hs]
  rfl

theorem HasAt.of_subst (hσ : ∀ x, ∃ c, σ x = .const c) (h : (a.subst σ).HasAt path t) :
    ∃ s, a.HasAt path s ∧ t = s.subst σ := by
  obtain ⟨i, s', hs', ht⟩ := h
  rw [Atom.subst, List.getElem?_map, Option.map_eq_some_iff] at hs'
  obtain ⟨s, hs, rfl⟩ := hs'
  obtain ⟨u, hu, htu⟩ := ht.of_subst hσ
  exact ⟨u, ⟨i, s, hs, hu⟩, htu⟩

theorem HasAt.mem_vars (h : a.HasAt path (.var x)) : x ∈ a.vars := by
  obtain ⟨i, s, hs, hx⟩ := h
  exact List.mem_flatMap.2 ⟨s, List.mem_of_getElem? hs, hx.mem_vars⟩

theorem exists_hasAt_of_mem_vars (h : x ∈ a.vars) : ∃ path, a.HasAt path (.var x) := by
  obtain ⟨t, ht, hx⟩ := List.mem_flatMap.1 h
  obtain ⟨i, hi⟩ := List.mem_iff_getElem?.1 ht
  obtain ⟨path, hpath⟩ := Term.exists_hasAt_of_mem_vars [i] hx
  exact ⟨path, i, t, hi, hpath⟩

/-- Where a variable stood stands what replaces it. -/
theorem mem_occupants_of_mem_pathsTo (h : path ∈ a.pathsTo x) (ho : (σ x).occupant? = some o) :
    (path, o) ∈ (a.subst σ).occupants := by
  obtain ⟨hd, hx⟩ := mem_pathsTo.1 h
  exact mem_occupants.2 ⟨hd, _, hx.subst σ, ho⟩

end Atom

/-! ## Sites -/

variable {φs ψs : List (Formula Symbol)} {site : Site} {o : Occupant}

theorem mem_siteOccupants : (site, o) ∈ siteOccupants φs ↔
    ∃ φ ∈ φs, ∃ a ∈ φ.atoms, ∃ path, (path, o) ∈ a.occupants ∧ a.site path = site := by
  constructor
  · intro h
    obtain ⟨a, ha, hmem⟩ := List.mem_flatMap.1 h
    obtain ⟨φ, hφ, haφ⟩ := List.mem_flatMap.1 ha
    obtain ⟨p, hp, heq⟩ := List.mem_map.1 hmem
    obtain ⟨hsite, rfl⟩ := Prod.mk.inj heq
    exact ⟨φ, hφ, a, haφ, p.1, hp, hsite⟩
  · rintro ⟨φ, hφ, a, ha, path, ho, rfl⟩
    refine List.mem_flatMap.2 ⟨a, List.mem_flatMap.2 ⟨φ, hφ, ha⟩, ?_⟩
    exact List.mem_map.2 ⟨(path, o), ho, rfl⟩

namespace Occupancy

theorem mem_lookup : o ∈ (ofFormulas φs).lookup site ↔ (site, o) ∈ siteOccupants φs := by
  rw [ofFormulas]
  suffices hfold : ∀ (entries : List (Site × Occupant)) (occupancy : Occupancy),
      o ∈ (entries.foldl (fun occupancy e => occupancy.alter e.1 fun os? => appendNew (os?.getD []) e.2)
        occupancy).lookup site ↔ o ∈ occupancy.lookup site ∨ (site, o) ∈ entries by
    have hempty : lookup .empty site = [] := by
      rw [lookup, OrderedMap.get?_empty]
      rfl
    have hall := hfold (siteOccupants φs) .empty
    rw [hempty] at hall
    exact hall.trans (by simp)
  intro entries
  induction entries with
  | nil => simp
  | cons e entries ih =>
    obtain ⟨site', o'⟩ := e
    intro occupancy
    rw [List.foldl_cons, ih, List.mem_cons, ← or_assoc]
    refine or_congr_left ?_
    by_cases hsite : site' = site
    · subst hsite
      rw [lookup, OrderedMap.get?_alter_self, Option.getD_some, lookup, appendNew]
      split_ifs with hmem
      · constructor
        · exact .inl
        · rintro (hold | hnew)
          · exact hold
          · obtain rfl := (Prod.mk.inj hnew).2
            exact List.contains_iff_mem.1 hmem
      · simp
    · rw [lookup, OrderedMap.get?_alter_of_ne _ hsite, lookup]
      simp [Ne.symm hsite]

end Occupancy

theorem path_length_le_compoundDepth (h : (site, o) ∈ siteOccupants φs) (ho : o.isFunctor = true) :
    site.path.length ≤ compoundDepth φs := by
  have hfold : ∀ (ns : List Nat) (m : Nat), m ≤ ns.foldl max m ∧ ∀ n ∈ ns, n ≤ ns.foldl max m := by
    intro ns
    induction ns with
    | nil => simp
    | cons k ns ih =>
      intro m
      obtain ⟨hle, hall⟩ := ih (max m k)
      rw [List.foldl_cons]
      refine ⟨by omega, List.forall_mem_cons.2 ⟨by omega, hall⟩⟩
  refine (hfold _ 0).2 _ (List.mem_map.2 ⟨(site, o), ?_, rfl⟩)
  exact List.mem_filter.2 ⟨h, ho⟩

end GameCircuit
