import GameCircuit.Proofs.Lexicons
import GameCircuit.Proofs.Occupancies

/-!
# The variants of a rule

A variant of a rule replaces each variable that may stand for function terms by a term for one of the things
that it may stand for, as a choice `Symbol → Occupant` says (`Selects`).  `mem_specialize` gives the variants
of a description in this form, with the names of the lexicon that is left.
-/

namespace GameCircuit

/-! ## The symbols of a description -/

namespace Term

/-- The constants, variables and functions of a term. -/
def symbols : Term Symbol → List Symbol := fold (fun c => [c]) (fun x => [x]) fun f ss => f :: ss.flatten

variable {σ : Symbol → Term Symbol} {t u : Term Symbol} {s : Symbol}

@[simp] theorem symbols_const (c : Symbol) : (const c).symbols = [c] := rfl

@[simp] theorem symbols_var (x : Symbol) : (var x).symbols = [x] := rfl

@[simp] theorem symbols_app (f : Symbol) (ts : List (Term Symbol)) :
    (app f ts).symbols = f :: ts.flatMap symbols := by
  simp [symbols, List.flatMap_def]

theorem mem_symbols_subst (h : s ∈ (t.subst σ).symbols) : s ∈ t.symbols ∨ ∃ x ∈ t.vars, s ∈ (σ x).symbols := by
  induction t with
  | const c => exact .inl h
  | var x => exact .inr ⟨x, List.mem_singleton_self x, h⟩
  | app f ts ih =>
    rw [subst_app, symbols_app, List.mem_cons, List.flatMap_map] at h
    rw [symbols_app, vars_app]
    rcases h with rfl | h
    · exact .inl List.mem_cons_self
    · obtain ⟨t, ht, hs⟩ := List.mem_flatMap.1 h
      rcases ih t ht hs with hold | ⟨x, hx, hnew⟩
      · exact .inl (List.mem_cons_of_mem _ (List.mem_flatMap.2 ⟨t, ht, hold⟩))
      · exact .inr ⟨x, List.mem_flatMap.2 ⟨t, ht, hx⟩, hnew⟩

theorem HasAt.mem_symbols {p q : Path} (h : t.HasAt p q u) (hs : s ∈ u.symbols) : s ∈ t.symbols := by
  induction t generalizing p with
  | const c =>
    obtain ⟨-, rfl⟩ := hasAt_const.1 h
    exact hs
  | var x =>
    obtain ⟨-, rfl⟩ := hasAt_var.1 h
    exact hs
  | app f ts ih =>
    rcases hasAt_app.1 h with ⟨-, rfl⟩ | ⟨i, t, ht, hu⟩
    · exact hs
    · have hmem := List.mem_of_getElem? ht
      rw [symbols_app]
      exact List.mem_cons_of_mem _ (List.mem_flatMap.2 ⟨t, hmem, ih t hmem hu⟩)

end Term

namespace Atom

/-- The relation, constants, variables and functions of an atom. -/
def symbols (a : Atom Symbol) : List Symbol := a.relation :: a.args.flatMap Term.symbols

variable {σ : Symbol → Term Symbol} {a : Atom Symbol} {s : Symbol}

theorem mem_symbols_subst (h : s ∈ (a.subst σ).symbols) : s ∈ a.symbols ∨ ∃ x ∈ a.vars, s ∈ (σ x).symbols := by
  rw [symbols, subst, List.mem_cons, List.flatMap_map] at h
  rcases h with rfl | h
  · exact .inl List.mem_cons_self
  · obtain ⟨t, ht, hs⟩ := List.mem_flatMap.1 h
    rcases Term.mem_symbols_subst hs with hold | ⟨x, hx, hnew⟩
    · exact .inl (List.mem_cons_of_mem _ (List.mem_flatMap.2 ⟨t, ht, hold⟩))
    · exact .inr ⟨x, List.mem_flatMap.2 ⟨t, ht, hx⟩, hnew⟩

theorem HasAt.mem_symbols {path : Path} {t : Term Symbol} (h : a.HasAt path t) (hs : s ∈ t.symbols) :
    s ∈ a.symbols := by
  obtain ⟨i, u, hu, ht⟩ := h
  exact List.mem_cons_of_mem _ (List.mem_flatMap.2 ⟨u, List.mem_of_getElem? hu, ht.mem_symbols hs⟩)

theorem mem_symbols_of_mem_vars (h : s ∈ a.vars) : s ∈ a.symbols := by
  obtain ⟨path, hpath⟩ := exists_hasAt_of_mem_vars h
  exact hpath.mem_symbols (List.mem_singleton_self s)

end Atom

namespace Formula

/-- The relations, constants, variables and functions of a formula. -/
def symbols (φ : Formula Symbol) : List Symbol := φ.atoms.flatMap Atom.symbols

variable {σ : Symbol → Term Symbol} {φ : Formula Symbol} {s : Symbol}

theorem mem_symbols_subst (h : s ∈ (φ.subst σ).symbols) : s ∈ φ.symbols ∨ ∃ x ∈ φ.vars, s ∈ (σ x).symbols := by
  rw [symbols, atoms_subst, List.flatMap_map] at h
  obtain ⟨a, ha, hs⟩ := List.mem_flatMap.1 h
  rcases Atom.mem_symbols_subst hs with hold | ⟨x, hx, hnew⟩
  · exact .inl (List.mem_flatMap.2 ⟨a, ha, hold⟩)
  · exact .inr ⟨x, List.mem_flatMap.2 ⟨a, ha, hx⟩, hnew⟩

theorem mem_symbols_of_mem_vars (h : s ∈ φ.vars) : s ∈ φ.symbols := by
  obtain ⟨a, ha, hs⟩ := List.mem_flatMap.1 h
  exact List.mem_flatMap.2 ⟨a, ha, Atom.mem_symbols_of_mem_vars hs⟩

end Formula

namespace Lexicon

/-- The lexicon knows every symbol of the description. -/
def Covers (l : Lexicon) (φs : List (Formula Symbol)) : Prop := ∀ φ ∈ φs, ∀ s ∈ φ.symbols, l.Knows s

instance (l : Lexicon) (φs : List (Formula Symbol)) : Decidable (l.Covers φs) :=
  inferInstanceAs (Decidable (∀ φ ∈ φs, ∀ s ∈ φ.symbols, l.Knows s))

variable {l m : Lexicon} {φs : List (Formula Symbol)}

theorem Covers.knowsOccupant (h : l.Covers φs) {site : Site} {o : Occupant}
    (ho : o ∈ (Occupancy.ofFormulas φs).lookup site) : l.KnowsOccupant o := by
  obtain ⟨φ, hφ, a, ha, path, hmem, -⟩ := mem_siteOccupants.1 (Occupancy.mem_lookup.1 ho)
  obtain ⟨-, t, ht, heq⟩ := Atom.mem_occupants.1 hmem
  cases t with
  | const c =>
    obtain rfl := Option.some.inj heq
    trivial
  | var x => cases heq
  | app f ts =>
    obtain rfl := Option.some.inj heq
    refine h φ hφ f (List.mem_flatMap.2 ⟨a, ha, ht.mem_symbols ?_⟩)
    rw [Term.symbols_app]
    exact List.mem_cons_self

end Lexicon

theorem nodup_eraseDups {α : Type} [BEq α] [LawfulBEq α] (as : List α) : as.eraseDups.Nodup := by
  induction hn : as.length using Nat.strong_induction_on generalizing as with
  | _ n ih =>
    cases as with
    | nil => simp
    | cons a as =>
      have hlt : (as.filter fun b => !b == a).length < n := by
        rw [← hn]
        exact Nat.lt_succ_of_le (List.length_filter_le _ _)
      rw [List.eraseDups_cons, List.nodup_cons]
      exact ⟨by simp [List.mem_eraseDups], ih _ hlt _ rfl⟩

/-- Values under keys that are their own arguments have different keys. -/
theorem nodup_filterMap_map_fst {α β : Type} {as : List α} {f : α → Option (α × β)} (has : as.Nodup)
    (hf : ∀ a p, f a = some p → p.1 = a) : ((as.filterMap f).map Prod.fst).Nodup := by
  rw [List.map_filterMap]
  refine has.filterMap fun a a' b hb hb' => ?_
  obtain ⟨p, hp, rfl⟩ := Option.map_eq_some_iff.1 hb
  obtain ⟨p', hp', hkey⟩ := Option.map_eq_some_iff.1 hb'
  rw [← hf a p hp, ← hf a' p' hp', hkey]

/-! ## What the literals of a rule say together -/

namespace Evidence

variable {e e' : Evidence} {es : List Evidence} {o : Occupant}

/-- The evidence leaves open that a variable stands for `o`. -/
def Permits (e : Evidence) (o : Occupant) : Prop := ∀ os, e.allowed = some os → o ∈ os

@[simp] theorem both_silent (e : Evidence) : e.both silent = e := by
  obtain ⟨allowed, tooDeep⟩ := e
  cases allowed <;> simp [both, silent]

theorem permits_both_iff : (e.both e').Permits o ↔ e.Permits o ∧ e'.Permits o := by
  obtain ⟨allowed, tooDeep⟩ := e
  obtain ⟨allowed', tooDeep'⟩ := e'
  cases allowed <;> cases allowed' <;> simp [Permits, both, inBoth]

/-- What the literals leave open together, each of them does. -/
theorem permits_all_iff : (all es).Permits o ↔ ∀ e ∈ es, e.Permits o := by
  suffices hfold : ∀ e, (es.foldl both e).Permits o ↔ e.Permits o ∧ ∀ e' ∈ es, e'.Permits o by
    refine (hfold silent).trans (and_iff_right fun os hos => ?_)
    cases hos
  induction es with
  | nil => simp
  | cons e' es ih =>
    intro e
    rw [List.foldl_cons, ih, permits_both_iff, List.forall_mem_cons, and_assoc]

theorem mem_allowed_both {os : List Occupant} (h : (e.both e').allowed = some os) (ho : o ∈ os) :
    (∃ xs, e.allowed = some xs ∧ o ∈ xs) ∨ ∃ ys, e'.allowed = some ys ∧ o ∈ ys := by
  obtain ⟨allowed, tooDeep⟩ := e
  obtain ⟨allowed', tooDeep'⟩ := e'
  cases allowed with
  | none => exact .inr ⟨os, h, ho⟩
  | some xs =>
    cases allowed' with
    | none => exact .inl ⟨os, h, ho⟩
    | some ys =>
      obtain rfl := Option.some.inj h
      exact .inl ⟨xs, rfl, (List.mem_filter.1 ho).1⟩

/-- What a variable may stand for, some literal says. -/
theorem mem_allowed_all {os : List Occupant} (h : (all es).allowed = some os) (ho : o ∈ os) :
    ∃ e ∈ es, ∃ xs, e.allowed = some xs ∧ o ∈ xs := by
  suffices hfold : ∀ e, (es.foldl both e).allowed = some os →
      (∃ xs, e.allowed = some xs ∧ o ∈ xs) ∨ ∃ e' ∈ es, ∃ xs, e'.allowed = some xs ∧ o ∈ xs by
    rcases hfold silent h with ⟨xs, hxs, -⟩ | hmem
    · cases hxs
    · exact hmem
  clear h
  induction es with
  | nil => exact fun e h => .inl ⟨os, h, ho⟩
  | cons e' es ih =>
    intro e h
    rcases ih (e.both e') h with ⟨xs, hxs, hmem⟩ | ⟨e'', he'', hmem⟩
    · rcases mem_allowed_both hxs hmem with hleft | hright
      · exact .inl hleft
      · exact .inr ⟨e', List.mem_cons_self, hright⟩
    · exact .inr ⟨e'', List.mem_cons_of_mem _ he'', hmem⟩

theorem isSome_allowed_all (h : ∃ e ∈ es, e.allowed.isSome = true) : (all es).allowed.isSome = true := by
  suffices hfold : ∀ e, e.allowed.isSome = true ∨ (∃ e' ∈ es, e'.allowed.isSome = true) →
      (es.foldl both e).allowed.isSome = true from hfold silent (.inr h)
  clear h
  induction es with
  | nil => exact fun e h => h.resolve_right (by simp)
  | cons e' es ih =>
    intro e h
    refine ih (e.both e') ?_
    obtain ⟨allowed, tooDeep⟩ := e
    obtain ⟨allowed', tooDeep'⟩ := e'
    rcases h with he | ⟨e'', he'', hsome⟩
    · obtain ⟨xs, rfl⟩ := Option.isSome_iff_exists.1 he
      cases allowed' <;> exact .inl rfl
    · rcases List.mem_cons.1 he'' with rfl | hmem
      · obtain ⟨ys, rfl⟩ := Option.isSome_iff_exists.1 hsome
        cases allowed <;> exact .inl rfl
      · exact .inr ⟨e'', hmem, hsome⟩

theorem tooDeep_all : (all es).tooDeep = es.any tooDeep := by
  suffices hfold : ∀ e, (es.foldl both e).tooDeep = (e.tooDeep || es.any tooDeep) by
    exact hfold silent
  induction es with
  | nil => simp
  | cons e' es ih =>
    intro e
    rw [List.foldl_cons, ih, List.any_cons, ← Bool.or_assoc]
    rfl

/-- The two allow the same, and what is too deep for the first is too deep for the second. -/
def Shallower (e e' : Evidence) : Prop := e.allowed = e'.allowed ∧ (e.tooDeep = true → e'.tooDeep = true)

theorem Shallower.both {d d' : Evidence} (h : e.Shallower e') (h' : d.Shallower d') :
    (e.both d).Shallower (e'.both d') := by
  refine ⟨?_, ?_⟩
  · simp only [Evidence.both, h.1, h'.1]
  · simp only [Evidence.both, Bool.or_eq_true]
    exact Or.imp h.2 h'.2

theorem Shallower.either {d d' : Evidence} (h : e.Shallower e') (h' : d.Shallower d') :
    (e.either d).Shallower (e'.either d') := by
  obtain ⟨allowed, tooDeep⟩ := e
  obtain ⟨allowed', tooDeep'⟩ := e'
  obtain ⟨rfl, hdeep⟩ : allowed = allowed' ∧ (tooDeep = true → tooDeep' = true) := h
  cases allowed with
  | none => exact ⟨rfl, hdeep⟩
  | some xs =>
    refine ⟨?_, ?_⟩
    · simp only [Evidence.either, h'.1]
    · simp only [Evidence.either, Bool.or_eq_true]
      exact Or.imp hdeep h'.2

theorem Shallower.all {α : Type} {f g : α → Evidence} {as : List α} (h : ∀ a ∈ as, (f a).Shallower (g a)) :
    (Evidence.all (as.map f)).Shallower (Evidence.all (as.map g)) := by
  suffices hfold : ∀ e e', e.Shallower e' →
      ((as.map f).foldl Evidence.both e).Shallower ((as.map g).foldl Evidence.both e') from
    hfold silent silent ⟨rfl, id⟩
  induction as with
  | nil => exact fun e e' he => he
  | cons a as ih =>
    intro e e' he
    obtain ⟨ha, has⟩ := List.forall_mem_cons.1 h
    exact ih has _ _ (he.both ha)

/-- Silent literals can be left out. -/
theorem all_filter {α : Type} {f : α → Evidence} {p : α → Bool} {as : List α}
    (h : ∀ a ∈ as, p a = false → f a = silent) : all ((as.filter p).map f) = all (as.map f) := by
  suffices hfold : ∀ e, ((as.filter p).map f).foldl both e = (as.map f).foldl both e from hfold silent
  induction as with
  | nil => exact fun _ => rfl
  | cons a as ih =>
    intro e
    obtain ⟨ha, has⟩ := List.forall_mem_cons.1 h
    cases hp : p a with
    | false =>
      rw [List.filter_cons_of_neg (by simp [hp]), ih has, List.map_cons, List.foldl_cons, ha hp, both_silent]
    | true =>
      rw [List.filter_cons_of_pos hp, List.map_cons, List.foldl_cons, ih has, List.map_cons, List.foldl_cons]

end Evidence

section Evidence

variable {occupancy : Occupancy} {depth depth' : Nat} {x : Symbol} {o : Occupant} {os : List Occupant}

theorem mem_foldl_inBoth {oss : List (List Occupant)} :
    o ∈ oss.foldl inBoth os ↔ o ∈ os ∧ ∀ os' ∈ oss, o ∈ os' := by
  induction oss generalizing os with
  | nil => simp
  | cons os' oss ih => simp [ih, inBoth, and_assoc]

namespace Atom

variable {a : Atom Symbol}

/-- An atom that restricts a variable allows what stands at all its places. -/
theorem mem_allowed_evidence (h : (a.evidence occupancy depth x).allowed = some os) :
    a.pathsTo x ≠ [] ∧ (o ∈ os ↔ ∀ path ∈ a.pathsTo x, o ∈ occupancy.lookup (a.site path)) := by
  rw [evidence] at h
  simp only [List.any_map, List.any_eq_true] at h
  cases hpaths : a.pathsTo x with
  | nil => simp [hpaths] at h
  | cons path paths =>
    simp only [hpaths, List.map_cons] at h
    split_ifs at h
    obtain rfl := Option.some.inj h
    rw [mem_foldl_inBoth]
    simp

theorem isSome_allowed_evidence (hne : a.pathsTo x ≠ [])
    (h : ∀ path ∈ a.pathsTo x, occupancy.lookup (a.site path) ≠ []) :
    (a.evidence occupancy depth x).allowed.isSome = true := by
  rw [evidence]
  simp only [List.any_map, List.any_eq_true]
  cases hpaths : a.pathsTo x with
  | nil => exact absurd hpaths hne
  | cons path paths =>
    simp only [List.map_cons]
    rw [if_neg]
    · rfl
    · rintro ⟨path', hpath', hempty⟩
      exact h path' (hpaths ▸ hpath') (List.isEmpty_iff.1 hempty)

theorem tooDeep_evidence : (a.evidence occupancy depth x).tooDeep = true ↔
    ∃ path ∈ a.pathsTo x, depth < path.length := by
  simp [evidence]

theorem shallower_evidence (h : depth' ≤ depth) :
    (a.evidence occupancy depth x).Shallower (a.evidence occupancy depth' x) := by
  refine ⟨rfl, fun hdeep => ?_⟩
  obtain ⟨path, hpath, hlt⟩ := tooDeep_evidence.1 hdeep
  exact tooDeep_evidence.2 ⟨path, hpath, by omega⟩

end Atom

namespace Formula

variable {φ : Formula Symbol}

theorem evidence_disj_cons (φ : Formula Symbol) (φs : List (Formula Symbol)) :
    (disj (φ :: φs)).evidence occupancy depth x = match φ with
      | .atom a => (a.evidence occupancy depth x).either ((disj φs).evidence occupancy depth x)
      | _ => .silent := rfl

/-- What a literal allows stands somewhere. -/
theorem exists_lookup_of_evidence (h : (φ.evidence occupancy depth x).allowed = some os) (ho : o ∈ os) :
    ∃ site, o ∈ occupancy.lookup site := by
  cases φ with
  | atom a =>
    obtain ⟨hne, hiff⟩ := Atom.mem_allowed_evidence h
    obtain ⟨path, hpath⟩ := List.exists_mem_of_ne_nil _ hne
    exact ⟨a.site path, hiff.1 ho path hpath⟩
  | neg ψ => cases h
  | rule head body => cases h
  | disj φs =>
    induction φs generalizing os with
    | nil =>
      obtain rfl := Option.some.inj h
      cases ho
    | cons φ φs ih =>
      rw [evidence_disj_cons] at h
      split at h
      · rename_i a
        rw [Evidence.either] at h
        split at h
        · rename_i hnone
          rw [hnone] at h
          cases h
        · rename_i xs hxs
          obtain ⟨ys, hys, rfl⟩ := Option.map_eq_some_iff.1 h
          rcases List.mem_append.1 ho with hx | hy
          · obtain ⟨hne, hiff⟩ := Atom.mem_allowed_evidence hxs
            obtain ⟨path, hpath⟩ := List.exists_mem_of_ne_nil _ hne
            exact ⟨a.site path, hiff.1 hx path hpath⟩
          · exact ih (List.mem_filter.1 hy).1 hys
      · cases h

/-- A variable that is too deep for a literal is so in one of its atoms. -/
theorem exists_path_of_tooDeep (h : (φ.evidence occupancy depth x).tooDeep = true) :
    ∃ a ∈ φ.atoms, ∃ path ∈ a.pathsTo x, depth < path.length := by
  cases φ with
  | atom a => exact ⟨a, List.mem_singleton_self a, Atom.tooDeep_evidence.1 h⟩
  | neg ψ => cases h
  | rule head body => cases h
  | disj φs =>
    rw [atoms_disj]
    induction φs with
    | nil => cases h
    | cons φ φs ih =>
      rw [evidence_disj_cons] at h
      rw [List.flatMap_cons]
      split at h
      · rename_i a
        have hor : (a.evidence occupancy depth x).tooDeep = true ∨
            ((disj φs).evidence occupancy depth x).tooDeep = true := by
          rw [Evidence.either] at h
          split at h
          · exact .inl h
          · exact Bool.or_eq_true _ _ ▸ h
        rcases hor with ha | hrest
        · exact ⟨a, List.mem_append_left _ (List.mem_singleton_self a), Atom.tooDeep_evidence.1 ha⟩
        · obtain ⟨b, hb, hpath⟩ := ih hrest
          exact ⟨b, List.mem_append_right _ hb, hpath⟩
      · cases h

theorem shallower_evidence (h : depth' ≤ depth) :
    (φ.evidence occupancy depth x).Shallower (φ.evidence occupancy depth' x) := by
  cases φ with
  | atom a => exact Atom.shallower_evidence h
  | neg ψ => exact ⟨rfl, id⟩
  | rule head body => exact ⟨rfl, id⟩
  | disj φs =>
    induction φs with
    | nil => exact ⟨rfl, id⟩
    | cons φ φs ih =>
      rw [evidence_disj_cons, evidence_disj_cons]
      split
      · exact (Atom.shallower_evidence h).either ih
      · exact ⟨rfl, id⟩

end Formula

namespace Clause

variable {c : Clause Symbol}

theorem mem_compoundVariables : (x, os) ∈ c.compoundVariables occupancy depth ↔
    x ∈ c.vars ∧ c.candidates occupancy depth x = some os ∧ os.any Occupant.isFunctor = true := by
  rw [compoundVariables, List.mem_filterMap]
  constructor
  · rintro ⟨y, hy, h⟩
    split at h
    · rename_i os' hos'
      split_ifs at h with hany
      obtain ⟨rfl, rfl⟩ := Prod.mk.inj (Option.some.inj h)
      exact ⟨hy, hos', hany⟩
    · cases h
  · rintro ⟨hx, hos, hany⟩
    exact ⟨x, hx, by simp only [hos, hany, if_true]⟩

theorem nodup_vars (c : Clause Symbol) : c.vars.Nodup := nodup_eraseDups _

theorem nodup_compoundVariables (occupancy : Occupancy) (depth : Nat) (c : Clause Symbol) :
    ((c.compoundVariables occupancy depth).map Prod.fst).Nodup := by
  refine nodup_filterMap_map_fst c.nodup_vars fun y p hp => ?_
  split at hp
  · split_ifs at hp
    exact congrArg Prod.fst (Option.some.inj hp).symm
  · cases hp

theorem candidates_eq_some : c.candidates occupancy depth x = some os ↔
    (∀ φ ∈ c.body, (φ.evidence occupancy depth x).tooDeep = false) ∧
      (Evidence.all (c.body.map (Formula.evidence occupancy depth x))).allowed = some os := by
  rw [candidates]
  simp only [Evidence.tooDeep_all]
  split_ifs with hdeep
  · simp only [List.any_map, List.any_eq_true] at hdeep
    obtain ⟨φ, hφ, hφdeep⟩ := hdeep
    refine iff_of_false (by simp) ?_
    rintro ⟨hall, -⟩
    rw [Function.comp_apply, hall φ hφ] at hφdeep
    cases hφdeep
  · simp only [List.any_map, List.any_eq_true, Function.comp_apply, not_exists, not_and,
      Bool.not_eq_true] at hdeep
    exact ⟨fun h => ⟨hdeep, h⟩, fun h => h.2⟩

theorem exists_lookup_of_candidates (h : c.candidates occupancy depth x = some os) (ho : o ∈ os) :
    ∃ site, o ∈ occupancy.lookup site := by
  obtain ⟨e, he, xs, hxs, hmem⟩ := Evidence.mem_allowed_all (candidates_eq_some.1 h).2 ho
  obtain ⟨φ, -, rfl⟩ := List.mem_map.1 he
  exact Formula.exists_lookup_of_evidence hxs hmem

end Clause

end Evidence

/-! ## Choices -/

/-- The choice gives each of the variables something that it may stand for, and leaves others alone. -/
def Selects (options : List (Symbol × List Occupant)) (choice : Symbol → Occupant) : Prop :=
  (∀ x os, (x, os) ∈ options → choice x ∈ os) ∧ ∀ x, x ∉ options.map Prod.fst → choice x = .const

/-- The terms that replace variables for a choice. -/
def Lexicon.variant (l : Lexicon) (choice : Symbol → Occupant) : Symbol → Term Symbol :=
  fun x => l.replacement x (choice x)

section Choices

variable {l k m : Lexicon} {options : List (Symbol × List Occupant)} {choice : Symbol → Occupant}

theorem selects_nil : Selects [] choice ↔ choice = fun _ => .const := by
  simp [Selects, funext_iff]

theorem Lexicon.variant_const (l : Lexicon) : l.variant (fun _ => .const) = .var := rfl

theorem selects_cons {x : Symbol} {os : List Occupant} (hx : x ∉ options.map Prod.fst) :
    Selects ((x, os) :: options) choice ↔
      choice x ∈ os ∧ Selects options (Function.update choice x .const) := by
  constructor
  · rintro ⟨hmem, hrest⟩
    refine ⟨hmem x os List.mem_cons_self, fun y os' hy => ?_, fun y hy => ?_⟩
    · have hne : y ≠ x := by
        rintro rfl
        exact hx (List.mem_map_of_mem hy)
      rw [Function.update_of_ne hne]
      exact hmem y os' (List.mem_cons_of_mem _ hy)
    · by_cases hyx : y = x
      · rw [hyx, Function.update_self]
      · rw [Function.update_of_ne hyx]
        exact hrest y (by simp [hyx, hy])
  · rintro ⟨hos, hmem, hrest⟩
    refine ⟨fun y os' hy => ?_, fun y hy => ?_⟩
    · rcases List.mem_cons.1 hy with heq | hlater
      · obtain ⟨rfl, rfl⟩ := Prod.mk.inj heq
        exact hos
      · have hne : y ≠ x := by
          rintro rfl
          exact hx (List.mem_map_of_mem hlater)
        have hupdate := hmem y os' hlater
        rwa [Function.update_of_ne hne] at hupdate
    · rw [List.map_cons, List.mem_cons, not_or] at hy
      have hupdate := hrest y hy.2
      rwa [Function.update_of_ne hy.1] at hupdate

theorem keys_of_mem_choices {options : List (Symbol × List (Term Symbol))} {pairs : List (Symbol × Term Symbol)}
    (h : pairs ∈ choices options) : pairs.map Prod.fst = options.map Prod.fst := by
  induction options generalizing pairs with
  | nil =>
    obtain rfl := List.mem_singleton.1 h
    rfl
  | cons option options ih =>
    obtain ⟨t, -, hpairs⟩ := List.mem_flatMap.1 h
    obtain ⟨rest, hrest, rfl⟩ := List.mem_map.1 hpairs
    rw [List.map_cons, List.map_cons, ih hrest]

/-- The substitutions of all choices of terms are those of all choices of things to stand for. -/
theorem exists_choices_iff {σ : Symbol → Term Symbol} (hnodup : (options.map Prod.fst).Nodup) :
    (∃ pairs ∈ choices (options.map fun p => (p.1, p.2.map (l.replacement p.1))), Term.ofPairs pairs = σ) ↔
      ∃ choice, Selects options choice ∧ l.variant choice = σ := by
  induction options generalizing σ with
  | nil =>
    simp only [selects_nil]
    constructor
    · rintro ⟨pairs, hpairs, rfl⟩
      obtain rfl := List.mem_singleton.1 hpairs
      exact ⟨_, rfl, rfl⟩
    · rintro ⟨choice, rfl, rfl⟩
      exact ⟨[], List.mem_singleton_self _, rfl⟩
  | cons option options ih =>
    obtain ⟨x, os⟩ := option
    obtain ⟨hx, hnodup⟩ := List.nodup_cons.1 hnodup
    have hfirst : ∀ {pairs t}, pairs ∈ choices (options.map fun p => (p.1, p.2.map (l.replacement p.1))) →
        Term.ofPairs ((x, t) :: pairs) = Function.update (Term.ofPairs pairs) x t := by
      intro pairs t hpairs
      have hkeys : x ∉ pairs.map Prod.fst := by
        rw [keys_of_mem_choices hpairs, List.map_map]
        exact hx
      funext y
      rw [Term.ofPairs]
      by_cases hyx : y = x
      · rw [hyx, Function.update_self, if_pos ⟨rfl, hkeys⟩]
      · rw [Function.update_of_ne hyx, if_neg fun h => hyx h.1]
    constructor
    · rintro ⟨pairs, hpairs, rfl⟩
      obtain ⟨t, ht, hrest⟩ := List.mem_flatMap.1 hpairs
      obtain ⟨o, ho, rfl⟩ := List.mem_map.1 ht
      obtain ⟨rest, hmem, rfl⟩ := List.mem_map.1 hrest
      obtain ⟨choice, hselects, hvariant⟩ := (ih hnodup).1 ⟨rest, hmem, rfl⟩
      refine ⟨Function.update choice x o, (selects_cons hx).2 ⟨?_, ?_⟩, ?_⟩
      · rwa [Function.update_self]
      · rw [Function.update_idem, ← hselects.2 x hx, Function.update_eq_self]
        exact hselects
      · rw [hfirst hmem, ← hvariant]
        funext y
        by_cases hyx : y = x
        · simp [hyx, Lexicon.variant]
        · simp [hyx, Lexicon.variant]
    · rintro ⟨choice, hselects, rfl⟩
      obtain ⟨ho, hrest⟩ := (selects_cons hx).1 hselects
      obtain ⟨pairs, hpairs, hσ⟩ := (ih hnodup).2 ⟨_, hrest, rfl⟩
      refine ⟨(x, l.replacement x (choice x)) :: pairs, ?_, ?_⟩
      · exact List.mem_flatMap.2 ⟨_, List.mem_map_of_mem ho, List.mem_map_of_mem hpairs⟩
      · rw [hfirst hpairs, hσ]
        funext y
        by_cases hyx : y = x
        · simp [hyx, Lexicon.variant]
        · simp [hyx, Lexicon.variant]

end Choices

/-! ## Specializing -/

section Specialize

variable {l k m : Lexicon} {occupancy : Occupancy} {depth : Nat} {choice : Symbol → Occupant}
  (hocc : ∀ site, ∀ o ∈ occupancy.lookup site, l.KnowsOccupant o)

namespace Clause

variable {c c' : Clause Symbol}

/-- The steps that make the terms for the variables of a rule. -/
def optionSteps (occupancy : Occupancy) (depth : Nat) (c : Clause Symbol) :
    List (Lexicon → (Symbol × List (Term Symbol)) × Lexicon) :=
  (c.compoundVariables occupancy depth).map fun p k => (k.replacements p.1 p.2).map (p.1, ·) id

theorem specialize_eq (occupancy : Occupancy) (depth : Nat) (c : Clause Symbol) :
    c.specialize occupancy depth = fun k => (internAll (c.optionSteps occupancy depth) k).map
      (fun options => (choices options).map fun pairs => c.subst (Term.ofPairs pairs)) id := rfl

variable (hvars : ∀ x ∈ c.vars, l.Knows x)

include hocc hvars

theorem knows_of_mem_compoundVariables {p : Symbol × List Occupant}
    (hp : p ∈ c.compoundVariables occupancy depth) : l.Knows p.1 ∧ ∀ o ∈ p.2, l.KnowsOccupant o := by
  obtain ⟨hx, hcandidates, -⟩ := mem_compoundVariables.1 hp
  refine ⟨hvars _ hx, fun o ho => ?_⟩
  obtain ⟨site, hsite⟩ := exists_lookup_of_candidates hcandidates ho
  exact hocc site o hsite

theorem settles_optionSteps : ∀ step ∈ c.optionSteps occupancy depth, Lexicon.Settles l step := by
  intro step hstep
  obtain ⟨p, hp, rfl⟩ := List.mem_map.1 hstep
  obtain ⟨hx, hos⟩ := knows_of_mem_compoundVariables hocc hvars hp
  exact (Lexicon.settles_replacements hx hos).map _

theorem settles_specialize : Lexicon.Settles l (c.specialize occupancy depth) := by
  rw [specialize_eq]
  exact (Lexicon.settles_internAll (settles_optionSteps hocc hvars)).map _

section

variable (hk : l.Grows k) (hm : (c.specialize occupancy depth k).2.Grows m)

include hk hm

/-- In the end, the replacements are those of the last lexicon. -/
theorem replacements_of_specialize {p : Symbol × List Occupant} (hp : p ∈ c.compoundVariables occupancy depth) :
    (m.replacements p.1 p.2).1 = p.2.map (m.replacement p.1) ∧ ∀ o ∈ p.2, m.Names p.1 o := by
  obtain ⟨hx, hos⟩ := knows_of_mem_compoundVariables hocc hvars hp
  have hlm : l.Grows m := hk.trans (((settles_specialize hocc hvars).grows hk).trans hm)
  have hend := Lexicon.step_eq_of_internAll (settles_optionSteps hocc hvars) hk hm _ (List.mem_map_of_mem hp)
  refine Lexicon.replacements_eq hx hos hlm ?_
  have hsame : (m.replacements p.1 p.2).2 = m := hend
  rw [hsame]
  exact Lexicon.Grows.refl m

/-- In the end, the variables have the terms of the last lexicon to choose from. -/
theorem internAll_optionSteps : (internAll (c.optionSteps occupancy depth) k).1 =
    (c.compoundVariables occupancy depth).map fun p => (p.1, p.2.map (m.replacement p.1)) := by
  rw [Lexicon.internAll_eq_map (settles_optionSteps hocc hvars) hk hm, optionSteps, List.map_map]
  refine List.map_congr_left fun p hp => ?_
  rw [← (replacements_of_specialize hocc hvars hk hm hp).1]
  rfl

/-- The variants of a rule are those of the choices for its variables. -/
theorem mem_specialize : c' ∈ (c.specialize occupancy depth k).1 ↔
    ∃ choice, Selects (c.compoundVariables occupancy depth) choice ∧ c' = c.subst (m.variant choice) := by
  rw [specialize_eq, Prod.map_fst, internAll_optionSteps hocc hvars hk hm, List.mem_map]
  have hchoices := fun σ => exists_choices_iff (l := m) (σ := σ) (c.nodup_compoundVariables occupancy depth)
  constructor
  · rintro ⟨pairs, hpairs, rfl⟩
    obtain ⟨choice, hselects, hvariant⟩ := (hchoices _).1 ⟨pairs, hpairs, rfl⟩
    exact ⟨choice, hselects, by rw [hvariant]⟩
  · rintro ⟨choice, hselects, rfl⟩
    obtain ⟨pairs, hpairs, hσ⟩ := (hchoices _).2 ⟨choice, hselects, rfl⟩
    exact ⟨pairs, hpairs, by rw [hσ]⟩

theorem names_of_selects (h : Selects (c.compoundVariables occupancy depth) choice) (x : Symbol) :
    m.Names x (choice x) := by
  by_cases hx : x ∈ (c.compoundVariables occupancy depth).map Prod.fst
  · obtain ⟨p, hp, rfl⟩ := List.mem_map.1 hx
    exact (replacements_of_specialize hocc hvars hk hm hp).2 _ (h.1 p.1 p.2 hp)
  · rw [h.2 x hx]
    trivial

end

end Clause

namespace Formula

/-- The variables of a formula that may stand for function terms: those of a rule. -/
def compoundVariables (occupancy : Occupancy) (depth : Nat) : Formula Symbol → List (Symbol × List Occupant)
  | .rule head body => Clause.compoundVariables occupancy depth ⟨head, body⟩
  | _ => []

/-- The variants of a formula: those of a rule, and any other formula itself. -/
def specialize (occupancy : Occupancy) (depth : Nat) (φ : Formula Symbol) (l : Lexicon) :
    List (Formula Symbol) × Lexicon :=
  match φ with
  | .rule head body => (Clause.specialize occupancy depth ⟨head, body⟩ l).map (List.map Clause.toFormula) id
  | φ => ([φ], l)

variable {φ ψ : Formula Symbol}

theorem exists_lookup_of_compoundVariables {p : Symbol × List Occupant}
    (hp : p ∈ φ.compoundVariables occupancy depth) {o : Occupant} (ho : o ∈ p.2) :
    ∃ site, o ∈ occupancy.lookup site := by
  cases φ with
  | rule head body => exact Clause.exists_lookup_of_candidates (Clause.mem_compoundVariables.1 hp).2.1 ho
  | atom a => cases hp
  | neg φ => cases hp
  | disj φs => cases hp

/-- A function that a variable is chosen to stand for is found somewhere. -/
theorem exists_lookup_of_selects (h : Selects (φ.compoundVariables occupancy depth) choice) {x f : Symbol} {arity : Nat}
    (hchoice : choice x = .functor f arity) : ∃ site, .functor f arity ∈ occupancy.lookup site := by
  have hx : x ∈ (φ.compoundVariables occupancy depth).map Prod.fst := by
    by_contra hx
    rw [h.2 x hx] at hchoice
    cases hchoice
  obtain ⟨p, hp, rfl⟩ := List.mem_map.1 hx
  have hmem := h.1 p.1 p.2 hp
  rw [hchoice] at hmem
  exact exists_lookup_of_compoundVariables hp hmem

include hocc

theorem knowsOccupant_of_selects (h : Selects (φ.compoundVariables occupancy depth) choice) (x : Symbol) :
    l.KnowsOccupant (choice x) := by
  by_cases hx : x ∈ (φ.compoundVariables occupancy depth).map Prod.fst
  · obtain ⟨p, hp, rfl⟩ := List.mem_map.1 hx
    obtain ⟨site, hsite⟩ := exists_lookup_of_compoundVariables hp (h.1 p.1 p.2 hp)
    exact hocc site _ hsite
  · rw [h.2 x hx]
    trivial

variable (hknows : ∀ s ∈ φ.symbols, l.Knows s)

include hknows

theorem settles_specialize : Lexicon.Settles l (φ.specialize occupancy depth) := by
  cases φ with
  | rule head body =>
    refine (Clause.settles_specialize hocc fun x hx => hknows x ?_).map _
    exact mem_symbols_of_mem_vars (List.mem_eraseDups.1 hx)
  | atom a => exact Lexicon.settles_pure _
  | neg φ => exact Lexicon.settles_pure _
  | disj φs => exact Lexicon.settles_pure _

variable (hk : l.Grows k) (hm : (φ.specialize occupancy depth k).2.Grows m)

include hk hm

theorem mem_specialize : ψ ∈ (φ.specialize occupancy depth k).1 ↔
    ∃ choice, Selects (φ.compoundVariables occupancy depth) choice ∧ ψ = φ.subst (m.variant choice) := by
  have hother : (φ.specialize occupancy depth k).1 = [φ] → φ.compoundVariables occupancy depth = [] →
      (ψ ∈ (φ.specialize occupancy depth k).1 ↔
        ∃ choice, Selects (φ.compoundVariables occupancy depth) choice ∧ ψ = φ.subst (m.variant choice)) := by
    intro hone hnone
    simp only [hone, hnone, selects_nil, exists_eq_left, Lexicon.variant_const, subst_var_id, List.mem_singleton]
  cases φ with
  | rule head body =>
    have hvars : ∀ x ∈ Clause.vars ⟨head, body⟩, l.Knows x := fun x hx =>
      hknows x (mem_symbols_of_mem_vars (List.mem_eraseDups.1 hx))
    rw [specialize, Prod.map_fst, List.mem_map]
    simp only [Clause.mem_specialize hocc hvars hk hm]
    constructor
    · rintro ⟨c', ⟨choice, hselects, rfl⟩, rfl⟩
      exact ⟨choice, hselects, (subst_rule _ head body).symm⟩
    · rintro ⟨choice, hselects, rfl⟩
      exact ⟨_, ⟨choice, hselects, rfl⟩, (subst_rule _ head body).symm⟩
  | atom a => exact hother rfl rfl
  | neg φ => exact hother rfl rfl
  | disj φs => exact hother rfl rfl

theorem names_of_selects (h : Selects (φ.compoundVariables occupancy depth) choice) (x : Symbol) :
    m.Names x (choice x) := by
  cases φ with
  | rule head body =>
    have hvars : ∀ x ∈ Clause.vars ⟨head, body⟩, l.Knows x := fun x hx =>
      hknows x (mem_symbols_of_mem_vars (List.mem_eraseDups.1 hx))
    exact Clause.names_of_selects hocc hvars hk hm h x
  | atom a =>
    rw [selects_nil.1 h]
    trivial
  | neg φ =>
    rw [selects_nil.1 h]
    trivial
  | disj φs =>
    rw [selects_nil.1 h]
    trivial

end Formula

end Specialize

section Description

variable {l m : Lexicon} {depth : Nat} {φ ψ : Formula Symbol} {φs ψs : List (Formula Symbol)}
  {choice : Symbol → Occupant}

theorem specialize_eq (depth : Nat) (φs : List (Formula Symbol)) (l : Lexicon) :
    specialize depth φs l =
      (distinct (internAll (φs.map (Formula.specialize (.ofFormulas φs) depth)) l).1.flatten,
        (internAll (φs.map (Formula.specialize (.ofFormulas φs) depth)) l).2) := rfl

/-- Specializing a description whose variants are all made changes no lexicon. -/
theorem specialize_of_settled (h : ∀ φ ∈ φs, (φ.specialize (.ofFormulas φs) depth m).2 = m) :
    specialize depth φs m =
      (distinct (φs.flatMap fun φ => (φ.specialize (.ofFormulas φs) depth m).1), m) := by
  rw [specialize_eq, Lexicon.internAll_of_step_eq]
  · rw [List.map_map, List.flatMap_def]
    rfl
  · intro step hstep
    obtain ⟨φ, hφ, rfl⟩ := List.mem_map.1 hstep
    exact h φ hφ

variable (hl : l.Covers φs) (h : specialize depth φs l = (ψs, m))

include hl

theorem settles_specialize_steps (depth : Nat) :
    ∀ step ∈ φs.map (Formula.specialize (.ofFormulas φs) depth), Lexicon.Settles l step := by
  intro step hstep
  obtain ⟨φ, hφ, rfl⟩ := List.mem_map.1 hstep
  exact Formula.settles_specialize (fun site o ho => hl.knowsOccupant ho) (hl φ hφ)

include h

theorem grows_specialize : l.Grows m := by
  have hgrows := (Lexicon.settles_internAll (settles_specialize_steps hl depth)).grows (Lexicon.Grows.refl l)
  rw [specialize_eq] at h
  rwa [(Prod.mk.inj h).2] at hgrows

/-- The variants are all made in the lexicon that is left. -/
theorem specialize_settled : ψs = distinct (φs.flatMap fun φ => (φ.specialize (.ofFormulas φs) depth m).1) ∧
    ∀ φ ∈ φs, (φ.specialize (.ofFormulas φs) depth m).2 = m := by
  have hsteps := settles_specialize_steps hl depth
  rw [specialize_eq] at h
  obtain ⟨hψs, hm⟩ := Prod.mk.inj h
  have hend : (internAll (φs.map (Formula.specialize (.ofFormulas φs) depth)) l).2.Grows m := by
    rw [← hm]
    exact Lexicon.Grows.refl _
  refine ⟨?_, fun φ hφ => ?_⟩
  · rw [← hψs, Lexicon.internAll_eq_map hsteps (Lexicon.Grows.refl l) hend, List.map_map, List.flatMap_def]
    rfl
  · exact Lexicon.step_eq_of_internAll hsteps (Lexicon.Grows.refl l) hend _ (List.mem_map_of_mem hφ)

theorem nodup_specialize : ψs.Nodup := by
  rw [(specialize_settled hl h).1]
  exact nodup_distinct _

/-- The variants of a description are those of the choices for the variables of its formulas. -/
theorem mem_specialize : ψ ∈ ψs ↔ ∃ φ ∈ φs, ∃ choice,
    Selects (φ.compoundVariables (.ofFormulas φs) depth) choice ∧ ψ = φ.subst (m.variant choice) := by
  obtain ⟨hψs, hend⟩ := specialize_settled hl h
  rw [hψs, mem_distinct, List.mem_flatMap]
  refine exists_congr fun φ => and_congr_right fun hφ => ?_
  refine Formula.mem_specialize (fun site o ho => hl.knowsOccupant ho) (hl φ hφ) (grows_specialize hl h) ?_
  rw [hend φ hφ]
  exact Lexicon.Grows.refl m

theorem names_of_selects (hφ : φ ∈ φs)
    (hselects : Selects (φ.compoundVariables (.ofFormulas φs) depth) choice) (x : Symbol) :
    m.Names x (choice x) := by
  refine Formula.names_of_selects (fun site o ho => hl.knowsOccupant ho) (hl φ hφ) (grows_specialize hl h) ?_
    hselects x
  rw [(specialize_settled hl h).2 φ hφ]
  exact Lexicon.Grows.refl m

theorem covers_specialize : m.Covers ψs := by
  have hgrows := grows_specialize hl h
  intro ψ hψ s hs
  obtain ⟨φ, hφ, choice, hselects, rfl⟩ := (mem_specialize hl h).1 hψ
  rcases Formula.mem_symbols_subst hs with hold | ⟨x, hx, hnew⟩
  · exact (hl φ hφ s hold).grows hgrows
  · have hnames := names_of_selects hl h hφ hselects x
    have hoccupant := Formula.knowsOccupant_of_selects (fun site o ho => hl.knowsOccupant ho) hselects x
    rw [Lexicon.variant] at hnew
    cases hchoice : choice x with
    | const =>
      rw [hchoice, Lexicon.replacement, Term.symbols_var, List.mem_singleton] at hnew
      rw [hnew]
      exact (hl φ hφ x (Formula.mem_symbols_of_mem_vars hx)).grows hgrows
    | functor f arity =>
      rw [hchoice] at hnew hnames hoccupant
      rw [Lexicon.replacement, Term.symbols_app, List.mem_cons, List.flatMap_map] at hnew
      rcases hnew with rfl | harg
      · exact hoccupant.grows hgrows
      · obtain ⟨i, hi, hs⟩ := List.mem_flatMap.1 harg
        obtain rfl := List.mem_singleton.1 hs
        exact (hnames i (List.mem_range.1 hi)).1

end Description

end GameCircuit
