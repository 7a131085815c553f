import GameCircuit.Proofs.PassChains

/-!
# New variables are fresh

The variables that a variant of a rule introduces are named after the variable that they replace, the function and the
argument, with dots between.  If no name of a description has a dot, then on the whole way through the passes no
variable of a rule is named after another one, and no constant, function or relation has a name with a dot: passes add
none of these, but only bring functions of the description to other places.  So the new variables differ from each other,
from the variables of the rule, and from all that is no variable (`introduced_variables_fresh`).
-/

namespace GameCircuit

/-! ## What is no variable -/

namespace Term

/-- The constants and functions of a term. -/
def rigid : Term Symbol → List Symbol := fold (fun c => [c]) (fun _ => []) fun f ss => f :: ss.flatten

variable {σ : Symbol → Term Symbol} {t u : Term Symbol} {s : Symbol}

@[simp] theorem rigid_const (c : Symbol) : (const c).rigid = [c] := rfl

@[simp] theorem rigid_var (x : Symbol) : (var x).rigid = [] := rfl

@[simp] theorem rigid_app (f : Symbol) (ts : List (Term Symbol)) : (app f ts).rigid = f :: ts.flatMap rigid := by
  simp [rigid, List.flatMap_def]

theorem mem_symbols_of_mem_rigid (h : s ∈ t.rigid) : s ∈ t.symbols := by
  induction t with
  | const c => exact h
  | var x => cases h
  | app f ts ih =>
    rw [rigid_app, List.mem_cons] at h
    rw [symbols_app, List.mem_cons]
    refine h.imp_right fun hargs => ?_
    obtain ⟨t, ht, hs⟩ := List.mem_flatMap.1 hargs
    exact List.mem_flatMap.2 ⟨t, ht, ih t ht hs⟩

theorem mem_rigid_subst (h : s ∈ (t.subst σ).rigid) : s ∈ t.rigid ∨ ∃ x ∈ t.vars, s ∈ (σ x).rigid := by
  induction t with
  | const c => exact .inl h
  | var x => exact .inr ⟨x, List.mem_singleton_self x, h⟩
  | app f ts ih =>
    rw [subst_app, rigid_app, List.mem_cons, List.flatMap_map] at h
    rw [rigid_app, vars_app]
    rcases h with rfl | h
    · exact .inl List.mem_cons_self
    · obtain ⟨t, ht, hs⟩ := List.mem_flatMap.1 h
      rcases ih t ht hs with hold | ⟨x, hx, hnew⟩
      · exact .inl (List.mem_cons_of_mem _ (List.mem_flatMap.2 ⟨t, ht, hold⟩))
      · exact .inr ⟨x, List.mem_flatMap.2 ⟨t, ht, hx⟩, hnew⟩

theorem mem_rigid_collapse (h : s ∈ t.collapse.rigid) : s ∈ t.rigid := by
  induction t with
  | const c => exact h
  | var x => exact h
  | app f ts ih =>
    rw [rigid_app, List.mem_cons]
    rw [collapse_app] at h
    split_ifs at h
    · exact .inl (List.mem_singleton.1 h)
    · rw [rigid_app, List.mem_cons, List.flatMap_map] at h
      refine h.imp_right fun hargs => ?_
      obtain ⟨t, ht, hs⟩ := List.mem_flatMap.1 hargs
      exact List.mem_flatMap.2 ⟨t, ht, ih t ht hs⟩

theorem HasAt.mem_rigid {p q : Path} (h : t.HasAt p q u) (hs : s ∈ u.rigid) : s ∈ t.rigid := by
  induction t generalizing p with
  | const c =>
    obtain ⟨-, rfl⟩ := hasAt_const.1 h
    exact hs
  | var x =>
    obtain ⟨-, rfl⟩ := hasAt_var.1 h
    exact hs
  | app f ts ih =>
    rcases hasAt_app.1 h with ⟨-, rfl⟩ | ⟨i, t, ht, hu⟩
    · exact hs
    · have hmem := List.mem_of_getElem? ht
      rw [rigid_app]
      exact List.mem_cons_of_mem _ (List.mem_flatMap.2 ⟨t, hmem, ih t hmem hu⟩)

end Term

namespace Atom

/-- The relation, constants and functions of an atom. -/
def rigid (a : Atom Symbol) : List Symbol := a.relation :: a.args.flatMap Term.rigid

end Atom

namespace Formula

/-- The relations, constants and functions of a formula. -/
def rigid (φ : Formula Symbol) : List Symbol := φ.atoms.flatMap Atom.rigid

variable {φ ψ : Formula Symbol} {σ : Symbol → Term Symbol} {s : Symbol} {dropBase : Bool}

theorem mem_rigid_iff : s ∈ φ.rigid ↔ ∃ a ∈ φ.atoms, s = a.relation ∨ ∃ t ∈ a.args, s ∈ t.rigid := by
  simp only [rigid, Atom.rigid, List.mem_flatMap, List.mem_cons]

theorem mem_symbols_of_mem_rigid (h : s ∈ φ.rigid) : s ∈ φ.symbols := by
  obtain ⟨a, ha, hs⟩ := mem_rigid_iff.1 h
  refine List.mem_flatMap.2 ⟨a, ha, List.mem_cons.2 (hs.imp_right ?_)⟩
  rintro ⟨t, ht, hst⟩
  exact List.mem_flatMap.2 ⟨t, ht, Term.mem_symbols_of_mem_rigid hst⟩

theorem mem_rigid_subst (h : s ∈ (φ.subst σ).rigid) : s ∈ φ.rigid ∨ ∃ x ∈ φ.vars, s ∈ (σ x).rigid := by
  obtain ⟨a', ha', hs⟩ := mem_rigid_iff.1 h
  rw [atoms_subst] at ha'
  obtain ⟨a, ha, rfl⟩ := List.mem_map.1 ha'
  rcases hs with hrelation | ⟨t', ht', hst'⟩
  · exact .inl (mem_rigid_iff.2 ⟨a, ha, .inl hrelation⟩)
  · obtain ⟨t, ht, rfl⟩ := List.mem_map.1 ht'
    rcases Term.mem_rigid_subst hst' with hold | ⟨x, hx, hnew⟩
    · exact .inl (mem_rigid_iff.2 ⟨a, ha, .inr ⟨t, ht, hold⟩⟩)
    · exact .inr ⟨x, List.mem_flatMap.2 ⟨a, ha, List.mem_flatMap.2 ⟨t, ht, hx⟩⟩, hnew⟩

theorem mem_rigid_collapse (h : s ∈ φ.collapse.rigid) : s ∈ φ.rigid := by
  obtain ⟨a', ha', hs⟩ := mem_rigid_iff.1 h
  rw [atoms_collapse] at ha'
  obtain ⟨a, ha, rfl⟩ := List.mem_map.1 ha'
  refine mem_rigid_iff.2 ⟨a, ha, hs.imp_right ?_⟩
  rintro ⟨t', ht', hst'⟩
  obtain ⟨t, ht, rfl⟩ := List.mem_map.1 ht'
  exact ⟨t, ht, Term.mem_rigid_collapse hst'⟩

/-- Solving the equalities of a formula makes no constant, function or relation. -/
theorem mem_rigid_of_simplify (h : φ.simplify dropBase = .ok (some ψ)) (hs : s ∈ ψ.rigid) : s ∈ φ.rigid := by
  obtain ⟨σ, -, -, hσ, rfl, -⟩ := simplify_eq_some h
  have hfrom : ∀ {s}, s ∈ φ.unconditional.collapse.rigid → s ∈ φ.rigid := by
    intro s hs
    have hmem := mem_rigid_collapse hs
    rwa [rigid, atoms_unconditional] at hmem
  rcases mem_rigid_subst hs with hold | ⟨x, hx, hnew⟩
  · obtain ⟨a, ha, hsa⟩ := mem_rigid_iff.1 hold
    exact hfrom (mem_rigid_iff.2 ⟨a, mem_atoms_of_mem_withoutEqualities ha, hsa⟩)
  · refine hfrom (solveEqualities_induction
      (fun t => ∀ s ∈ t.rigid, s ∈ φ.unconditional.collapse.rigid) ?_ (fun _ _ s hs => ?_) ?_ (fun y hy => hy) hσ x
      (fun s hs => ?_) s hnew)
    · intro t τ ht hτ s hs
      rcases Term.mem_rigid_subst hs with hold | ⟨y, hy, hnew⟩
      · exact ht s hold
      · exact hτ y hy s hnew
    · cases hs
    · intro ψ hψ u v hequality
      obtain rfl := equality?_eq_some.1 hequality
      have hatom := mem_atoms_of_mem_body hψ (List.mem_singleton_self _)
      exact ⟨fun s hs => mem_rigid_iff.2 ⟨_, hatom, .inr ⟨u, by simp, hs⟩⟩,
        fun s hs => mem_rigid_iff.2 ⟨_, hatom, .inr ⟨v, by simp, hs⟩⟩⟩
    · cases hs

end Formula

section Passes

variable {φs ψs : List (Formula Symbol)} {l m : Lexicon} {depth : Nat} {s : Symbol}

/-- A function that stands somewhere in a description is one of its functions. -/
theorem exists_mem_rigid_of_lookup {site : Site} {f : Symbol} {arity : Nat}
    (h : .functor f arity ∈ (Occupancy.ofFormulas φs).lookup site) : ∃ φ ∈ φs, f ∈ φ.rigid := by
  obtain ⟨φ, hφ, a, ha, path, hmem, -⟩ := mem_siteOccupants.1 (Occupancy.mem_lookup.1 h)
  obtain ⟨-, t, ⟨i, u, hu, ht⟩, heq⟩ := Atom.mem_occupants.1 hmem
  refine ⟨φ, hφ, Formula.mem_rigid_iff.2 ⟨a, ha, .inr ⟨u, List.mem_of_getElem? hu, ht.mem_rigid ?_⟩⟩⟩
  cases t with
  | const c => cases heq
  | var x => cases heq
  | app g ts =>
    obtain ⟨rfl, -⟩ : g = f ∧ ts.length = arity := by simpa [Term.occupant?] using heq
    rw [Term.rigid_app]
    exact List.mem_cons_self

/-- Variants have no constant, function or relation that the description has not. -/
theorem exists_mem_rigid_of_specialize (hl : l.Covers φs) (h : specialize depth φs l = (ψs, m)) {ψ : Formula Symbol}
    (hψ : ψ ∈ ψs) (hs : s ∈ ψ.rigid) : ∃ φ ∈ φs, s ∈ φ.rigid := by
  obtain ⟨φ, hφ, choice, hselects, rfl⟩ := (mem_specialize hl h).1 hψ
  rcases Formula.mem_rigid_subst hs with hold | ⟨x, -, hnew⟩
  · exact ⟨φ, hφ, hold⟩
  · rw [Lexicon.variant] at hnew
    cases hchoice : choice x with
    | const =>
      rw [hchoice] at hnew
      cases hnew
    | functor f arity =>
      rw [hchoice, Lexicon.replacement, Term.rigid_app, List.mem_cons, List.flatMap_map] at hnew
      obtain rfl : s = f := hnew.resolve_right (by simp)
      obtain ⟨site, hsite⟩ := Formula.exists_lookup_of_selects hselects hchoice
      exact exists_mem_rigid_of_lookup hsite

theorem exists_mem_rigid_of_simplifyAll (h : simplifyAll φs = .ok ψs) {ψ : Formula Symbol} (hψ : ψ ∈ ψs)
    (hs : s ∈ ψ.rigid) : ∃ φ ∈ φs, s ∈ φ.rigid := by
  obtain ⟨φ, hφ, hsimplify⟩ := (mem_simplifyAll h).1 hψ
  exact ⟨φ, hφ, Formula.mem_rigid_of_simplify hsimplify hs⟩

end Passes

/-! ## What passes keep -/

theorem Lexicon.Below.dot_mem {l : Lexicon} {x y : Symbol} (h : l.Below x y) : '.' ∈ (l.resolve y).toList :=
  h.subset (by simp)

/-- What a description has of the description `φs` and its lexicon `l` on the way through the passes. -/
structure WellNamed (φs : List (Formula Symbol)) (l : Lexicon) (ψs : List (Formula Symbol)) (k : Lexicon) : Prop where
  grows : l.Grows k
  covers : k.Covers ψs
  apart : ∀ ψ ∈ ψs, k.Apart ψ.vars
  rigid : ∀ ψ ∈ ψs, ∀ s ∈ ψ.rigid, ∃ φ ∈ φs, s ∈ φ.rigid

namespace WellNamed

variable {φs ψs χs : List (Formula Symbol)} {l k m : Lexicon} {depth : Nat}

/-- No name without a dot is below another one. -/
theorem refl (hl : l.Covers φs) (hdots : ∀ φ ∈ φs, ∀ s ∈ φ.symbols, '.' ∉ (l.resolve s).toList) :
    WellNamed φs l φs l where
  grows := Lexicon.Grows.refl l
  covers := hl
  apart φ hφ _ _ y hy hbelow := hdots φ hφ y (Formula.mem_symbols_of_mem_vars hy) hbelow.dot_mem
  rigid φ hφ _ hs := ⟨φ, hφ, hs⟩

theorem simplified (h : WellNamed φs l ψs k) (hsimplify : simplifyAll ψs = .ok χs) : WellNamed φs l χs k where
  grows := h.grows
  covers := covers_simplifyAll h.covers hsimplify
  apart := apart_of_simplifyAll h.apart hsimplify
  rigid χ hχ s hs := by
    obtain ⟨ψ, hψ, hsψ⟩ := exists_mem_rigid_of_simplifyAll hsimplify hχ hs
    exact h.rigid ψ hψ s hsψ

theorem specialized (h : WellNamed φs l ψs k) (hspecialize : specialize depth ψs k = (χs, m)) :
    WellNamed φs l χs m where
  grows := h.grows.trans (grows_specialize h.covers hspecialize)
  covers := covers_specialize h.covers hspecialize
  apart := apart_of_specialize h.covers h.apart hspecialize
  rigid χ hχ s hs := by
    obtain ⟨ψ, hψ, hsψ⟩ := exists_mem_rigid_of_specialize h.covers hspecialize hχ hs
    exact h.rigid ψ hψ s hsψ

theorem normalizePass (h : WellNamed φs l ψs k) (hpass : normalizePass (some depth) ψs k = .ok (χs, m)) :
    WellNamed φs l χs m := by
  obtain ⟨ψs', hsimplify, hspecialize⟩ := normalizePass_eq_ok.1 hpass
  exact (h.simplified hsimplify).specialized hspecialize

theorem passesTo (h : WellNamed φs l ψs k) (hpasses : PassesTo (some depth) (ψs, k) (χs, m)) :
    WellNamed φs l χs m := by
  have hall : ∀ q, PassesTo (some depth) (ψs, k) q → WellNamed φs l q.1 q.2 := by
    intro q hq
    induction hq with
    | refl => exact h
    | tail _ hpass ih => exact ih.normalizePass hpass
  exact hall (χs, m) hpasses

/-- What has a name with a dot is none of the symbols of the description, and stays a variable on the way. -/
theorem not_mem_of_dot_mem (h : WellNamed φs l ψs k) (hl : l.Covers φs)
    (hdots : ∀ φ ∈ φs, ∀ s ∈ φ.symbols, '.' ∉ (l.resolve s).toList) (hm : k.Grows m) {s : Symbol}
    (hs : '.' ∈ (m.resolve s).toList) : (∀ ψ ∈ ψs, s ∉ ψ.rigid) ∧ ∀ φ ∈ φs, s ∉ φ.symbols := by
  have hnot : ∀ φ ∈ φs, s ∉ φ.symbols := by
    intro φ hφ hmem
    rw [(hl φ hφ s hmem).resolve_eq_of_grows (h.grows.trans hm)] at hs
    exact hdots φ hφ s hmem hs
  refine ⟨fun ψ hψ hmem => ?_, hnot⟩
  obtain ⟨φ, hφ, hrigid⟩ := h.rigid ψ hψ s hmem
  exact hnot φ hφ (Formula.mem_symbols_of_mem_rigid hrigid)

end WellNamed

/-! ## The substitutions of a rule -/

/-- The variables in the terms that a substitution puts in the place of others. -/
def introduced (pairs : List (Symbol × Term Symbol)) : List Symbol :=
  (pairs.filter fun p => p.2 ≠ .var p.1).flatMap fun p => p.2.vars

namespace Clause

/-- The substitutions that make the variants of a rule. -/
def substitutions (occupancy : Occupancy) (depth : Nat) (c : Clause Symbol) (l : Lexicon) :
    List (List (Symbol × Term Symbol)) :=
  choices (internAll (c.optionSteps occupancy depth) l).1

section Substitutions

variable {c : Clause Symbol} {occupancy : Occupancy} {depth : Nat} {l k : Lexicon} {pairs : List (Symbol × Term Symbol)}
  (hocc : ∀ site, ∀ o ∈ occupancy.lookup site, l.KnowsOccupant o) (hvars : ∀ x ∈ c.vars, l.Knows x) (hk : l.Grows k)

include hocc hvars hk

/-- A substitution replaces each of its variables, all of the rule and no one twice, as one choice says. -/
theorem exists_choice_of_substitutions (h : pairs ∈ c.substitutions occupancy depth k) :
    (pairs.map Prod.fst).Nodup ∧ ∃ choice, Selects (c.compoundVariables occupancy depth) choice ∧
      Term.ofPairs pairs = (c.specialize occupancy depth k).2.variant choice ∧
      ∀ p ∈ pairs, p.1 ∈ c.vars ∧ p.2 = (c.specialize occupancy depth k).2.replacement p.1 (choice p.1) := by
  have hnodup := c.nodup_compoundVariables occupancy depth
  rw [substitutions, internAll_optionSteps hocc hvars hk (Lexicon.Grows.refl _)] at h
  have hkeys : pairs.map Prod.fst = (c.compoundVariables occupancy depth).map Prod.fst := by
    rw [keys_of_mem_choices h, List.map_map]
    rfl
  rw [← hkeys] at hnodup
  obtain ⟨choice, hselects, hvariant⟩ :=
    (exists_choices_iff (c.nodup_compoundVariables occupancy depth)).1 ⟨pairs, h, rfl⟩
  refine ⟨hnodup, choice, hselects, hvariant.symm, fun p hp => ⟨?_, ?_⟩⟩
  · have hmem : p.1 ∈ (c.compoundVariables occupancy depth).map Prod.fst := by
      rw [← hkeys]
      exact List.mem_map_of_mem hp
    obtain ⟨q, hq, heq⟩ := List.mem_map.1 hmem
    rw [← heq]
    exact (mem_compoundVariables.1 hq).1
  · have hpair : Term.ofPairs pairs p.1 = p.2 := Term.ofPairs_eq hp fun u hu =>
      congrArg Prod.snd (List.inj_on_of_nodup_map hnodup hu hp rfl)
    rw [← hpair, ← hvariant]
    rfl

end Substitutions

end Clause

/-! ## New variables -/

namespace Lexicon

variable {m : Lexicon} {x : Symbol}

theorem nodup_vars_replacement {o : Occupant} (h : m.Names x o) : (m.replacement x o).vars.Nodup := by
  cases o with
  | const => exact List.nodup_singleton x
  | functor f arity =>
    rw [replacement, Term.vars_app, List.flatMap_map]
    refine List.nodup_flatMap.2 ⟨fun i _ => List.nodup_singleton _, ?_⟩
    refine List.nodup_range.imp_of_mem fun {i j} hi hj hne s hsi hsj => hne ?_
    have hsame := (List.mem_singleton.1 hsi).symm.trans (List.mem_singleton.1 hsj)
    exact argument_injective h (List.mem_range.1 hi) (List.mem_range.1 hj) hsame

theorem vars_replacement_ne_nil {o : Occupant} (h : ∀ f arity, o = .functor f arity → arity ≠ 0) :
    (m.replacement x o).vars ≠ [] := by
  cases o with
  | const => exact List.cons_ne_nil x []
  | functor f arity =>
    have hfirst : m.argument x f 0 ∈ (m.replacement x (.functor f arity)).vars :=
      (mem_vars_replacement _).2 (.inr ⟨f, arity, rfl, 0, Nat.pos_of_ne_zero (h f arity rfl), rfl⟩)
    exact List.ne_nil_of_mem hfirst

end Lexicon

section Introduced

variable {m : Lexicon} {xs : List Symbol} {choice : Symbol → Occupant} {pairs : List (Symbol × Term Symbol)}
  (hnames : ∀ x, m.Names x (choice x))
  (hpairs : ∀ p ∈ pairs, p.1 ∈ xs ∧ p.2 = m.replacement p.1 (choice p.1))

include hnames hpairs

/-- A new variable is named after the one that it comes in the place of. -/
theorem exists_below_of_mem_introduced {s : Symbol} (hs : s ∈ introduced pairs) : ∃ x ∈ xs, m.Below x s := by
  obtain ⟨p, hp, hsp⟩ := List.mem_flatMap.1 hs
  obtain ⟨hmem, hne⟩ := List.mem_filter.1 hp
  obtain ⟨hx, hterm⟩ := hpairs p hmem
  rw [hterm] at hsp
  rcases (Lexicon.mem_vars_replacement _).1 hsp with ⟨hconst, -⟩ | ⟨f, arity, hfunctor, i, hi, rfl⟩
  · rw [hconst] at hterm
    exact absurd hterm (of_decide_eq_true hne)
  · have hname := hnames p.1
    rw [hfunctor] at hname
    exact ⟨p.1, hx, Lexicon.below_argument hname hi⟩

theorem nodup_introduced (hap : m.Apart xs) (hknows : ∀ x ∈ xs, m.Knows x) (hnodup : (pairs.map Prod.fst).Nodup) :
    (introduced pairs).Nodup := by
  refine List.nodup_flatMap.2 ⟨fun p hp => ?_, ?_⟩
  · rw [(hpairs p (List.mem_of_mem_filter hp)).2]
    exact Lexicon.nodup_vars_replacement (hnames p.1)
  · have hkeys : pairs.Pairwise fun p q => p.1 ≠ q.1 := List.pairwise_map.1 hnodup
    refine (hkeys.filter _).imp_of_mem fun {p q} hp hq hne s hsp hsq => hne ?_
    obtain ⟨hx, hpterm⟩ := hpairs p (List.mem_of_mem_filter hp)
    obtain ⟨hy, hqterm⟩ := hpairs q (List.mem_of_mem_filter hq)
    simp only [hpterm] at hsp
    simp only [hqterm] at hsq
    exact hap.eq_of_mem_replacement hknows (fun x _ => hnames x) hx hy hsp hsq

end Introduced

/-- What a step gives stands among the results, as it is in the lexicon that the steps before it leave. -/
theorem mem_internAll_append {α : Type} (before : List (Lexicon → α × Lexicon)) (step : Lexicon → α × Lexicon)
    (after : List (Lexicon → α × Lexicon)) (l : Lexicon) :
    (step (internAll before l).2).1 ∈ (internAll (before ++ step :: after) l).1 := by
  induction before generalizing l with
  | nil =>
    rw [List.nil_append, internAll_cons]
    exact List.mem_cons_self
  | cons first before ih =>
    rw [List.cons_append, internAll_cons, internAll_cons]
    exact List.mem_cons_of_mem _ (ih _)

section Main

variable {φs ψs χs before after : List (Formula Symbol)} {l k : Lexicon} {c : Clause Symbol} {depth : Nat}

/-- The variants of a rule are among those of the description. -/
theorem toFormula_mem_specialize {pairs : List (Symbol × Term Symbol)} (hrule : χs = before ++ c.toFormula :: after)
    (hpairs : pairs ∈ c.substitutions (.ofFormulas χs) depth
      (internAll (before.map (Formula.specialize (.ofFormulas χs) depth)) k).2) :
    (c.subst (Term.ofPairs pairs)).toFormula ∈ (specialize depth χs k).1 := by
  rw [specialize_eq, mem_distinct]
  have hmet := mem_internAll_append (before.map (Formula.specialize (.ofFormulas χs) depth))
    (Formula.specialize (.ofFormulas χs) depth c.toFormula)
    (after.map (Formula.specialize (.ofFormulas χs) depth)) k
  rw [← List.map_cons, ← List.map_append, ← hrule] at hmet
  exact List.mem_flatten.2 ⟨_, hmet, List.mem_map_of_mem (List.mem_map_of_mem hpairs)⟩

/-- If no name of a description has a dot, then in every pass and for every variant of a rule, the variables that the
substitution introduces are pairwise different, none of them is a variable of the rule, none is a constant, function or
relation of the description, or anything that stood in it at first, and different variables of the rule get different
terms, without a common variable. -/
theorem introduced_variables_fresh (hl : l.Covers φs)
    (hdots : ∀ φ ∈ φs, ∀ s ∈ φ.symbols, '.' ∉ (l.resolve s).toList)
    (hpasses : PassesTo (some (compoundDepth φs)) (φs, l) (ψs, k)) (hsimplify : simplifyAll ψs = .ok χs)
    (hrule : χs = before ++ c.toFormula :: after) :
    let occupancy := Occupancy.ofFormulas χs
    let depth := compoundDepth φs
    let met := (internAll (before.map (Formula.specialize occupancy depth)) k).2
    (c.specialize occupancy depth met).1 =
        (c.substitutions occupancy depth met).map (fun pairs => c.subst (Term.ofPairs pairs)) ∧
      ∀ pairs ∈ c.substitutions occupancy depth met,
        (c.subst (Term.ofPairs pairs)).toFormula ∈ (specialize depth χs k).1 ∧
        (introduced pairs).Nodup ∧
        (∀ s ∈ introduced pairs, s ∉ c.vars ∧ (∀ χ ∈ χs, s ∉ χ.rigid) ∧ ∀ φ ∈ φs, s ∉ φ.symbols) ∧
        ∀ x ∈ c.vars, ∀ y ∈ c.vars, x ≠ y → Term.ofPairs pairs x ≠ Term.ofPairs pairs y ∧
          (Term.ofPairs pairs x).vars.Disjoint (Term.ofPairs pairs y).vars := by
  intro occupancy depth met
  refine ⟨rfl, fun pairs hpairs => ⟨toFormula_mem_specialize hrule hpairs, ?_⟩⟩
  have hwell := ((WellNamed.refl hl hdots).passesTo hpasses).simplified hsimplify
  have hc : c.toFormula ∈ χs := by
    rw [hrule]
    exact List.mem_append_right _ List.mem_cons_self
  have hocc : ∀ site, ∀ o ∈ occupancy.lookup site, k.KnowsOccupant o := fun _ _ ho => hwell.covers.knowsOccupant ho
  have hvars : ∀ x ∈ c.vars, k.Knows x := fun x hx =>
    hwell.covers _ hc x (Formula.mem_symbols_of_mem_vars (List.mem_eraseDups.1 hx))
  -- the lexicon grows on the way to the rule, and while its variants are made
  have hmet : k.Grows met := by
    refine (Lexicon.settles_internAll fun step hstep => ?_).grows (Lexicon.Grows.refl k)
    refine settles_specialize_steps hwell.covers depth step (List.map_subset _ ?_ hstep)
    rw [hrule]
    exact List.subset_append_left _ _
  have hm : k.Grows (c.specialize occupancy depth met).2 :=
    hmet.trans ((Clause.settles_specialize hocc hvars).grows hmet)
  obtain ⟨hnodup, choice, hselects, hvariant, hterms⟩ :=
    Clause.exists_choice_of_substitutions hocc hvars hmet hpairs
  have hnames := Clause.names_of_selects hocc hvars hmet (Lexicon.Grows.refl _) hselects
  have hknows := fun x hx => (hvars x hx).grows hm
  have hap : (c.specialize occupancy depth met).2.Apart c.vars := by
    refine Lexicon.Apart.grows (fun x hx y hy => ?_) hvars hm
    exact hwell.apart _ hc x (List.mem_eraseDups.1 hx) y (List.mem_eraseDups.1 hy)
  refine ⟨nodup_introduced hnames hterms hap hknows hnodup, fun s hs => ?_, fun x hx y hy hne => ?_⟩
  · obtain ⟨x, hx, hbelow⟩ := exists_below_of_mem_introduced hnames hterms hs
    exact ⟨fun hmem => hap x hx s hmem hbelow, hwell.not_mem_of_dot_mem hl hdots hm hbelow.dot_mem⟩
  · rw [hvariant]
    have hdisjoint : ((c.specialize occupancy depth met).2.variant choice x).vars.Disjoint
        ((c.specialize occupancy depth met).2.variant choice y).vars := fun s hsx hsy =>
      hne (hap.eq_of_mem_replacement hknows (fun x _ => hnames x) hx hy hsx hsy)
    -- a function without arguments could come twice, but a pass has none
    have hsome : ((c.specialize occupancy depth met).2.variant choice x).vars ≠ [] := by
      refine Lexicon.vars_replacement_ne_nil fun f arity hchoice => ?_
      obtain ⟨site, hsite⟩ := Formula.exists_lookup_of_selects (φ := c.toFormula) hselects hchoice
      exact arity_ne_zero_of_lookup (tidy_of_simplifyAll hsimplify) hsite
    obtain ⟨s, hs⟩ := List.exists_mem_of_ne_nil _ hsome
    refine ⟨fun heq => hdisjoint hs ?_, hdisjoint⟩
    rwa [← heq]

end Main

/-- Names: relations, functions, constants and variables. -/
def boxNames : Lexicon := .ofNames ["held", "seen", "box", "pair", "a", "b", "x", "y"]

/-- A box with a pair in it is held. -/
def heldBox : Formula Symbol :=
  let box (t : Term Symbol) : Term Symbol := .app ⟨16⟩ [t]
  let pair (s t : Term Symbol) : Term Symbol := .app ⟨17⟩ [s, t]
  .atom ⟨⟨14⟩, [box (pair (.const ⟨18⟩) (.const ⟨19⟩))]⟩

/-- Two things that are held are seen together, where the things are the given terms. -/
def seenTogether (s t : Term Symbol) : Clause Symbol :=
  let held (t : Term Symbol) : Formula Symbol := .atom ⟨⟨14⟩, [t]⟩
  let seen (s t : Term Symbol) : Atom Symbol := ⟨⟨15⟩, [s, t]⟩
  ⟨seen s t, [held s, held t]⟩

/-- The first pass replaces both variables by boxes, and the second what is in the boxes by pairs. -/
theorem introduced_variables_fresh_boxes :
    let φs := [heldBox, (seenTogether (.var ⟨20⟩) (.var ⟨21⟩)).toFormula]
    let c := seenTogether (.app ⟨16⟩ [.var ⟨22⟩]) (.app ⟨16⟩ [.var ⟨23⟩])
    let pairs : List (Symbol × Term Symbol) :=
      [(⟨22⟩, .app ⟨17⟩ [.var ⟨24⟩, .var ⟨25⟩]), (⟨23⟩, .app ⟨17⟩ [.var ⟨26⟩, .var ⟨27⟩])]
    boxNames.Covers φs ∧ (∀ φ ∈ φs, ∀ s ∈ φ.symbols, '.' ∉ (boxNames.resolve s).toList) ∧
      ∃ ψs k, PassesTo (some (compoundDepth φs)) (φs, boxNames) (ψs, k) ∧
        simplifyAll ψs = .ok ([heldBox] ++ c.toFormula :: []) ∧
        (c.subst (Term.ofPairs pairs)).toFormula ∈ (specialize (compoundDepth φs) [heldBox, c.toFormula] k).1 ∧
        introduced pairs = [⟨24⟩, ⟨25⟩, ⟨26⟩, ⟨27⟩] ∧ (introduced pairs).Nodup ∧
        ∀ s ∈ introduced pairs, s ∉ c.vars ∧ s ∉ heldBox.rigid ∧ ∀ φ ∈ φs, s ∉ φ.symbols := by
  intro φs c pairs
  have hl : boxNames.Covers φs := by decide +kernel
  have hdots : ∀ φ ∈ φs, ∀ s ∈ φ.symbols, '.' ∉ (boxNames.resolve s).toList := by decide +kernel
  have hrun : (normalizePass (some (compoundDepth φs)) φs boxNames).toOption.any (fun q =>
      (simplifyAll q.1).toOption.any fun χs => decide (χs = [heldBox] ++ c.toFormula :: []) &&
        decide (pairs ∈ c.substitutions (.ofFormulas χs) (compoundDepth φs)
          (internAll ([heldBox].map (Formula.specialize (.ofFormulas χs) (compoundDepth φs))) q.2).2)) = true := by
    decide +kernel
  rcases hpass : normalizePass (some (compoundDepth φs)) φs boxNames with e | ⟨ψs, k⟩
  · rw [hpass] at hrun
    cases hrun
  rcases hsimplify : simplifyAll ψs with e | χs
  · simp [hpass, hsimplify, Except.toOption] at hrun
  obtain ⟨rfl, hpairs⟩ : χs = [heldBox] ++ c.toFormula :: [] ∧
      pairs ∈ c.substitutions (.ofFormulas χs) (compoundDepth φs)
        (internAll ([heldBox].map (Formula.specialize (.ofFormulas χs) (compoundDepth φs))) k).2 := by
    simpa [hpass, hsimplify, Except.toOption] using hrun
  have hpasses : PassesTo (some (compoundDepth φs)) (φs, boxNames) (ψs, k) := Relation.ReflTransGen.single hpass
  obtain ⟨hmem, hnodup, hfresh, -⟩ := (introduced_variables_fresh hl hdots hpasses hsimplify rfl).2 pairs hpairs
  refine ⟨hl, hdots, ψs, k, hpasses, hsimplify, hmem, by decide, hnodup, fun s hs => ?_⟩
  obtain ⟨hvars, hrigid, hsymbols⟩ := hfresh s hs
  exact ⟨hvars, hrigid _ List.mem_cons_self, hsymbols⟩

end GameCircuit
