import GameCircuit.Proofs.FreshEntries
import Mathlib.Order.Filter.Finite

/-!
# The first choice that brings in another entry

If the first formula with another entry comes from one and the same formula in every pass, it comes by the first choice
whose variant holds another entry (`PassRun.opening?`), and this choice settles (`PassRun.Source.exists_opening_settled`).
There are three cases.

* The first choice of all takes a function that no given entry allows.  What it takes for a variable is next time the
  first of what it takes at the site of the variable.  No two variables for which it takes such a function stand at one
  site (`PassRun.Source.first_eq_fixed`), so that this happens but once.
* The first choice of all is settled, and the choice at hand takes such a function for some variable.  Then this function
  comes next at the site of the variable, and the choice stays the same.
* The choice at hand takes what the given entries allow.  The order of such choices is the same in every pass.

So one entry after the other settles, and then the description does (`PassRun.exists_stage_settled`).
-/

namespace GameCircuit

open Filter

namespace PassRun

variable {R : PassRun} {k : Nat} {W : List (Site × Occupant)} {φ ψ : Formula Symbol} {x : Symbol} {o : Occupant} {s : Site}
  {choice choice' : Symbol → Occupant}

/-- The first choice whose variant holds another entry. -/
def opening? (R : PassRun) (W : List (Site × Occupant)) (k : Nat) (φ : Formula Symbol) : Option (Symbol → Occupant) :=
  (assignments (R.options k φ)).find? fun choice => !(φ.variant R.naming choice).within R.depth W

theorem opening?_eq_some : R.opening? W k φ = some choice ↔ Selects (R.options k φ) choice ∧
    (φ.variant R.naming choice).within R.depth W = false ∧ ∀ choice', Selects (R.options k φ) choice' →
      Earlier (R.options k φ) choice' choice → (φ.variant R.naming choice').within R.depth W = true := by
  rw [opening?, find?_assignments_eq_some (R.nodup_options k φ) R.nodup_of_mem_options]
  simp only [Bool.not_eq_true', Bool.not_eq_false']

/-- A variant of a formula that holds given entries only has others where a variable is replaced. -/
theorem exists_mem_outline_of_mem_newEntries (hφ : φ.within R.depth W = true)
    (h : (s, o) ∈ R.newEntries W (φ.variant R.naming choice)) :
    ∃ y, choice y = o ∧ o ≠ .const ∧ (s, .free y) ∈ φ.outline R.depth := by
  obtain ⟨hmem, hnew⟩ := mem_newEntries.1 h
  refine (Formula.mem_outline_variant_filled (mem_filledEntries.1 hmem)).resolve_left fun hold => hnew ?_
  exact Formula.within_iff.1 hφ _ (mem_filledEntries.2 hold)

namespace Ordered

variable (O : R.Ordered φ)

/-- What a variable stands for by the first choice of a pass. -/
def first (k : Nat) (x : Symbol) : Occupant :=
  if x ∈ O.keys then (O.candidates (R.order k) x).headD .const else .const

/-- What a variable stands for by the first choice, as far as given entries settle it. -/
def fixed (W : List (Site × Occupant)) (x : Symbol) : Occupant :=
  if x ∈ O.keys then (O.leading W x).headD .const else .const

theorem leading_eq (es : List (Site × Occupant)) (x : Symbol) :
    O.leading es x = (es.filter fun p => decide (p.1 = O.lead x) && O.early x p.2).map Prod.snd := by
  rw [leading, standing, List.filter_map, List.filter_filter]
  simp only [Function.comp_def, Bool.and_comm]

theorem mem_leading {es : List (Site × Occupant)} : o ∈ O.leading es x ↔ (O.lead x, o) ∈ es ∧ O.early x o = true := by
  rw [leading, List.mem_filter, mem_standing]

theorem leading_append (es es' : List (Site × Occupant)) (x : Symbol) :
    O.leading (es ++ es') x = O.leading es x ++ O.leading es' x := by
  simp only [leading_eq, List.filter_append, List.map_append]

theorem leading_flatMap {α : Type} (as : List α) (f : α → List (Site × Occupant)) (x : Symbol) :
    O.leading (as.flatMap f) x = as.flatMap fun a => O.leading (f a) x := by
  simp only [leading_eq, List.filter_flatMap, List.map_flatMap]

theorem leading_eraseDups (es : List (Site × Occupant)) (x : Symbol) :
    O.leading es.eraseDups x = (O.leading es x).eraseDups := by
  rw [leading, standing_eraseDups, ← eraseDups_filter]
  rfl

/-- Where the given entries allow nothing, all that counts of a formula is new. -/
theorem leading_newEntries (h : O.leading W x = []) (ψ : Formula Symbol) :
    O.leading (R.newEntries W ψ) x = O.leading (ψ.occupied R.depth) x := by
  rw [O.leading_eq, O.leading_eq, newEntries, List.filter_filter]
  refine congrArg (List.map Prod.snd) (List.filter_congr fun p _ => ?_)
  by_cases hp : p ∈ W
  · have hnone : ¬ (p.1 = O.lead x ∧ O.early x p.2 = true) := by
      rintro ⟨hsite, hearly⟩
      have hmem : p.2 ∈ O.leading W x := O.mem_leading.2 ⟨by rw [← hsite]; exact hp, hearly⟩
      rw [h] at hmem
      cases hmem
    simpa [hp] using hnone
  · simp [hp]

theorem leading_fillEntry_of_ne (hs : s ≠ O.lead x) (choice : Symbol → Occupant) (c : Content) :
    O.leading (fillEntry choice (s, c)) x = [] := by
  refine List.eq_nil_iff_forall_not_mem.2 fun o ho => hs ?_
  exact (fst_eq_of_mem_fillEntry (O.mem_leading.1 ho).1).symm

theorem candidates_ne_nil (k : Nat) (hx : x ∈ O.keys) : O.candidates (R.order k) x ≠ [] :=
  Formula.ne_nil_of_mem_options (O.mem_options.2 ⟨hx, rfl⟩)

theorem first_of_mem (k : Nat) (hx : x ∈ O.keys) : ∃ os, O.candidates (R.order k) x = O.first k x :: os := by
  obtain ⟨o, os, hos⟩ := List.exists_cons_of_ne_nil (O.candidates_ne_nil k hx)
  exact ⟨os, by rw [first, if_pos hx, hos, List.headD_cons]⟩

theorem first_of_not_mem (k : Nat) (hx : x ∉ O.keys) : O.first k x = .const := if_neg hx

theorem selects_first (k : Nat) : Selects (R.options k φ) (O.first k) := by
  refine O.selects_iff.2 ⟨fun x hx => ?_, fun x hx => O.first_of_not_mem k hx⟩
  obtain ⟨os, hos⟩ := O.first_of_mem k hx
  rw [hos]
  exact List.mem_cons_self

theorem idxOf_first (k : Nat) : ∀ p ∈ R.options k φ, p.2.idxOf (O.first k p.1) = 0 := by
  intro p hp
  obtain ⟨hx, hos⟩ := O.mem_options.1 hp
  obtain ⟨os, hfirst⟩ := O.first_of_mem k hx
  rw [hos, hfirst, List.idxOf_cons_self]

theorem not_earlier_first (k : Nat) : ¬ Earlier (R.options k φ) choice (O.first k) :=
  not_earlier_of_forall_idxOf_eq_zero (O.idxOf_first k)

theorem opening?_eq_first (h : (φ.variant R.naming (O.first k)).within R.depth W = false) :
    R.opening? W k φ = some (O.first k) :=
  opening?_eq_some.2 ⟨O.selects_first k, h, fun _ _ hearlier => absurd hearlier (O.not_earlier_first k)⟩

theorem exists_variants_eq (k : Nat) : ∃ ψs, R.variants k φ = φ.variant R.naming (O.first k) :: ψs := by
  have hhead : (assignments (R.options k φ)).find? (fun _ => true) = some (O.first k) :=
    (find?_assignments_eq_some (R.nodup_options k φ) R.nodup_of_mem_options).2
      ⟨O.selects_first k, rfl, fun _ _ hearlier => absurd hearlier (O.not_earlier_first k)⟩
  obtain ⟨-, before, after, hassignments, hbefore⟩ := List.find?_eq_some_iff_append.1 hhead
  have hnil : before = [] := List.eq_nil_iff_forall_not_mem.2 fun c hc => by simpa using hbefore c hc
  rw [hnil, List.nil_append] at hassignments
  refine ⟨after.map (φ.variant R.naming), ?_⟩
  show (assignments (R.options k φ)).map (φ.variant R.naming) = _
  rw [hassignments, List.map_cons]

section Fixed

variable (hfixed : ∀ k, O.first k = O.fixed W) {y : Symbol} (hopening : R.opening? W k φ = some choice)
  (hy : choice y ≠ .const) (hnew : choice y ∉ O.leading W y)

include hfixed hopening hy hnew

/-- If the first choices are settled and another entry is brought in by what no given entry allows for a variable, then
the choices are the first ones for all other variables. -/
theorem eq_update_of_opening? : choice = Function.update (O.fixed W) y (choice y) ∧ y ∈ O.keys ∧
    O.early y (choice y) = true ∧ (O.lead y, choice y) ∉ W ∧
      (φ.variant R.naming (O.fixed W)).within R.depth W = true := by
  obtain ⟨hselects, hout, hearlier⟩ := opening?_eq_some.1 hopening
  have hkey : y ∈ O.keys := by
    by_contra hkey
    exact hy ((O.selects_iff.1 hselects).2 y hkey)
  have hmem := (O.selects_iff.1 hselects).1 y hkey
  have hearly := (O.early_of_mem_candidates hkey hmem hy).1
  have hentry : (O.lead y, choice y) ∉ W := fun hW => hnew (O.mem_leading.2 ⟨hW, hearly⟩)
  refine ⟨?_, hkey, hearly, hentry, ?_⟩
  · by_contra hne
    have hupdate : Selects (R.options k φ) (Function.update (O.fixed W) y (choice y)) := by
      rw [← hfixed k]
      exact (O.selects_first k).update (R.nodup_options k φ) (O.mem_options.2 ⟨hkey, rfl⟩) hmem
    have hle : ∀ p ∈ R.options k φ,
        p.2.idxOf (Function.update (O.fixed W) y (choice y) p.1) ≤ p.2.idxOf (choice p.1) := by
      intro p hp
      by_cases hpy : p.1 = y
      · rw [hpy, Function.update_self]
      · rw [Function.update_of_ne hpy, ← hfixed k, O.idxOf_first k p hp]
        exact Nat.zero_le _
    have hwithin := hearlier _ hupdate (earlier_of_forall_le hupdate hselects hle (Ne.symm hne))
    have hmem := (within_variant_iff.1 hwithin).2 _ y (O.mem_outline hkey)
    rw [Function.update_self] at hmem
    exact hentry (hmem hy)
  · -- otherwise the first choices would come before
    by_contra hwithin
    rw [← hfixed k, Bool.not_eq_true] at hwithin
    rw [O.opening?_eq_first hwithin, hfixed k] at hopening
    rw [← Option.some.inj hopening, fixed, if_pos hkey] at hy hnew
    cases hleading : O.leading W y with
    | nil => exact hy (by rw [hleading]; rfl)
    | cons o os => exact hnew (by rw [hleading]; exact List.mem_cons_self)

end Fixed

section Phase

variable {M : List (Formula Symbol)} (P : R.Phase W M)

include P

/-- A variable whose first choice is not settled by the given entries has a function there that none of them is. -/
theorem spec_of_first_ne_fixed (h : O.first k x ≠ O.fixed W x) : x ∈ O.keys ∧ O.leading W x = [] ∧
    O.first k x ≠ .const ∧ O.early x (O.first k x) = true ∧ (O.lead x, O.first k x) ∉ W := by
  have hx : x ∈ O.keys := by
    by_contra hx
    exact h (by rw [first, fixed, if_neg hx, if_neg hx])
  obtain ⟨rest, hcandidates, -, -⟩ := O.exists_candidates_eq hx (P.begins k)
  have hleading : O.leading W x = [] := by
    cases hW : O.leading W x with
    | nil => rfl
    | cons o os => exact absurd (by rw [first, fixed, if_pos hx, if_pos hx, hcandidates, hW]; rfl) h
  have hfirst : O.first k x ≠ .const := by
    rw [fixed, if_pos hx, hleading] at h
    exact h
  have hmem := (O.selects_iff.1 (O.selects_first k)).1 x hx
  have hearly := (O.early_of_mem_candidates hx hmem hfirst).1
  refine ⟨hx, hleading, hfirst, hearly, fun hW => ?_⟩
  have hlead : O.first k x ∈ O.leading W x := O.mem_leading.2 ⟨hW, hearly⟩
  rw [hleading] at hlead
  cases hlead

theorem within_first_eq_false (h : O.first k x ≠ O.fixed W x) :
    (φ.variant R.naming (O.first k)).within R.depth W = false := by
  obtain ⟨hx, -, hfirst, -, hnew⟩ := O.spec_of_first_ne_fixed P h
  rw [Bool.eq_false_iff]
  exact fun hwithin => hnew ((within_variant_iff.1 hwithin).2 _ x (O.mem_outline hx) hfirst)

end Phase

end Ordered

namespace Source

variable {before after : List (Formula Symbol)} (S : R.Source W before φ after) (O : R.Ordered φ)

include S

theorem within : φ.within R.depth W = true := S.phase.within (by simp)

theorem exists_opening? (k : Nat) : ∃ choice, R.opening? W k φ = some choice := by
  obtain ⟨ψ, hψ, hout⟩ := S.fertile k
  obtain ⟨choice, hchoice, rfl⟩ := List.mem_map.1 hψ
  exact Option.isSome_iff_exists.1 (List.find?_isSome.2 ⟨choice, hchoice, by simp [hout]⟩)

theorem exists_stage_eq (k : Nat) : ∃ rest, R.stage k = before ++ φ :: rest :=
  S.phase.exists_stage_eq_of_mem_front rfl (S.present k)

/-- The first formula with another entry is the variant by the first choice that brings one in. -/
theorem fresh?_succ (h : R.opening? W k φ = some choice) :
    R.fresh? W (k + 1) = some (φ.variant R.naming choice) := by
  obtain ⟨rest, hstage⟩ := S.exists_stage_eq k
  rw [fresh?_succ_of_quiet hstage (S.quiet k) (S.fertile k)]
  show ((assignments (R.options k φ)).map (φ.variant R.naming)).find? _ = _
  rw [List.find?_map]
  show (R.opening? W k φ).map _ = _
  rw [h, Option.map_some]

/-- What a variable may stand for goes on, behind what the given entries allow, with what the variant before has
brought in. -/
theorem exists_candidates_succ (h : R.opening? W k φ = some choice) (x : Symbol) : ∃ rest,
    O.candidates (R.order (k + 1)) x = O.leading W x ++
      (O.leading (R.newEntries W (φ.variant R.naming choice)) x).eraseDups ++ rest := by
  obtain ⟨rest, horder⟩ := exists_order_eq (S.phase.begins (k + 1)) (S.fresh?_succ h)
  refine ⟨O.candidates rest x, ?_⟩
  rw [horder, O.candidates_append, O.leading_append, O.leading_eraseDups]

/-! ### First choices that are not settled -/

/-- No two variables whose first choices are not settled stand at one site. -/
theorem first_eq_fixed {y : Symbol} (hx : O.first k x ≠ O.fixed W x) (hne : x ≠ y)
    (hy : (O.lead x, .free y) ∈ φ.outline R.depth) : O.first k y = O.fixed W y := by
  by_contra hloose
  obtain ⟨hkey, -⟩ := O.spec_of_first_ne_fixed S.phase hx
  -- the formula comes from one before it, where one of the two has the same places
  have hborn : φ ∈ before.flatMap (R.variants k) := by
    obtain ⟨rest, hstage⟩ := S.exists_stage_eq k
    obtain ⟨ψs, hψs⟩ := O.exists_variants_eq k
    exact mem_flatMap_of_mem_front hstage hψs (O.within_first_eq_false S.phase hx) (S.present (k + 1))
  obtain ⟨ψ, hψ, z, hz, hprofile⟩ := S.phase.exists_profile_eq rfl (S.quiet k) hborn hne (O.mem_outline hkey) hy
  have hz : O.first k z ≠ O.fixed W z := hz.elim (fun h => h ▸ hx) fun h => h ▸ hloose
  obtain ⟨hkey, -, hfunctor, -, hnew⟩ := O.spec_of_first_ne_fixed S.phase hz
  -- there it brings in the same function, which none of the given entries is
  have hoption : (z, O.candidates (R.order k) z) ∈ R.options k φ := O.mem_options.2 ⟨hkey, rfl⟩
  obtain ⟨choice, hselects⟩ := Formula.exists_selects_options (standing (R.order k)) R.depth ψ
  have hupdate := hselects.update (R.nodup_options k ψ) (Formula.mem_options_of_profile_eq hoption hprofile)
    ((O.selects_iff.1 (O.selects_first k)).1 z hkey)
  have hwithin := S.quiet k ψ hψ _ (mem_variants.2 ⟨_, hupdate, rfl⟩)
  have hplace : (O.lead z, .free z) ∈ ψ.outline R.depth := by
    obtain ⟨alternatives, halternatives, sites, hsites, hlead⟩ := O.lead_mem z hkey
    rw [← hprofile] at halternatives
    exact Formula.mem_outline.2 ⟨Formula.mem_walk_of_mem_profile halternatives hsites hlead, O.lead_le z hkey⟩
  have hentry := (within_variant_iff.1 hwithin).2 _ z hplace
  rw [Function.update_self] at hentry
  exact hnew (hentry hfunctor)

/-- The first choice for a variable that is not settled is next time the first of what is chosen at its site. -/
theorem exists_first_succ (x : Symbol) : ∃ os : List Occupant, ∀ k, O.first k x ≠ O.fixed W x →
    O.first (k + 1) x = os.headD (O.first k x) ∧ O.first (k + 1) x ≠ O.fixed W x := by
  by_cases hkey : x ∈ O.keys
  swap
  · exact ⟨[], fun k h => absurd (O.spec_of_first_ne_fixed S.phase h).1 hkey⟩
  obtain ⟨es, es', houtline, hes⟩ := List.eq_append_cons_of_mem (O.mem_outline hkey)
  refine ⟨O.leading (es.flatMap (fillEntry (O.fixed W))) x, fun k h => ?_⟩
  obtain ⟨-, hleading, hfunctor, hearly, hnew⟩ := O.spec_of_first_ne_fixed S.phase h
  have hopening := O.opening?_eq_first (O.within_first_eq_false S.phase h)
  -- before the place of the variable, all that counts at its site is settled
  have hbefore : O.leading (es.flatMap (fillEntry (O.first k))) x = O.leading (es.flatMap (fillEntry (O.fixed W))) x := by
    rw [O.leading_flatMap, O.leading_flatMap]
    refine List.flatMap_congr fun e he => ?_
    obtain ⟨s, c⟩ := e
    by_cases hs : s = O.lead x
    · subst hs
      cases c with
      | filled o => rfl
      | free y =>
        have hne : x ≠ y := fun hxy => hes (by rwa [← hxy] at he)
        have hfixed := S.first_eq_fixed O h hne (by rw [houtline]; exact List.mem_append_left _ he)
        simp only [fillEntry, hfixed]
    · rw [O.leading_fillEntry_of_ne hs, O.leading_fillEntry_of_ne hs]
  have hself : O.leading (fillEntry (O.first k) (O.lead x, .free x)) x = [O.first k x] := by
    rw [O.leading_eq, fillEntry_free, if_pos (isFunctor_iff.2 hfunctor)]
    simp [hearly]
  obtain ⟨os, hos⟩ : ∃ os, O.leading (R.newEntries W (φ.variant R.naming (O.first k))) x =
      O.leading (es.flatMap (fillEntry (O.fixed W))) x ++ O.first k x :: os := by
    rw [O.leading_newEntries hleading, Formula.occupied_variant, houtline, List.flatMap_append, List.flatMap_cons,
      O.leading_append, O.leading_append, hbefore, hself, List.singleton_append]
    exact ⟨_, rfl⟩
  obtain ⟨o, os', hos'⟩ : ∃ o os', O.leading (R.newEntries W (φ.variant R.naming (O.first k))) x = o :: os' :=
    List.exists_cons_of_ne_nil (by rw [hos]; simp)
  obtain ⟨rest, hcandidates⟩ := S.exists_candidates_succ O hopening x
  have hfirst : O.first (k + 1) x = o := by
    rw [Ordered.first, if_pos hkey, hcandidates, hleading, hos', List.eraseDups_cons]
    rfl
  have hhead : o = (O.leading (es.flatMap (fillEntry (O.fixed W))) x).headD (O.first k x) := by
    rw [hos] at hos'
    cases hC : O.leading (es.flatMap (fillEntry (O.fixed W))) x with
    | nil =>
      rw [hC, List.nil_append] at hos'
      exact (List.cons.inj hos').1.symm
    | cons o' os'' =>
      rw [hC, List.cons_append] at hos'
      exact (List.cons.inj hos').1.symm
  refine ⟨hfirst.trans hhead, ?_⟩
  rw [hfirst, Ordered.fixed, if_pos hkey, hleading]
  have hmem : o ∈ O.leading (R.newEntries W (φ.variant R.naming (O.first k))) x := by
    rw [hos']
    exact List.mem_cons_self
  obtain ⟨-, -, hne, -⟩ := exists_mem_outline_of_mem_newEntries S.within (O.mem_leading.1 hmem).1
  exact hne

theorem first_ne_fixed_of_le {n : Nat} (h : O.first n x ≠ O.fixed W x) (hk : n ≤ k) : O.first k x ≠ O.fixed W x := by
  obtain ⟨os, hos⟩ := S.exists_first_succ O x
  induction k, hk using Nat.le_induction with
  | base => exact h
  | succ k _ ih => exact (hos k ih).2

/-- Unsettled first choices do not change for ever. -/
theorem exists_first_settled (x : Symbol) : ∃ o, ∀ᶠ k in atTop, O.first k x = o := by
  by_cases hever : ∃ n, O.first n x ≠ O.fixed W x
  · obtain ⟨n, hn⟩ := hever
    obtain ⟨os, hos⟩ := S.exists_first_succ O x
    refine ⟨os.headD (O.first n x), eventually_atTop.2 ⟨n + 1, fun k hk => ?_⟩⟩
    induction k, hk using Nat.le_induction with
    | base => exact (hos n hn).1
    | succ k hk ih =>
      rw [(hos k (S.first_ne_fixed_of_le O hn (Nat.le_of_succ_le hk))).1, ih]
      cases os with
      | nil => rfl
      | cons o os => rfl
  · exact ⟨O.fixed W x, Eventually.of_forall fun k => not_not.1 fun hk => hever ⟨k, hk⟩⟩

theorem exists_opening_of_first_ne_fixed {n : Nat} (h : O.first n x ≠ O.fixed W x) :
    ∃ choice, ∀ᶠ k in atTop, R.opening? W k φ = some choice := by
  choose choice hchoice using S.exists_first_settled O
  have hkeys : ∀ᶠ k in atTop, ∀ y ∈ O.keys, O.first k y = choice y :=
    (eventually_all_finite (List.finite_toSet O.keys)).2 fun y _ => hchoice y
  obtain ⟨m, hm⟩ := eventually_atTop.1 hkeys
  refine ⟨O.first m, eventually_atTop.2 ⟨max n m, fun k hk => ?_⟩⟩
  have hfirst : O.first k = O.first m := by
    funext y
    by_cases hy : y ∈ O.keys
    · rw [hm k (le_of_max_le_right hk) y hy, hm m le_rfl y hy]
    · rw [O.first_of_not_mem k hy, O.first_of_not_mem m hy]
  rw [← hfirst]
  exact O.opening?_eq_first (O.within_first_eq_false S.phase (S.first_ne_fixed_of_le O h (le_of_max_le_left hk)))

/-! ### Choices that differ from settled first ones -/

section Fixed

variable (hfixed : ∀ k, O.first k = O.fixed W) {y : Symbol} (hopening : R.opening? W k φ = some choice)
  (hy : choice y ≠ .const) (hnew : choice y ∉ O.leading W y)

include hfixed hopening hy hnew

/-- Then what is chosen for the variable comes next among what it may stand for. -/
theorem exists_candidates_of_opening? : ∃ os, O.candidates (R.order (k + 1)) y = O.leading W y ++ choice y :: os := by
  obtain ⟨hupdate, hkey, hearly, hentry, hwithin⟩ := O.eq_update_of_opening? hfixed hopening hy hnew
  obtain ⟨rest, hcandidates⟩ := S.exists_candidates_succ O hopening y
  have hall : ∀ o ∈ O.leading (R.newEntries W (φ.variant R.naming choice)) y, o = choice y := by
    intro o ho
    have hmem := (O.mem_leading.1 ho).1
    obtain ⟨z, rfl, hne, hz⟩ := exists_mem_outline_of_mem_newEntries S.within hmem
    by_cases hzy : z = y
    · rw [hzy]
    · have hother : choice z = O.fixed W z := by rw [hupdate, Function.update_of_ne hzy]
      rw [hother] at hne hmem
      exact absurd ((within_variant_iff.1 hwithin).2 _ z hz hne) (mem_newEntries.1 hmem).2
  have hmem : choice y ∈ O.leading (R.newEntries W (φ.variant R.naming choice)) y := by
    refine O.mem_leading.2 ⟨mem_newEntries.2 ⟨?_, hentry⟩, hearly⟩
    rw [Formula.occupied_variant]
    refine List.mem_flatMap.2 ⟨_, O.mem_outline hkey, ?_⟩
    rw [fillEntry_free, if_pos (isFunctor_iff.2 hy)]
    exact List.mem_singleton_self _
  cases hleading : O.leading (R.newEntries W (φ.variant R.naming choice)) y with
  | nil =>
    rw [hleading] at hmem
    cases hmem
  | cons o os =>
    have ho : o = choice y := hall o (by rw [hleading]; exact List.mem_cons_self)
    rw [hcandidates, hleading, List.eraseDups_cons, ho, List.append_assoc, List.cons_append]
    exact ⟨_, rfl⟩

/-- Then the same choice brings in another entry next time. -/
theorem opening?_succ : R.opening? W (k + 1) φ = some choice := by
  obtain ⟨hselects, hout, hearlier⟩ := opening?_eq_some.1 hopening
  obtain ⟨hupdate, hkey, -⟩ := O.eq_update_of_opening? hfixed hopening hy hnew
  obtain ⟨os, hos⟩ := S.exists_candidates_of_opening? O hfixed hopening hy hnew
  obtain ⟨os', hos', -⟩ := O.exists_candidates_eq hkey (S.phase.begins k)
  refine opening?_eq_some.2 ⟨(O.selects_iff_of_steady S.phase.steady k (k + 1)).1 hselects, hout,
    fun choice' hselects' hearlier' => ?_⟩
  refine hearlier choice' ((O.selects_iff_of_steady S.phase.steady (k + 1) k).1 hselects') ?_
  rw [O.options_eq] at hearlier' ⊢
  refine hearlier'.mono fun x hx hlt => ?_
  by_cases hxy : x = y
  · subst hxy
    have hlt : (O.candidates (R.order (k + 1)) x).idxOf (choice' x) <
        (O.candidates (R.order (k + 1)) x).idxOf (choice x) := hlt
    show (O.candidates (R.order k) x).idxOf (choice' x) < (O.candidates (R.order k) x).idxOf (choice x)
    rw [hos, List.idxOf_append, List.idxOf_append, if_neg hnew, List.idxOf_cons_self] at hlt
    rw [hos', List.idxOf_append, List.idxOf_append, if_neg hnew]
    split_ifs at hlt ⊢ with hmem
    · have hlength := List.idxOf_lt_length_of_mem hmem
      omega
    · omega
  · -- every other variable takes what comes first
    have hfirst : (O.candidates (R.order (k + 1)) x).idxOf (O.first (k + 1) x) = 0 :=
      O.idxOf_first (k + 1) _ (O.mem_options.2 ⟨hx, rfl⟩)
    have hlt : (O.candidates (R.order (k + 1)) x).idxOf (choice' x) <
        (O.candidates (R.order (k + 1)) x).idxOf (choice x) := hlt
    rw [hupdate, Function.update_of_ne hxy, ← hfixed (k + 1), hfirst] at hlt
    exact absurd hlt (Nat.not_lt_zero _)

end Fixed

/-! ### Choices that the given entries allow -/

/-- If the first choice that brings in another entry takes only what the given entries allow, it is the same in every
pass. -/
theorem opening?_eq_of_leading (hleading : ∀ k choice, R.opening? W k φ = some choice →
    ∀ x ∈ O.keys, choice x = .const ∨ choice x ∈ O.leading W x) (j k : Nat) :
    R.opening? W j φ = R.opening? W k φ := by
  let narrow : (Symbol → Occupant) → Bool := fun choice =>
    !(φ.variant R.naming choice).within R.depth W &&
      decide (∀ x ∈ O.keys, choice x = .const ∨ choice x ∈ O.leading W x)
  have hnarrow : ∀ n, R.opening? W n φ = ((assignments (R.options n φ)).filter narrow).head? := by
    intro n
    obtain ⟨choice, hchoice⟩ := S.exists_opening? n
    obtain ⟨hselects, hout, hearlier⟩ := opening?_eq_some.1 hchoice
    rw [hchoice, List.head?_filter, eq_comm,
      find?_assignments_eq_some (R.nodup_options n φ) R.nodup_of_mem_options]
    refine ⟨hselects, ?_, fun choice' hselects' hearlier' => ?_⟩
    · simp only [narrow, hout, Bool.not_false, Bool.true_and, decide_eq_true_eq]
      exact hleading n choice hchoice
    · simp only [narrow, hearlier choice' hselects' hearlier', Bool.not_true, Bool.false_and]
  have hfilter : (assignments (R.options j φ)).filter narrow = (assignments (R.options k φ)).filter narrow :=
    O.filter_assignments_eq S.phase.steady (S.phase.begins j) (S.phase.begins k) fun choice _ hpass =>
      of_decide_eq_true (Bool.and_eq_true_iff.1 hpass).2
  rw [hnarrow, hnarrow, hfilter]

/-- The first choice that brings in another entry settles. -/
theorem exists_opening_settled : ∃ choice, ∀ᶠ k in atTop, R.opening? W k φ = some choice := by
  obtain ⟨O⟩ := exists_ordered S.phase.steady (S.phase.mem_stage (φ := φ) (by simp) 0)
  by_cases hloose : ∃ n x, O.first n x ≠ O.fixed W x
  · obtain ⟨n, x, hx⟩ := hloose
    exact S.exists_opening_of_first_ne_fixed O hx
  push Not at hloose
  have hfixed : ∀ k, O.first k = O.fixed W := fun k => funext (hloose k)
  by_cases hbeyond : ∃ n choice y, R.opening? W n φ = some choice ∧ choice y ≠ .const ∧ choice y ∉ O.leading W y
  · obtain ⟨n, choice, y, hopening, hy, hnew⟩ := hbeyond
    refine ⟨choice, eventually_atTop.2 ⟨n, fun k hk => ?_⟩⟩
    induction k, hk using Nat.le_induction with
    | base => exact hopening
    | succ k _ ih => exact S.opening?_succ O hfixed ih hy hnew
  · push Not at hbeyond
    obtain ⟨choice, hchoice⟩ := S.exists_opening? 0
    refine ⟨choice, Eventually.of_forall fun k => ?_⟩
    rw [← hchoice]
    refine S.opening?_eq_of_leading O (fun n c hc x _ => ?_) k 0
    by_cases hx : c x = .const
    · exact .inl hx
    · exact .inr (hbeyond n c x hc hx)

end Source

/-! ## Runs settle -/

theorem eventually_of_drop {n : Nat} {p : Nat → Prop} (h : ∀ᶠ k in atTop, p (n + k)) : ∀ᶠ k in atTop, p k := by
  obtain ⟨m, hm⟩ := eventually_atTop.1 h
  refine eventually_atTop.2 ⟨n + m, fun k hk => ?_⟩
  have hsum := hm (k - n) (by omega)
  rwa [Nat.add_sub_cancel' (by omega)] at hsum

/-- If given entries come first, then they are all there are, or another one settles behind them. -/
theorem Phase.exists_next {M : List (Formula Symbol)} (P : R.Phase W M) (hne : R.order 0 ≠ W) :
    ∃ ω, ∀ᶠ k in atTop, W ++ [ω] <+: R.order k := by
  rcases P.exists_settled_or_source hne with ⟨u, hu⟩ | ⟨n, before, φ, after, S⟩
  · exact exists_next_of_fresh? (Eventually.of_forall P.begins) hu
  · obtain ⟨choice, hchoice⟩ := S.exists_opening_settled
    have hfresh : ∀ᶠ k in atTop, (R.drop n).fresh? W k = some (φ.variant R.naming choice) := by
      obtain ⟨m, hm⟩ := eventually_atTop.1 hchoice
      refine eventually_atTop.2 ⟨m + 1, fun k hk => ?_⟩
      obtain ⟨k, rfl⟩ := Nat.exists_eq_add_of_le hk
      rw [Nat.add_right_comm]
      exact S.fresh?_succ (hm (m + k) (Nat.le_add_right m k))
    obtain ⟨ω, hω⟩ := exists_next_of_fresh? (Eventually.of_forall S.phase.begins) hfresh
    exact ⟨ω, eventually_of_drop hω⟩

/-- The order in which the sites are filled settles. -/
theorem exists_order_settled (hR : R.Steady) : ∃ W, ∀ᶠ k in atTop, R.order k = W := by
  suffices hall : ∀ n W, (R.order 0).length = W.length + n → (∀ᶠ k in atTop, W <+: R.order k) →
      ∃ W, ∀ᶠ k in atTop, R.order k = W from
    hall (R.order 0).length [] (by simp) (Eventually.of_forall fun k => List.nil_prefix)
  have hlength : ∀ k, (R.order k).length = (R.order 0).length := fun k =>
    ((List.perm_ext_iff_of_nodup (R.nodup_order k) (R.nodup_order 0)).2 (hR k)).length_eq
  intro n
  induction n with
  | zero =>
    intro W hn hW
    exact ⟨W, hW.mono fun k hk => (hk.eq_of_length (by rw [hlength, hn]; rfl)).symm⟩
  | succ n ih =>
    intro W hn hW
    obtain ⟨m, M, P⟩ := exists_phase hR hW
    obtain ⟨ω, hω⟩ := P.exists_next (by
      intro heq
      have hsame : (R.order m).length = W.length := congrArg List.length heq
      rw [hlength] at hsame
      omega)
    exact ih (W ++ [ω]) (by rw [hn, List.length_append, List.length_singleton]; omega) (eventually_of_drop hω)

/-- A description settles under passes that replace its formulas by their variants. -/
theorem exists_stage_settled (R : PassRun) : ∃ φs, ∀ᶠ k in atTop, R.stage k = φs := by
  obtain ⟨n, hR⟩ := R.exists_steady_drop
  obtain ⟨W, hW⟩ := exists_order_settled hR
  obtain ⟨M, hM⟩ := exists_settled hR (hW.mono fun k hk => by rw [hk])
  have hstage : ∀ᶠ k in atTop, R.stage (n + k) = M := by
    refine (hW.and hM).mono fun k hk => hk.2 ▸ (List.filter_eq_self.2 fun φ hφ => ?_).symm
    refine Formula.within_iff.2 fun p hp => ?_
    rw [← hk.1]
    exact mem_order.2 ⟨φ, hφ, mem_filledEntries.1 hp⟩
  exact ⟨M, eventually_of_drop hstage⟩

end PassRun

end GameCircuit
