import GameCircuit.Proofs.SteadyRuns

/-!
# Where the variables of a variant come from

In a phase of a run, given entries come first in every pass and the formulas that hold these only do not change
(`PassRun.Phase`).  A formula that is a variant of one before it, with two variables at one site, has before it a
formula in which one of the two stands at the same places (`PassRun.Phase.exists_profile_eq`): new variables at one
site are made for two variables at one site, and what replaces one of these only comes before what replaces both.
-/

namespace GameCircuit

open Filter

namespace PassRun

variable {R : PassRun} {k : Nat} {W : List (Site × Occupant)} {M : List (Formula Symbol)}

/-- Given entries come first in every pass, and the formulas that hold these only stay the same. -/
structure Phase (R : PassRun) (W : List (Site × Occupant)) (M : List (Formula Symbol)) : Prop where
  steady : R.Steady
  begins : ∀ k, W <+: R.order k
  settled : ∀ k, (R.stage k).filter (Formula.within R.depth W) = M

theorem exists_phase (hR : R.Steady) (hW : ∀ᶠ k in atTop, W <+: R.order k) : ∃ n M, (R.drop n).Phase W M := by
  obtain ⟨M, hM⟩ := exists_settled hR hW
  obtain ⟨n, hn⟩ := eventually_atTop.1 (hW.and hM)
  exact ⟨n, M, hR.drop n, fun k => (hn (n + k) (Nat.le_add_right n k)).1, fun k => (hn (n + k) (Nat.le_add_right n k)).2⟩

namespace Phase

variable (P : R.Phase W M) {φ ψ : Formula Symbol} {before after : List (Formula Symbol)}
  {choice choice' : Symbol → Occupant}

include P

theorem mem_stage (hφ : φ ∈ M) (k : Nat) : φ ∈ R.stage k := by
  rw [← P.settled k] at hφ
  exact (List.mem_filter.1 hφ).1

theorem within (hφ : φ ∈ M) : φ.within R.depth W = true := by
  rw [← P.settled 0] at hφ
  exact (List.mem_filter.1 hφ).2

theorem eq_eraseDups (k : Nat) :
    M = (M.flatMap fun φ => (R.variants k φ).filter (Formula.within R.depth W)).eraseDups := by
  conv_lhs => rw [← P.settled (k + 1), filter_stage_succ, P.settled k]

theorem separates (hφ : φ ∈ M) (hselects : Selects (R.options k φ) choice) : R.naming.Separates choice φ.vars :=
  R.separates k φ (P.mem_stage hφ k) choice hselects

/-- The formula and the choice from which a formula first comes: before it stand what comes from the formulas before
that one, and what comes from that one by earlier choices. -/
theorem exists_origin (hM : M = before ++ φ :: after)
    (hold : ∀ ψ ∈ before, ∀ χ ∈ R.variants k ψ, χ.within R.depth W = true) (hφ : φ ∈ before.flatMap (R.variants k)) :
    ∃ before' ψ after' choice, before = before' ++ ψ :: after' ∧ Selects (R.options k ψ) choice ∧
      ψ.variant R.naming choice = φ ∧ ∀ χ, χ ∈ before ↔ χ ∈ before'.flatMap (R.variants k) ∨
        ∃ choice', Selects (R.options k ψ) choice' ∧ Earlier (R.options k ψ) choice' choice ∧
          ψ.variant R.naming choice' = χ := by
  obtain ⟨ψ, hψ⟩ : ∃ ψ, before.find? (fun ψ => decide (φ ∈ R.variants k ψ)) = some ψ := by
    obtain ⟨ψ, hψ, hvariant⟩ := List.mem_flatMap.1 hφ
    exact Option.isSome_iff_exists.1 (List.find?_isSome.2 ⟨ψ, hψ, decide_eq_true hvariant⟩)
  obtain ⟨hvariant, before', after', rfl, hfirst⟩ := List.find?_eq_some_iff_append.1 hψ
  obtain ⟨choice, hchoice⟩ : ∃ choice, (assignments (R.options k ψ)).find?
      (fun choice => decide (ψ.variant R.naming choice = φ)) = some choice := by
    obtain ⟨choice, hmem, heq⟩ := List.mem_map.1 (of_decide_eq_true hvariant)
    exact Option.isSome_iff_exists.1 (List.find?_isSome.2 ⟨choice, hmem, decide_eq_true heq⟩)
  obtain ⟨heq, choices, choices', hassignments, hearlier⟩ := List.find?_eq_some_iff_append.1 hchoice
  obtain rfl : ψ.variant R.naming choice = φ := of_decide_eq_true heq
  have hnodup := R.nodup_options k ψ
  have hselects : Selects (R.options k ψ) choice := by
    rw [← mem_assignments hnodup, hassignments]
    exact List.mem_append_right _ List.mem_cons_self
  refine ⟨before', ψ, after', choice, rfl, hselects, rfl, fun χ => ?_⟩
  -- the formulas of which the given one is a variant begin with these
  have hbefore : before' ++ ψ :: after' =
      (before'.flatMap (R.variants k) ++ choices.map (ψ.variant R.naming)).eraseDups := by
    have hfilter : ∀ χ ∈ before' ++ ψ :: after',
        (R.variants k χ).filter (Formula.within R.depth W) = R.variants k χ := fun χ hχ =>
      List.filter_eq_self.2 (hold χ hχ)
    have hbegin : before'.flatMap (fun χ => (R.variants k χ).filter (Formula.within R.depth W)) =
        before'.flatMap (R.variants k) :=
      List.flatMap_congr fun χ hχ => hfilter χ (List.mem_append_left _ hχ)
    have hmiddle : (R.variants k ψ).filter (Formula.within R.depth W) = choices.map (ψ.variant R.naming) ++
        ψ.variant R.naming choice :: choices'.map (ψ.variant R.naming) := by
      rw [hfilter ψ (List.mem_append_right _ List.mem_cons_self)]
      show (assignments (R.options k ψ)).map (ψ.variant R.naming) = _
      rw [hassignments, List.map_append, List.map_cons]
    have hsplit := P.eq_eraseDups k
    rw [hM] at hsplit
    simp only [List.flatMap_append, List.flatMap_cons, hbegin, hmiddle] at hsplit
    simp only [List.append_assoc, List.cons_append] at hsplit
    rw [← List.append_assoc (before'.flatMap (R.variants k)), ← List.cons_append, ← List.append_assoc] at hsplit
    refine eq_eraseDups_of_append_cons (fun hmem => ?_) hsplit.symm
    rcases List.mem_append.1 hmem with hmem | hmem
    · obtain ⟨χ, hχ, hmem⟩ := List.mem_flatMap.1 hmem
      simpa [hmem] using hfirst χ hχ
    · obtain ⟨c, hc, heq⟩ := List.mem_map.1 hmem
      simpa [heq] using hearlier c hc
  rw [hbefore, List.mem_eraseDups, List.mem_append, List.mem_map]
  refine or_congr_right (exists_congr fun c => ?_)
  rw [mem_before_iff hnodup R.nodup_of_mem_options hassignments, and_assoc]

/-- A new variable has its places from the variable that it is made for. -/
theorem profile_argument_eq {a f : Symbol} {arity i : Nat} (hφ : φ ∈ M) (hψ : ψ ∈ M)
    (hselects : Selects (R.options k φ) choice) (hselects' : Selects (R.options k ψ) choice')
    (ha : choice a = .functor f arity) (heq : choice' a = choice a) (hi : i < arity)
    (hprofile : ψ.profile a = φ.profile a) :
    (ψ.variant R.naming choice').profile (R.naming a f i) = (φ.variant R.naming choice).profile (R.naming a f i) := by
  obtain ⟨os, hos, -⟩ := hselects.exists_mem_options (x := a) (by simp [ha])
  have hvars := (Formula.mem_options.1 hos).1
  have hvars' := (Formula.mem_options.1 (Formula.mem_options_of_profile_eq hos hprofile)).1
  rw [Formula.profile_variant_child (P.separates hφ hselects) hvars ha hi,
    Formula.profile_variant_child (P.separates hψ hselects') hvars' (heq.trans ha) hi, hprofile]

/-- Before a formula that comes from one before it stands a formula in which one of two variables at one site has the
same places. -/
theorem exists_profile_eq (hM : M = before ++ φ :: after)
    (hold : ∀ ψ ∈ before, ∀ χ ∈ R.variants k ψ, χ.within R.depth W = true)
    (hφ : φ ∈ before.flatMap (R.variants k)) {x y : Symbol} {s : Site} (hne : x ≠ y)
    (hx : (s, .free x) ∈ φ.outline R.depth) (hy : (s, .free y) ∈ φ.outline R.depth) :
    ∃ ψ ∈ before, ∃ z, (z = x ∨ z = y) ∧ ψ.profile z = φ.profile z := by
  induction hn : before.length using Nat.strong_induction_on generalizing before after φ x y s with
  | _ n ih =>
    obtain ⟨before', ψ, after', choice, hbefore, hselects, rfl, hmembers⟩ := P.exists_origin hM hold hφ
    have hψ : ψ ∈ before := by simp [hbefore]
    have hsub : ∀ χ ∈ before, χ ∈ M := fun χ hχ => by simp [hM, hχ]
    have hsep := P.separates (hsub ψ hψ) hselects
    have hvars : ∀ {a s}, (s, .free a) ∈ ψ.outline R.depth → a ∈ ψ.vars := fun ha =>
      Formula.mem_vars_of_mem_walk (Formula.mem_outline.1 ha).1
    rcases Formula.mem_outline_variant_free hx with ⟨hconst, hxψ⟩ | ⟨a, f, arity, i, s₁, ha, hi, rfl, rfl, haψ⟩
    · exact ⟨ψ, hψ, x, .inl rfl, (Formula.profile_variant_kept hsep (hvars hxψ) hconst).symm⟩
    rcases Formula.mem_outline_variant_free hy with ⟨hconst, hyψ⟩ | ⟨b, g, arity', j, s₂, hb, hj, rfl, hsite, hbψ⟩
    · exact ⟨ψ, hψ, y, .inr rfl, (Formula.profile_variant_kept hsep (hvars hyψ) hconst).symm⟩
    -- both are new: they are made for two variables at one site
    obtain ⟨rfl, rfl⟩ : j = i ∧ s₂ = s₁ := Site.below_inj hsite.symm
    have hab : a ≠ b := by
      rintro rfl
      rw [ha] at hb
      obtain ⟨rfl, rfl⟩ := Occupant.functor.inj hb
      exact hne rfl
    have hreplaced : ∀ z, z = a ∨ z = b → choice z ≠ .const := by
      rintro z (rfl | rfl)
      · simp [ha]
      · simp [hb]
    obtain ⟨z, hz, χ, hχ, hprofile, choice', hselects', heq, hmem⟩ : ∃ z, (z = a ∨ z = b) ∧ ∃ χ ∈ before,
        χ.profile z = ψ.profile z ∧ ∃ choice', Selects (R.options k χ) choice' ∧ choice' z = choice z ∧
          χ.variant R.naming choice' ∈ before := by
      by_cases hgenerated : ψ ∈ before'.flatMap (R.variants k)
      · -- `ψ` comes from a formula before it, so that the same holds for it
        have hlength : before'.length < n := by
          rw [← hn, hbefore, List.length_append, List.length_cons]
          omega
        obtain ⟨χ, hχ, z, hz, hprofile⟩ := ih before'.length hlength (by rw [hM, hbefore, List.append_assoc]; rfl)
          (fun χ hχ => hold χ (by simp [hbefore, hχ])) hgenerated hab haψ hbψ rfl
        obtain ⟨os, hos, hmem⟩ := hselects.exists_mem_options (hreplaced z hz)
        obtain ⟨choice₀, hselects₀⟩ := Formula.exists_selects_options (standing (R.order k)) R.depth χ
        have hupdate := hselects₀.update (R.nodup_options k χ) (Formula.mem_options_of_profile_eq hos hprofile) hmem
        refine ⟨z, hz, χ, by simp [hbefore, hχ], hprofile, _, hupdate, Function.update_self .., ?_⟩
        exact (hmembers _).2 (.inl (List.mem_flatMap.2 ⟨χ, hχ, mem_variants.2 ⟨_, hupdate, rfl⟩⟩))
      · -- `ψ` comes from itself alone, and does so before the choice at hand
        obtain ⟨c, hc, hearlier, heq⟩ := ((hmembers ψ).1 hψ).resolve_left hgenerated
        obtain rfl := eq_const_of_variant_eq hc heq
        obtain ⟨z, hz, hearlier⟩ : ∃ z, (z = a ∨ z = b) ∧
            Earlier (R.options k ψ) (Function.update (fun _ => .const) z (choice z)) choice :=
          (earlier_update_or hearlier hab (hreplaced a (.inl rfl)) (hreplaced b (.inr rfl))).elim
            (fun h => ⟨a, .inl rfl, h⟩) fun h => ⟨b, .inr rfl, h⟩
        obtain ⟨os, hos, hmem⟩ := hselects.exists_mem_options (hreplaced z hz)
        have hupdate := hc.update (R.nodup_options k ψ) hos hmem
        exact ⟨z, hz, ψ, hψ, rfl, _, hupdate, Function.update_self .., (hmembers _).2 (.inr ⟨_, hupdate, hearlier, rfl⟩)⟩
    refine ⟨_, hmem, ?_⟩
    rcases hz with rfl | rfl
    · exact ⟨_, .inl rfl, P.profile_argument_eq (hsub ψ hψ) (hsub χ hχ) hselects hselects' ha heq hi hprofile⟩
    · exact ⟨_, .inr rfl, P.profile_argument_eq (hsub ψ hψ) (hsub χ hχ) hselects hselects' hb heq hj hprofile⟩

end Phase

end PassRun

end GameCircuit
