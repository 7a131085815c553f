import GameCircuit.Proofs.PassRuns

/-!
# Runs in which nothing new appears

In a steady run every pass gives a formula the same variants, and only their order depends on the pass.  A function
that a variable may stand for stands at all its sites by then, so that its place among the others is that at one
site (`PassRun.Ordered`).

The order in which the sites are filled settles from the front.  If it begins with some entries for good, the formulas
that hold no others (`Formula.Within`) are replaced among themselves, always in the same way, and so settle
(`PassRun.exists_settled`).
-/

namespace GameCircuit

open Filter

namespace PassRun

variable {R : PassRun} {j k : Nat} {φ ψ : Formula Symbol} {x : Symbol} {o : Occupant} {s : Site}
  {choice : Symbol → Occupant}

section Steady

variable (hR : R.Steady)

include hR

theorem Steady.mem_iff (j k : Nat) {p : Site × Occupant} : p ∈ R.order j ↔ p ∈ R.order k :=
  (hR j p).trans (hR k p).symm

theorem Steady.drop (n : Nat) : (R.drop n).Steady := fun k _ => Steady.mem_iff hR (n + k) n

theorem Steady.rearranged (j k : Nat) (s : Site) : Rearranged (standing (R.order j) s) (standing (R.order k) s) := by
  refine ⟨nodup_standing (R.nodup_order j) s, nodup_standing (R.nodup_order k) s, fun o => ?_⟩
  rw [mem_standing, mem_standing]
  exact hR.mem_iff j k

/-- What a variable may stand for stands at all its sites. -/
theorem Steady.mem_standing_of_mem_options {os : List Occupant} (hφ : φ ∈ R.stage k) (hx : (x, os) ∈ R.options k φ)
    (ho : o ∈ os) (hfunctor : o.isFunctor = true) {alternatives : List (List Site)} {sites : List Site}
    (halternatives : alternatives ∈ φ.profile x) (hsites : sites ∈ alternatives) (hs : s ∈ sites)
    (hle : s.path.length ≤ R.depth) : o ∈ standing (R.order k) s := by
  obtain ⟨choice, hselects⟩ := Formula.exists_selects_options (standing (R.order k)) R.depth φ
  have hnodup := Formula.nodup_options (standing (R.order k)) R.depth φ
  have hupdate := hselects.update hnodup hx ho
  have hstage : φ.variant R.naming (Function.update choice x o) ∈ R.stage (k + 1) :=
    mem_stage_succ.2 ⟨φ, hφ, mem_variants.2 ⟨_, hupdate, rfl⟩⟩
  have hplace : (s, .free x) ∈ φ.outline R.depth :=
    Formula.mem_outline.2 ⟨Formula.mem_walk_of_mem_profile halternatives hsites hs, hle⟩
  have hfilled : (s, o) ∈ (φ.variant R.naming (Function.update choice x o)).occupied R.depth := by
    rw [Formula.occupied_variant]
    refine List.mem_flatMap.2 ⟨_, hplace, ?_⟩
    simp [fillEntry, hfunctor]
  rw [mem_standing, hR.mem_iff k (k + 1), mem_order]
  exact ⟨_, hstage, mem_filledEntries.1 hfilled⟩

end Steady

/-- What the variables of a formula may stand for, in the order that a pass gives it. -/
structure Ordered (R : PassRun) (φ : Formula Symbol) where
  /-- The variables that may stand for functions. -/
  keys : List Symbol
  /-- The site whose order counts for a variable. -/
  lead : Symbol → Site
  /-- What counts of the things that stand at that site. -/
  early : Symbol → Occupant → Bool
  /-- What comes behind them. -/
  late : Symbol → List Occupant
  nodup_keys : keys.Nodup
  options_eq : ∀ k, R.options k φ =
    keys.map fun x => (x, (standing (R.order k) (lead x)).filter (early x) ++ late x)
  lead_mem : ∀ x ∈ keys, ∃ alternatives ∈ φ.profile x, ∃ sites ∈ alternatives, lead x ∈ sites
  lead_le : ∀ x ∈ keys, (lead x).path.length ≤ R.depth
  eq_const_of_late : ∀ x ∈ keys, ∀ o ∈ late x, o = .const

theorem exists_ordered (hR : R.Steady) (hφ : φ ∈ R.stage k) : Nonempty (R.Ordered φ) := by
  have hlead : ∀ x, ∃ π : Site, ∃ early : Occupant → Bool, ∃ late : List Occupant,
      x ∈ (R.options k φ).map Prod.fst →
        (∃ alternatives ∈ φ.profile x, ∃ sites ∈ alternatives, π ∈ sites) ∧ π.path.length ≤ R.depth ∧
        (∀ o ∈ late, o = .const) ∧ ∀ j, judge (standing (R.order j)) R.depth (φ.profile x) =
          some ((standing (R.order j) π).filter early ++ late) := by
    intro x
    by_cases hx : x ∈ (R.options k φ).map Prod.fst
    · obtain ⟨q, hq, rfl⟩ := List.mem_map.1 hx
      obtain ⟨-, hjudge, -⟩ := Formula.mem_options.1 hq
      obtain ⟨π, early, late, hπ, hle, hlate, hall⟩ := exists_order_of_judge hjudge (Formula.ne_nil_of_mem_options hq)
        fun o ho hfunctor alternatives halternatives sites hsites s hs hle =>
          hR.mem_standing_of_mem_options hφ hq ho hfunctor halternatives hsites hs hle
      exact ⟨π, early, late, fun _ => ⟨hπ, hle, hlate, fun j => hall _ fun s _ => hR.rearranged k j s⟩⟩
    · exact ⟨⟨x, []⟩, fun _ => false, [], fun hmem => absurd hmem hx⟩
  choose lead early late hlead using hlead
  refine ⟨⟨(R.options k φ).map Prod.fst, lead, early, late, Formula.nodup_options _ _ _, fun j => ?_,
    fun x hx => (hlead x hx).1, fun x hx => (hlead x hx).2.1, fun x hx => (hlead x hx).2.2.1⟩⟩
  -- whether a variable may stand for a function does not depend on the order
  rw [List.map_map, options, options, Formula.options, Formula.options, List.map_filterMap]
  refine List.filterMap_congr fun x hx => ?_
  have hrel := judge_rel respected_rearranged (fun s (_ : s.path.length ≤ R.depth) => hR.rearranged k j s) (φ.profile x)
  cases hk : judge (standing (R.order k)) R.depth (φ.profile x) with
  | none =>
    rw [hk] at hrel
    have hnone : judge (standing (R.order j)) R.depth (φ.profile x) = none := by
      have hsome := isSome_eq_of_rel hrel
      rwa [Option.isSome_none, eq_comm, Option.isSome_eq_false_iff, Option.isNone_iff_eq_none] at hsome
    simp only [hnone, Option.map_none]
  | some os =>
    by_cases hany : os.any Occupant.isFunctor = true
    · have hkey : x ∈ (R.options k φ).map Prod.fst :=
        List.mem_map.2 ⟨(x, os), Formula.mem_options.2 ⟨List.mem_eraseDups.1 hx, hk, hany⟩, rfl⟩
      have hj := (hlead x hkey).2.2.2 j
      rw [hk, hj] at hrel
      have hany' : ((standing (R.order j) (lead x)).filter (early x) ++ late x).any Occupant.isFunctor = true := by
        cases hrel with
        | some hrearranged =>
          obtain ⟨o, ho, hfunctor⟩ := List.any_eq_true.1 hany
          exact List.any_eq_true.2 ⟨o, (hrearranged.2.2 o).1 ho, hfunctor⟩
      simp only [hj, hany, hany', if_true, Option.map_some, Function.comp_apply]
    · obtain ⟨os', hj⟩ : ∃ os', judge (standing (R.order j)) R.depth (φ.profile x) = some os' := by
        have hsome := isSome_eq_of_rel hrel
        rw [hk, Option.isSome_some, eq_comm] at hsome
        exact Option.isSome_iff_exists.1 hsome
      rw [hk, hj] at hrel
      have hany' : ¬ os'.any Occupant.isFunctor = true := by
        cases hrel with
        | some hrearranged =>
          intro hany'
          obtain ⟨o, ho, hfunctor⟩ := List.any_eq_true.1 hany'
          exact hany (List.any_eq_true.2 ⟨o, (hrearranged.2.2 o).2 ho, hfunctor⟩)
      simp only [hj, hany, hany', if_false, Option.map_none, Bool.false_eq_true]

namespace Ordered

variable (O : R.Ordered φ)

/-- What a variable may stand for, if these are the constants and functions with their sites. -/
def candidates (entries : List (Site × Occupant)) (x : Symbol) : List Occupant :=
  (standing entries (O.lead x)).filter (O.early x) ++ O.late x

/-- What a variable may stand for by the given entries alone. -/
def leading (entries : List (Site × Occupant)) (x : Symbol) : List Occupant :=
  (standing entries (O.lead x)).filter (O.early x)

theorem candidates_append (W t : List (Site × Occupant)) (x : Symbol) :
    O.candidates (W ++ t) x = O.leading W x ++ O.candidates t x := by
  simp [candidates, leading, standing]

theorem mem_options {os : List Occupant} :
    (x, os) ∈ R.options k φ ↔ x ∈ O.keys ∧ os = O.candidates (R.order k) x := by
  rw [O.options_eq, List.mem_map]
  constructor
  · rintro ⟨y, hy, heq⟩
    obtain ⟨rfl, rfl⟩ := Prod.mk.inj heq
    exact ⟨hy, rfl⟩
  · rintro ⟨hx, rfl⟩
    exact ⟨x, hx, rfl⟩

theorem map_fst_options : (R.options k φ).map Prod.fst = O.keys := by
  rw [O.options_eq, List.map_map]
  exact List.map_id _

theorem selects_iff : Selects (R.options k φ) choice ↔
    (∀ x ∈ O.keys, choice x ∈ O.candidates (R.order k) x) ∧ ∀ x, x ∉ O.keys → choice x = .const := by
  rw [Selects, O.map_fst_options]
  refine and_congr_left fun _ => ⟨fun h x hx => h x _ (O.mem_options.2 ⟨hx, rfl⟩), fun h x os hx => ?_⟩
  obtain ⟨hkey, rfl⟩ := O.mem_options.1 hx
  exact h x hkey

theorem mem_outline (hx : x ∈ O.keys) : (O.lead x, .free x) ∈ φ.outline R.depth := by
  obtain ⟨alternatives, halternatives, sites, hsites, hlead⟩ := O.lead_mem x hx
  exact Formula.mem_outline.2 ⟨Formula.mem_walk_of_mem_profile halternatives hsites hlead, O.lead_le x hx⟩

/-- A function that a variable may stand for stands at the site whose order counts. -/
theorem early_of_mem_candidates {entries : List (Site × Occupant)} (hx : x ∈ O.keys) (ho : o ∈ O.candidates entries x)
    (hne : o ≠ .const) : O.early x o = true ∧ (O.lead x, o) ∈ entries := by
  rcases List.mem_append.1 ho with hearly | hlate
  · obtain ⟨hmem, hearly⟩ := List.mem_filter.1 hearly
    exact ⟨hearly, mem_standing.1 hmem⟩
  · exact absurd (O.eq_const_of_late x hx o hlate) hne

theorem nodup_candidates (k : Nat) (hx : x ∈ O.keys) : (O.candidates (R.order k) x).Nodup :=
  nodup_of_mem_options R _ (O.mem_options.2 ⟨hx, rfl⟩)

variable (hR : R.Steady)

include hR

theorem mem_candidates_iff (j k : Nat) : o ∈ O.candidates (R.order j) x ↔ o ∈ O.candidates (R.order k) x := by
  rw [candidates, candidates, List.mem_append, List.mem_append, List.mem_filter, List.mem_filter]
  rw [((hR.rearranged j k (O.lead x)).2.2 o)]

include O in
theorem selects_iff_of_steady (j k : Nat) : Selects (R.options j φ) choice ↔ Selects (R.options k φ) choice := by
  rw [O.selects_iff, O.selects_iff]
  exact and_congr_left fun _ => forall₂_congr fun x _ => O.mem_candidates_iff hR j k

include O in
theorem mem_variants_iff (j k : Nat) : ψ ∈ R.variants j φ ↔ ψ ∈ R.variants k φ := by
  rw [mem_variants, mem_variants]
  exact exists_congr fun choice => and_congr_left fun _ => O.selects_iff_of_steady hR j k

end Ordered

end PassRun

/-! ## Formulas that hold given entries only -/

/-- The formula, as far as it is no deeper than `depth`, has no constants and functions but those of `W` at
their sites. -/
def Formula.within (depth : Nat) (W : List (Site × Occupant)) (φ : Formula Symbol) : Bool :=
  (φ.occupied depth).all fun p => W.contains p

theorem Formula.within_iff {depth : Nat} {W : List (Site × Occupant)} {φ : Formula Symbol} :
    φ.within depth W = true ↔ ∀ p ∈ φ.occupied depth, p ∈ W := by
  simp [within]

namespace PassRun

variable {R : PassRun} {j k : Nat} {φ ψ : Formula Symbol} {x : Symbol} {o : Occupant} {s : Site}
  {choice : Symbol → Occupant} {W : List (Site × Occupant)}

theorem isFunctor_iff : o.isFunctor = true ↔ o ≠ .const := by
  cases o <;> simp [Occupant.isFunctor]

/-- A variant holds what the formula holds, and a function wherever a variable is replaced. -/
theorem within_variant_iff {ν : Naming} {depth : Nat} : (φ.variant ν choice).within depth W = true ↔
    φ.within depth W = true ∧ ∀ s x, (s, .free x) ∈ φ.outline depth → choice x ≠ .const → (s, choice x) ∈ W := by
  rw [Formula.within_iff, Formula.within_iff, Formula.occupied_variant]
  constructor
  · intro h
    refine ⟨fun p hp => h p ?_, fun s x hs hx => h _ ?_⟩
    · exact List.mem_flatMap.2 ⟨_, mem_filledEntries.1 hp, List.mem_singleton_self p⟩
    · refine List.mem_flatMap.2 ⟨_, hs, ?_⟩
      simp [fillEntry, isFunctor_iff.2 hx]
  · rintro ⟨hφ, hchoice⟩ p hp
    obtain ⟨⟨s, c⟩, he, hfill⟩ := List.mem_flatMap.1 hp
    cases c with
    | filled o =>
      rw [List.mem_singleton.1 hfill]
      exact hφ _ (mem_filledEntries.2 he)
    | free x =>
      by_cases hx : choice x = .const
      · simp [fillEntry, hx, Occupant.isFunctor] at hfill
      · have hp : p = (s, choice x) := by simpa [fillEntry, isFunctor_iff.2 hx] using hfill
        rw [hp]
        exact hchoice s x he hx

namespace Ordered

variable (O : R.Ordered φ)

/-- If given entries come first, what they allow comes first, and nothing of it comes again. -/
theorem exists_candidates_eq (hx : x ∈ O.keys) (hW : W <+: R.order k) : ∃ rest,
    O.candidates (R.order k) x = O.leading W x ++ rest ∧ rest.Nodup ∧
      ∀ o, o ∈ rest ↔ o ∈ O.candidates (R.order k) x ∧ o ∉ O.leading W x := by
  obtain ⟨t, ht⟩ := hW
  have hsplit : O.candidates (R.order k) x = O.leading W x ++ O.candidates t x := by
    rw [← ht, O.candidates_append]
  have hnodup := O.nodup_candidates k hx
  rw [hsplit, List.nodup_append] at hnodup
  refine ⟨O.candidates t x, hsplit, hnodup.2.1, fun o => ?_⟩
  rw [hsplit, List.mem_append]
  constructor
  · exact fun ho => ⟨.inr ho, fun hlead => hnodup.2.2 o hlead o ho rfl⟩
  · rintro ⟨hlead | ho, hnot⟩
    · exact absurd hlead hnot
    · exact ho

/-- What given entries allow, and constants, keep their order as long as the entries come first. -/
theorem filter_candidates_eq (hR : R.Steady) (hx : x ∈ O.keys) (hj : W <+: R.order j) (hk : W <+: R.order k) :
    (O.candidates (R.order j) x).filter (fun o => decide (o = .const ∨ o ∈ O.leading W x)) =
      (O.candidates (R.order k) x).filter fun o => decide (o = .const ∨ o ∈ O.leading W x) := by
  obtain ⟨rest, hrest, hnodup, hmem⟩ := O.exists_candidates_eq hx hj
  obtain ⟨rest', hrest', hnodup', hmem'⟩ := O.exists_candidates_eq hx hk
  rw [hrest, hrest', List.filter_append, List.filter_append]
  refine congrArg _ (Rearranged.eq_of_const ⟨hnodup.filter _, hnodup'.filter _, fun o => ?_⟩ fun o ho => ?_)
  · rw [List.mem_filter, List.mem_filter, hmem, hmem', O.mem_candidates_iff hR j k]
  · obtain ⟨ho, hor⟩ := List.mem_filter.1 ho
    exact (of_decide_eq_true hor).resolve_right ((hmem o).1 ho).2

/-- Choices that take what given entries allow, or leave a variable alone, stand in the same order in every pass, if
the entries come first. -/
theorem filter_assignments_eq (hR : R.Steady) (hj : W <+: R.order j) (hk : W <+: R.order k)
    {P : (Symbol → Occupant) → Bool} (hP : ∀ choice, Selects (R.options k φ) choice → P choice = true →
      ∀ x ∈ O.keys, choice x = .const ∨ choice x ∈ O.leading W x) :
    (assignments (R.options j φ)).filter P = (assignments (R.options k φ)).filter P := by
  have hnarrow : ∀ n, (assignments (R.options n φ)).filter P = (assignments (O.keys.map fun x => (x,
      (O.candidates (R.order n) x).filter fun o => decide (o = .const ∨ o ∈ O.leading W x)))).filter P := by
    intro n
    have hoptions : (O.keys.map fun x => (x,
        (O.candidates (R.order n) x).filter fun o => decide (o = .const ∨ o ∈ O.leading W x))) =
          (R.options n φ).map fun p => (p.1, p.2.filter fun o => decide (o = .const ∨ o ∈ O.leading W p.1)) := by
      rw [O.options_eq, List.map_map]
      rfl
    rw [hoptions, ← filter_assignments (fun x o => decide (o = .const ∨ o ∈ O.leading W x)) (R.nodup_options n φ),
      List.filter_filter]
    refine List.filter_congr fun choice hchoice => ?_
    cases hpass : P choice with
    | false => rfl
    | true =>
      have hselects := (mem_assignments (R.nodup_options n φ)).1 hchoice
      refine (List.all_eq_true.2 fun p hp => decide_eq_true ?_).symm
      exact hP choice ((O.selects_iff_of_steady hR n k).1 hselects) hpass p.1 (O.mem_options.1 hp).1
  have hkeys : (O.keys.map fun x => (x, (O.candidates (R.order j) x).filter fun o =>
      decide (o = .const ∨ o ∈ O.leading W x))) = O.keys.map fun x => (x,
        (O.candidates (R.order k) x).filter fun o => decide (o = .const ∨ o ∈ O.leading W x)) := by
    refine List.map_congr_left fun x hx => ?_
    rw [O.filter_candidates_eq hR hx hj hk]
  rw [hnarrow, hnarrow, hkeys]

end Ordered

/-- The variants that hold given entries only stand in the same order in every pass, if these entries come first. -/
theorem filter_variants_eq (hR : R.Steady) {i : Nat} (hφ : φ ∈ R.stage i) (hj : W <+: R.order j) (hk : W <+: R.order k) :
    (R.variants j φ).filter (Formula.within R.depth W) = (R.variants k φ).filter (Formula.within R.depth W) := by
  obtain ⟨O⟩ := exists_ordered hR hφ
  rw [variants, variants, Formula.variants, Formula.variants, List.filter_map, List.filter_map]
  refine congrArg (List.map (φ.variant R.naming)) (O.filter_assignments_eq hR hj hk fun choice hselects hwithin x hx => ?_)
  by_cases hconst : choice x = .const
  · exact .inl hconst
  · have hW := (within_variant_iff.1 hwithin).2 _ _ (O.mem_outline hx) hconst
    obtain ⟨hearly, -⟩ := O.early_of_mem_candidates hx ((O.selects_iff.1 hselects).1 x hx) hconst
    exact .inr (List.mem_filter.2 ⟨mem_standing.2 hW, hearly⟩)

/-- The formulas that hold given entries only come from one another. -/
theorem filter_stage_succ (k : Nat) : (R.stage (k + 1)).filter (Formula.within R.depth W) =
    (((R.stage k).filter (Formula.within R.depth W)).flatMap fun φ =>
      (R.variants k φ).filter (Formula.within R.depth W)).eraseDups := by
  rw [R.step, ← eraseDups_filter, List.filter_flatMap]
  refine congrArg List.eraseDups ?_
  -- a formula that holds other entries has no such variants
  have heach : ∀ φ ∈ R.stage k, (φ.variants R.naming R.depth (R.order k)).filter (Formula.within R.depth W) =
      if φ.within R.depth W then (R.variants k φ).filter (Formula.within R.depth W) else [] := by
    intro φ hφ
    split_ifs with hwithin
    · rfl
    · refine List.filter_eq_nil_iff.2 fun ψ hψ hψW => hwithin ?_
      obtain ⟨choice, -, rfl⟩ := mem_variants.1 hψ
      exact (within_variant_iff.1 hψW).1
  exact (List.flatMap_congr heach).trans (flatMap_ite_nil _ _ _)

/-- The formulas that hold given entries only settle, if these entries come first from some pass on. -/
theorem exists_settled (hR : R.Steady) (hW : ∀ᶠ k in atTop, W <+: R.order k) :
    ∃ M, ∀ᶠ k in atTop, (R.stage k).filter (Formula.within R.depth W) = M := by
  obtain ⟨K, hK⟩ := eventually_atTop.1 hW
  refine exists_eventually_eq_of_flatMap (E := fun φ => (R.variants K φ).filter (Formula.within R.depth W))
    (μ := Formula.weight R.arity R.depth) (fun φ ψ hψ => eq_or_weight_lt (List.mem_filter.1 hψ).1)
    (eventually_atTop.2 ⟨K, fun k hk => ?_⟩)
  rw [filter_stage_succ]
  refine congrArg List.eraseDups (List.flatMap_congr fun φ hφ => ?_)
  exact filter_variants_eq hR (List.mem_filter.1 hφ).1 (hK k hk) (hK K le_rfl)

end PassRun

end GameCircuit
