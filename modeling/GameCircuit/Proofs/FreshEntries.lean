import GameCircuit.Proofs.Generations

/-!
# The entry after the settled ones

In a phase, the entry that comes after the given ones in the order of a pass is that of the first formula which holds
another entry (`PassRun.fresh?`).  From some pass on, this formula comes from the first such formula of the pass before,
and then it settles, or it comes from a formula that holds given entries only (`PassRun.Source`), and then from one and
the same in every pass (`PassRun.Phase.exists_settled_or_source`).
-/

namespace GameCircuit

open Filter

namespace PassRun

variable {R : PassRun} {k : Nat} {W : List (Site × Occupant)} {M : List (Formula Symbol)} {φ ψ χ u : Formula Symbol}

/-- The formulas before the first one that holds another entry. -/
def front (R : PassRun) (W : List (Site × Occupant)) (k : Nat) : List (Formula Symbol) :=
  (R.stage k).takeWhile (Formula.within R.depth W)

/-- The first formula that holds another entry. -/
def fresh? (R : PassRun) (W : List (Site × Occupant)) (k : Nat) : Option (Formula Symbol) :=
  (R.stage k).find? fun φ => !φ.within R.depth W

/-- The entries of a formula other than the given ones. -/
def newEntries (R : PassRun) (W : List (Site × Occupant)) (φ : Formula Symbol) : List (Site × Occupant) :=
  (φ.occupied R.depth).filter fun p => !W.contains p

theorem mem_newEntries {p : Site × Occupant} : p ∈ R.newEntries W φ ↔ p ∈ φ.occupied R.depth ∧ p ∉ W := by
  simp [newEntries]

theorem newEntries_eq_nil : R.newEntries W φ = [] ↔ φ.within R.depth W = true := by
  rw [List.eq_nil_iff_forall_not_mem, Formula.within_iff]
  refine forall_congr' fun p => ?_
  rw [mem_newEntries, not_and, not_not]

theorem within_of_mem_front (h : φ ∈ R.front W k) : φ.within R.depth W = true := List.mem_takeWhile_imp h

/-- A description is the formulas that hold given entries only, the first that holds another, and the rest. -/
theorem exists_stage_eq (h : R.fresh? W k = some u) : u.within R.depth W = false ∧
    ∃ rest, R.stage k = R.front W k ++ u :: rest := by
  obtain ⟨hu, before, rest, hstage, hbefore⟩ := List.find?_eq_some_iff_append.1 h
  have hout : u.within R.depth W = false := by simpa using hu
  refine ⟨hout, rest, ?_⟩
  have hall : ∀ φ ∈ before, φ.within R.depth W = true := fun φ hφ => by simpa using hbefore φ hφ
  rw [front, hstage, List.takeWhile_append_of_pos hall, List.takeWhile_cons_of_neg (by simp [hout]), List.append_nil]

section Order

variable (hW : W <+: R.order k)

include hW

/-- The order goes on with the new entries of the formulas. -/
theorem order_eq_append : R.order k = W ++ ((R.stage k).flatMap (R.newEntries W)).eraseDups := by
  have hsplit := eraseDups_eq_append hW
  rw [List.filter_flatMap] at hsplit
  exact hsplit

/-- The order goes on with the new entries of the first formula that has any. -/
theorem exists_order_eq (h : R.fresh? W k = some u) :
    ∃ rest, R.order k = W ++ (R.newEntries W u).eraseDups ++ rest := by
  obtain ⟨-, others, hstage⟩ := exists_stage_eq h
  have hfront : (R.front W k).flatMap (R.newEntries W) = [] :=
    List.flatMap_eq_nil_iff.2 fun φ hφ => newEntries_eq_nil.2 (within_of_mem_front hφ)
  rw [order_eq_append hW, hstage, List.flatMap_append, List.flatMap_cons, hfront, List.nil_append, eraseDups_append,
    ← List.append_assoc]
  exact ⟨_, rfl⟩

theorem order_eq_of_fresh?_eq_none (h : R.fresh? W k = none) : R.order k = W := by
  have hnone : (R.stage k).flatMap (R.newEntries W) = [] := by
    refine List.flatMap_eq_nil_iff.2 fun φ hφ => newEntries_eq_nil.2 ?_
    simpa using List.find?_eq_none.1 h φ hφ
  rw [order_eq_append hW, hnone]
  exact List.append_nil W

end Order

/-- If the first formula with another entry settles, so does the next entry. -/
theorem exists_next_of_fresh? (hW : ∀ᶠ k in atTop, W <+: R.order k) (h : ∀ᶠ k in atTop, R.fresh? W k = some u) :
    ∃ ω, ∀ᶠ k in atTop, W ++ [ω] <+: R.order k := by
  obtain ⟨n, hn⟩ := eventually_atTop.1 (hW.and h)
  have hout := (exists_stage_eq (hn n le_rfl).2).1
  cases hnew : R.newEntries W u with
  | nil => simp [newEntries_eq_nil.1 hnew] at hout
  | cons ω entries =>
    refine ⟨ω, eventually_atTop.2 ⟨n, fun k hk => ?_⟩⟩
    obtain ⟨rest, horder⟩ := exists_order_eq (hn k hk).1 (hn k hk).2
    rw [horder, hnew, List.eraseDups_cons, List.append_assoc]
    exact (List.prefix_append_right_inj W).2 ⟨_, rfl⟩

/-! ## From one pass to the next -/

theorem fresh?_succ (R : PassRun) (W : List (Site × Occupant)) (k : Nat) :
    R.fresh? W (k + 1) = ((R.stage k).flatMap (R.variants k)).find? fun φ => !φ.within R.depth W := by
  rw [fresh?, R.step, find?_eraseDups]
  rfl

theorem mem_front_succ : φ ∈ R.front W (k + 1) ↔
    φ ∈ ((R.stage k).flatMap (R.variants k)).takeWhile (Formula.within R.depth W) := by
  rw [front, R.step, takeWhile_eraseDups, List.mem_eraseDups]
  rfl

theorem within_eq_false_of_mem_variants (hψ : ψ ∈ R.variants k φ) (h : φ.within R.depth W = false) :
    ψ.within R.depth W = false := by
  obtain ⟨choice, -, rfl⟩ := mem_variants.1 hψ
  rw [Bool.eq_false_iff] at h ⊢
  exact fun hwithin => h (within_variant_iff.1 hwithin).1

theorem variants_ne_nil (R : PassRun) (k : Nat) (φ : Formula Symbol) : R.variants k φ ≠ [] := by
  obtain ⟨choice, hselects⟩ := Formula.exists_selects_options (standing (R.order k)) R.depth φ
  exact List.ne_nil_of_mem (mem_variants.2 ⟨choice, hselects, rfl⟩)

/-- Up to a formula whose first variant holds another entry, the formulas come from those before it. -/
theorem mem_flatMap_of_mem_front {before after : List (Formula Symbol)} {χs : List (Formula Symbol)}
    (hstage : R.stage k = before ++ ψ :: after) (hψ : R.variants k ψ = χ :: χs) (hχ : χ.within R.depth W = false)
    (h : φ ∈ R.front W (k + 1)) : φ ∈ before.flatMap (R.variants k) := by
  rw [mem_front_succ, hstage, List.flatMap_append, List.flatMap_cons, hψ, List.cons_append, List.takeWhile_append] at h
  split_ifs at h
  · rw [List.takeWhile_cons_of_neg (by simp [hχ]), List.append_nil] at h
    exact h
  · exact (List.takeWhile_prefix _).subset h

/-- If the formulas before a given one have no variant with another entry, their variants come first. -/
theorem mem_front_of_mem_flatMap {before after : List (Formula Symbol)} (hstage : R.stage k = before ++ after)
    (hquiet : ∀ ψ ∈ before, ∀ χ ∈ R.variants k ψ, χ.within R.depth W = true)
    (h : φ ∈ before.flatMap (R.variants k)) : φ ∈ R.front W (k + 1) := by
  have hall : ∀ χ ∈ before.flatMap (R.variants k), χ.within R.depth W = true := by
    intro χ hχ
    obtain ⟨ψ, hψ, hvariant⟩ := List.mem_flatMap.1 hχ
    exact hquiet ψ hψ χ hvariant
  rw [mem_front_succ, hstage, List.flatMap_append, List.takeWhile_append_of_pos hall]
  exact List.mem_append_left _ h

/-- If the formulas before a given one have no variant with another entry, the first such entry is in a variant of
the given one, if it has any there. -/
theorem fresh?_succ_of_quiet {before after : List (Formula Symbol)} (hstage : R.stage k = before ++ φ :: after)
    (hquiet : ∀ ψ ∈ before, ∀ χ ∈ R.variants k ψ, χ.within R.depth W = true)
    (hφ : ∃ ψ ∈ R.variants k φ, ψ.within R.depth W = false) :
    R.fresh? W (k + 1) = (R.variants k φ).find? fun ψ => !ψ.within R.depth W := by
  have hnone : (before.flatMap (R.variants k)).find? (fun ψ => !ψ.within R.depth W) = none := by
    refine List.find?_eq_none.2 fun χ hχ => ?_
    obtain ⟨ψ, hψ, hvariant⟩ := List.mem_flatMap.1 hχ
    simp [hquiet ψ hψ χ hvariant]
  have hsome : ((R.variants k φ).find? fun ψ => !ψ.within R.depth W).isSome = true := by
    obtain ⟨ψ, hψ, hout⟩ := hφ
    exact List.find?_isSome.2 ⟨ψ, hψ, by simp [hout]⟩
  rw [fresh?_succ, hstage, List.flatMap_append, List.flatMap_cons, List.find?_append, hnone, Option.none_or,
    List.find?_append, Option.or_of_isSome hsome]

/-- If the formulas in front have no variant with another entry, the next first formula with another entry comes from
the last one. -/
theorem exists_mem_variants_of_quiet (hquiet : ∀ ψ ∈ R.front W k, ∀ χ ∈ R.variants k ψ, χ.within R.depth W = true)
    (hu : R.fresh? W k = some u) : ∃ v ∈ R.variants k u, R.fresh? W (k + 1) = some v := by
  obtain ⟨hout, rest, hstage⟩ := exists_stage_eq hu
  obtain ⟨ψ, hψ⟩ := List.exists_mem_of_ne_nil _ (R.variants_ne_nil k u)
  have hfresh := fresh?_succ_of_quiet hstage hquiet ⟨ψ, hψ, within_eq_false_of_mem_variants hψ hout⟩
  obtain ⟨v, hv⟩ : ∃ v, (R.variants k u).find? (fun ψ => !ψ.within R.depth W) = some v :=
    Option.isSome_iff_exists.1 (List.find?_isSome.2 ⟨ψ, hψ, by simp [within_eq_false_of_mem_variants hψ hout]⟩)
  exact ⟨v, List.mem_of_find?_eq_some hv, hfresh.trans hv⟩

/-- If this is so from some pass on, the first formula with another entry settles, since it cannot get lighter for
ever. -/
theorem exists_fresh?_settled (hfresh : ∀ k, ∃ u, R.fresh? W k = some u)
    (hquiet : ∀ᶠ k in atTop, ∀ ψ ∈ R.front W k, ∀ χ ∈ R.variants k ψ, χ.within R.depth W = true) :
    ∃ u, ∀ᶠ k in atTop, R.fresh? W k = some u := by
  choose u hu using hfresh
  obtain ⟨v, hv⟩ := exists_eventually_eq_of_descent (u := u) (μ := Formula.weight R.arity R.depth)
    (hquiet.mono fun k hk => by
      obtain ⟨v, hmem, hv⟩ := exists_mem_variants_of_quiet hk (hu k)
      rw [hu (k + 1)] at hv
      rw [Option.some.inj hv]
      exact eq_or_weight_lt hmem)
  exact ⟨v, hv.mono fun k hk => by rw [hu k, hk]⟩

/-- In every pass, a formula that holds given entries only is in front of the others, and it is the first of those with
a variant that holds another entry. -/
structure Source (R : PassRun) (W : List (Site × Occupant)) (before : List (Formula Symbol)) (φ : Formula Symbol)
    (after : List (Formula Symbol)) : Prop where
  phase : R.Phase W (before ++ φ :: after)
  quiet : ∀ k, ∀ ψ ∈ before, ∀ χ ∈ R.variants k ψ, χ.within R.depth W = true
  fertile : ∀ k, ∃ ψ ∈ R.variants k φ, ψ.within R.depth W = false
  present : ∀ k, φ ∈ R.front W k

namespace Phase

variable (P : R.Phase W M) {before after : List (Formula Symbol)}

include P

theorem exists_eq_front_append (k : Nat) : ∃ rest, M = R.front W k ++ rest := by
  have hself : (R.front W k).filter (Formula.within R.depth W) = R.front W k :=
    List.filter_eq_self.2 fun φ hφ => within_of_mem_front hφ
  have hfront : (R.front W k).filter (Formula.within R.depth W) <+: M := by
    rw [← P.settled k]
    exact (List.takeWhile_prefix _).filter _
  rw [hself] at hfront
  obtain ⟨rest, hrest⟩ := hfront
  exact ⟨rest, hrest.symm⟩

theorem nodup : M.Nodup := by
  rw [P.eq_eraseDups 0]
  exact nodup_eraseDups _

theorem drop (n : Nat) : (R.drop n).Phase W M :=
  ⟨P.steady.drop n, fun k => P.begins (n + k), fun k => P.settled (n + k)⟩

theorem mem_variants_iff (hφ : φ ∈ M) (j k : Nat) : ψ ∈ R.variants j φ ↔ ψ ∈ R.variants k φ := by
  obtain ⟨O⟩ := exists_ordered P.steady (P.mem_stage hφ 0)
  exact O.mem_variants_iff P.steady j k

/-- A formula in front has those before it in front of it. -/
theorem exists_stage_eq_of_mem_front (hM : M = before ++ φ :: after) (hφ : φ ∈ R.front W k) :
    ∃ rest, R.stage k = before ++ φ :: rest := by
  obtain ⟨before', after', hfront⟩ := List.append_of_mem hφ
  obtain ⟨rest, hrest⟩ := P.exists_eq_front_append k
  have hnodup := P.nodup
  rw [hM, List.nodup_middle, List.nodup_cons, List.mem_append, not_or] at hnodup
  rw [hM, hfront, List.append_assoc, List.cons_append] at hrest
  obtain ⟨hbefore, -, -⟩ := (List.append_cons_inj_of_notMem hnodup.1.1 hnodup.1.2).1 hrest
  rw [← List.takeWhile_append_dropWhile (p := Formula.within R.depth W) (l := R.stage k)]
  exact ⟨after' ++ (R.stage k).dropWhile (Formula.within R.depth W), by
    rw [← front, hfront, hbefore, List.append_assoc, List.cons_append]⟩

/-- The formulas in front are before one that is not. -/
theorem mem_of_mem_front (hM : M = before ++ φ :: after) (hφ : φ ∉ R.front W k) (hψ : ψ ∈ R.front W k) : ψ ∈ before := by
  obtain ⟨rest, hrest⟩ := P.exists_eq_front_append k
  rw [hM] at hrest
  rcases List.append_eq_append_iff.1 hrest with ⟨as, hfront, happend⟩ | ⟨bs, hbefore, -⟩
  · cases as with
    | nil =>
      rw [hfront, List.append_nil] at hψ
      exact hψ
    | cons a as =>
      obtain ⟨rfl, -⟩ := List.cons.inj happend
      exact absurd (by simp [hfront]) hφ
  · rw [hbefore]
    exact List.mem_append_left _ hψ

/-- As long as something stands beside the given entries, some formula holds it. -/
theorem exists_fresh? (hne : R.order 0 ≠ W) (k : Nat) : ∃ u, R.fresh? W k = some u := by
  by_contra hnone
  have horder : R.order k = W := order_eq_of_fresh?_eq_none (P.begins k)
    (Option.eq_none_iff_forall_ne_some.2 fun u hu => hnone ⟨u, hu⟩)
  have hsub : (R.order 0).Subperm W := by
    refine List.subperm_of_subset (R.nodup_order 0) fun p hp => ?_
    rw [← horder]
    exact (P.steady.mem_iff 0 k).1 hp
  exact hne ((P.begins 0).eq_of_length_le hsub.length_le).symm

/-- Whether a formula stays in front is settled by whether it comes from those before it. -/
theorem eventually_front (hM : M = before ++ φ :: after) (hfresh : ∀ k, ∃ u, R.fresh? W k = some u)
    (hquiet : ∀ k, ∀ ψ ∈ before, ∀ χ ∈ R.variants k ψ, χ.within R.depth W = true) :
    (∀ᶠ k in atTop, φ ∈ R.front W k) ∨ ∀ᶠ k in atTop, φ ∉ R.front W k := by
  have hbefore : ∀ {j k}, φ ∈ before.flatMap (R.variants j) → φ ∈ before.flatMap (R.variants k) := by
    intro j k hφ
    obtain ⟨ψ, hψ, hvariant⟩ := List.mem_flatMap.1 hφ
    exact List.mem_flatMap.2 ⟨ψ, hψ, (P.mem_variants_iff (by simp [hM, hψ]) j k).1 hvariant⟩
  by_cases hself : φ ∈ before.flatMap (R.variants 0)
  · -- once in front, it stays there
    by_cases hever : ∃ n, φ ∈ R.front W n
    · obtain ⟨n, hn⟩ := hever
      refine .inl (eventually_atTop.2 ⟨n, fun k hk => ?_⟩)
      induction k, hk using Nat.le_induction with
      | base => exact hn
      | succ k _ ih =>
        obtain ⟨rest, hstage⟩ := P.exists_stage_eq_of_mem_front hM ih
        exact mem_front_of_mem_flatMap hstage (hquiet k) (hbefore hself)
    · exact .inr (Eventually.of_forall fun k hk => hever ⟨k, hk⟩)
  · -- once elsewhere, it stays there
    by_cases hever : ∃ n, φ ∉ R.front W n
    · obtain ⟨n, hn⟩ := hever
      refine .inr (eventually_atTop.2 ⟨n, fun k hk => ?_⟩)
      induction k, hk using Nat.le_induction with
      | base => exact hn
      | succ k _ ih =>
        intro hφ
        obtain ⟨u, hu⟩ := hfresh k
        obtain ⟨hout, rest, hstage⟩ := exists_stage_eq hu
        obtain ⟨χ, χs, hχ⟩ := List.exists_cons_of_ne_nil (R.variants_ne_nil k u)
        have hfirst := within_eq_false_of_mem_variants (by rw [hχ]; exact List.mem_cons_self) hout
        obtain ⟨ψ, hψ, hvariant⟩ := List.mem_flatMap.1 (mem_flatMap_of_mem_front hstage hχ hfirst hφ)
        exact hself (hbefore (List.mem_flatMap.2 ⟨ψ, P.mem_of_mem_front hM ih hψ, hvariant⟩))
    · exact .inl (Eventually.of_forall fun k => not_not.1 fun hk => hever ⟨k, hk⟩)

/-- The first formula with another entry settles, or it comes from one and the same formula in every pass. -/
theorem exists_settled_or_source (hne : R.order 0 ≠ W) : (∃ u, ∀ᶠ k in atTop, R.fresh? W k = some u) ∨
    ∃ n before φ after, (R.drop n).Source W before φ after := by
  have hfresh := P.exists_fresh? hne
  cases hfind : M.find? fun φ => (R.variants 0 φ).any fun ψ => !ψ.within R.depth W with
  | none =>
    refine .inl (exists_fresh?_settled hfresh (Eventually.of_forall fun k ψ hψ χ hχ => ?_))
    obtain ⟨rest, hrest⟩ := P.exists_eq_front_append k
    have hψM : ψ ∈ M := by simp [hrest, hψ]
    have hall := List.find?_eq_none.1 hfind ψ hψM
    rw [List.any_eq_true] at hall
    push Not at hall
    simpa using hall χ ((P.mem_variants_iff hψM k 0).1 hχ)
  | some φ =>
    obtain ⟨hfertile, before, after, hM, hbefore⟩ := List.find?_eq_some_iff_append.1 hfind
    have hquiet : ∀ k, ∀ ψ ∈ before, ∀ χ ∈ R.variants k ψ, χ.within R.depth W = true := by
      intro k ψ hψ χ hχ
      have hall := hbefore ψ hψ
      rw [Bool.not_eq_true', Bool.eq_false_iff, Ne, List.any_eq_true] at hall
      push Not at hall
      simpa using hall χ ((P.mem_variants_iff (by simp [hM, hψ]) k 0).1 hχ)
    rcases P.eventually_front hM hfresh hquiet with hin | hout
    · obtain ⟨n, hn⟩ := eventually_atTop.1 hin
      refine .inr ⟨n, before, φ, after, hM ▸ P.drop n, fun k => hquiet (n + k), fun k => ?_,
        fun k => hn (n + k) (Nat.le_add_right n k)⟩
      obtain ⟨ψ, hψ, hψout⟩ := List.any_eq_true.1 hfertile
      rw [Bool.not_eq_true'] at hψout
      exact ⟨ψ, (P.mem_variants_iff (by simp [hM]) 0 (n + k)).1 hψ, hψout⟩
    · exact .inl (exists_fresh?_settled hfresh (hout.mono fun k hk ψ hψ =>
        hquiet k ψ (P.mem_of_mem_front hM hk hψ)))

end Phase

end PassRun

end GameCircuit
