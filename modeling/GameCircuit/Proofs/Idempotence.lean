import GameCircuit.Proofs.Passes

/-!
# Normalizing a normal form

The last pass of a normalization changes nothing, but its result is still scheduled, and a second
normalization takes its depth from the result.  It changes nothing either, if scheduling makes no two rules
equal, no function stands deeper in the result than in the description, and no rule of the result holds an
equality literal together with a variable that may stand for function terms.
-/

namespace GameCircuit

/-! ## Scheduling -/

section Schedule

variable {bound : List Symbol} {held body : List (Formula Symbol)}

/-- Equality literals that wait stay behind one another. -/
theorem scheduleFrom_of_unbound (h : ∀ φ ∈ body, φ.isEquality = true ∧ φ.isBoundBy bound = false) :
    scheduleFrom bound held body = held ++ body := by
  induction body generalizing held with
  | nil => simp [scheduleFrom]
  | cons φ body ih =>
    obtain ⟨⟨hequality, hunbound⟩, hbody⟩ := List.forall_mem_cons.1 h
    rw [scheduleFrom, if_pos hequality, if_neg (by simp [hunbound]), ih hbody, List.append_assoc,
      List.singleton_append]

/-- Equality literals with bound variables stay where they are. -/
theorem scheduleFrom_append_of_bound {released : List (Formula Symbol)}
    (h : ∀ φ ∈ released, φ.isEquality = true ∧ φ.isBoundBy bound = true) :
    scheduleFrom bound held (released ++ body) = released ++ scheduleFrom bound held body := by
  induction released with
  | nil => rfl
  | cons φ released ih =>
    obtain ⟨⟨hequality, hbound⟩, hreleased⟩ := List.forall_mem_cons.1 h
    rw [List.cons_append, scheduleFrom, if_pos hequality, if_pos hbound, ih hreleased, List.cons_append]

theorem scheduleFrom_scheduleFrom (hheld : ∀ φ ∈ held, φ.isEquality = true ∧ φ.isBoundBy bound = false) :
    scheduleFrom bound [] (scheduleFrom bound held body) = scheduleFrom bound held body := by
  induction body generalizing bound held with
  | nil =>
    rw [scheduleFrom]
    exact scheduleFrom_of_unbound hheld
  | cons φ body ih =>
    rw [scheduleFrom]
    split_ifs with hequality hbound
    · rw [scheduleFrom, if_pos hequality, if_pos hbound, ih hheld]
    · refine ih fun ψ hψ => ?_
      rcases List.mem_append.1 hψ with hold | hnew
      · exact hheld ψ hold
      · rw [List.mem_singleton.1 hnew]
        exact ⟨hequality, by simpa using hbound⟩
    · -- a literal that binds variables: what it releases is bound when it is met again
      have hreleased : ∀ ψ ∈ held.filter (·.isBoundBy (bound ++ φ.binds)),
          ψ.isEquality = true ∧ ψ.isBoundBy (bound ++ φ.binds) = true := fun ψ hψ =>
        ⟨(hheld ψ (List.mem_filter.1 hψ).1).1, (List.mem_filter.1 hψ).2⟩
      have hwaiting : ∀ ψ ∈ held.filter (fun ψ => !ψ.isBoundBy (bound ++ φ.binds)),
          ψ.isEquality = true ∧ ψ.isBoundBy (bound ++ φ.binds) = false := fun ψ hψ =>
        ⟨(hheld ψ (List.mem_filter.1 hψ).1).1, by simpa using (List.mem_filter.1 hψ).2⟩
      rw [scheduleFrom, if_neg hequality]
      simp only [List.filter_nil, List.nil_append]
      rw [scheduleFrom_append_of_bound hreleased, ih hwaiting]

theorem schedule_schedule (body : List (Formula Symbol)) : schedule (schedule body) = schedule body :=
  scheduleFrom_scheduleFrom (by simp)

/-- Literals other than equality literals keep their order. -/
theorem filter_scheduleFrom (hheld : ∀ φ ∈ held, φ.isEquality = true) :
    (scheduleFrom bound held body).filter (fun φ => !φ.isEquality) = body.filter (fun φ => !φ.isEquality) := by
  have hnone : ∀ {φs : List (Formula Symbol)}, (∀ φ ∈ φs, φ.isEquality = true) →
      φs.filter (fun φ => !φ.isEquality) = [] := by
    intro φs h
    exact List.filter_eq_nil_iff.2 fun φ hφ => by simp [h φ hφ]
  induction body generalizing bound held with
  | nil =>
    rw [scheduleFrom]
    exact hnone hheld
  | cons φ body ih =>
    rw [scheduleFrom]
    split_ifs with hequality hbound
    · rw [List.filter_cons, List.filter_cons, ih hheld]
    · rw [List.filter_cons_of_neg (by simp [hequality])]
      refine ih fun ψ hψ => ?_
      rcases List.mem_append.1 hψ with hold | hnew
      · exact hheld ψ hold
      · rw [List.mem_singleton.1 hnew]
        exact hequality
    · rw [List.filter_cons, List.filter_cons, List.filter_append,
        hnone fun ψ hψ => hheld ψ (List.mem_filter.1 hψ).1, ih fun ψ hψ => hheld ψ (List.mem_filter.1 hψ).1,
        List.nil_append]

theorem filter_schedule (body : List (Formula Symbol)) :
    (schedule body).filter (fun φ => !φ.isEquality) = body.filter (fun φ => !φ.isEquality) :=
  filter_scheduleFrom (by simp)

theorem schedule_eq_self (h : body.any Formula.isEquality = false) : schedule body = body := by
  have hfilter : ∀ {φs : List (Formula Symbol)}, (∀ φ ∈ φs, φ.isEquality = false) →
      φs.filter (fun φ => !φ.isEquality) = φs := by
    intro φs hφs
    exact List.filter_eq_self.2 fun φ hφ => by simp [hφs φ hφ]
  have hbody : ∀ φ ∈ body, φ.isEquality = false := by simpa using h
  calc schedule body = (schedule body).filter fun φ => !φ.isEquality :=
        (hfilter fun φ hφ => hbody φ (mem_schedule.1 hφ)).symm
    _ = body.filter fun φ => !φ.isEquality := filter_schedule body
    _ = body := hfilter hbody

theorem flatMap_schedule {α : Type} {f : Formula Symbol → List α} (h : ∀ φ, φ.isEquality = true → f φ = []) :
    (schedule body).flatMap f = body.flatMap f := by
  have hfilter : ∀ φs : List (Formula Symbol), (φs.filter fun φ => !φ.isEquality).flatMap f = φs.flatMap f := by
    intro φs
    induction φs with
    | nil => rfl
    | cons φ φs ih =>
      cases hequality : φ.isEquality with
      | true =>
        rw [List.filter_cons_of_neg (by simp [hequality]), ih, List.flatMap_cons, h φ hequality, List.nil_append]
      | false => rw [List.filter_cons_of_pos (by simp [hequality]), List.flatMap_cons, ih, List.flatMap_cons]
  rw [← hfilter, filter_schedule, hfilter]

end Schedule

namespace Formula

variable {φ ψ : Formula Symbol} {φs : List (Formula Symbol)}

theorem isEquality_disj (φs : List (Formula Symbol)) : (disj φs).isEquality = false := by simp [isEquality]

theorem isEquality_rule (head : Atom Symbol) (body : List (Formula Symbol)) :
    (rule head body).isEquality = false := by
  simp [isEquality]

theorem relation_of_isEquality (h : φ.isEquality = true) : ∀ a ∈ φ.atoms, a.relation = Keyword.distinct := by
  induction φ with
  | atom a =>
    intro b hb
    rw [List.mem_singleton.1 hb]
    simpa [isEquality] using h
  | neg ψ ih => exact ih h
  | rule head body ih =>
    rw [isEquality_rule] at h
    cases h
  | disj φs ih =>
    rw [isEquality_disj] at h
    cases h

theorem isEquality_subst (σ : Symbol → Term Symbol) (φ : Formula Symbol) :
    (φ.subst σ).isEquality = φ.isEquality := by
  induction φ with
  | atom a => rfl
  | neg ψ ih => exact ih
  | rule head body ih => simp [isEquality]
  | disj φs ih => simp [isEquality]

theorem evidence_of_isEquality {occupancy : Occupancy} {depth : Nat} {x : Symbol} (h : φ.isEquality = true) :
    φ.evidence occupancy depth x = .silent := by
  cases φ with
  | atom a =>
    have hd := relation_of_isEquality h a (List.mem_singleton_self a)
    have hpaths : a.pathsTo x = [] := List.eq_nil_iff_forall_not_mem.2 fun path hpath =>
      (Atom.mem_pathsTo.1 hpath).1 hd
    rw [evidence, Atom.evidence, hpaths]
    rfl
  | neg ψ => rfl
  | rule head body => rfl
  | disj φs =>
    rw [isEquality_disj] at h
    cases h

theorem mem_atoms_scheduled {a : Atom Symbol} : a ∈ φ.scheduled.atoms ↔ a ∈ φ.atoms := by
  cases φ with
  | rule head body => simp only [scheduled, atoms_rule, List.mem_cons, List.mem_flatMap, mem_schedule]
  | atom b => exact Iff.rfl
  | neg ψ => exact Iff.rfl
  | disj φs => exact Iff.rfl

theorem scheduled_scheduled (φ : Formula Symbol) : φ.scheduled.scheduled = φ.scheduled := by
  cases φ with
  | rule head body => rw [scheduled, scheduled, schedule_schedule]
  | atom a => rfl
  | neg ψ => rfl
  | disj φs => rfl

theorem Tidy.scheduled (h : φ.Tidy) : φ.scheduled.Tidy where
  supported := by
    rw [isSupported_scheduled]
    exact h.supported
  proper a ha := h.proper a (mem_atoms_scheduled.1 ha)
  collapsed a ha := h.collapsed a (mem_atoms_scheduled.1 ha)
  solved ψ hψ := by
    refine h.solved ψ ?_
    cases φ with
    | rule head body => exact mem_schedule.1 hψ
    | atom a => exact hψ
    | neg χ => exact hψ
    | disj φs => exact hψ

theorem Kept.scheduled {dropBase : Bool} (h : φ.Kept dropBase) : φ.scheduled.Kept dropBase := by
  cases φ with
  | rule head body =>
    refine ⟨?_, by simp [Formula.scheduled, isBaseFact]⟩
    cases hbody : schedule body with
    | nil =>
      have hnil : body = [] := List.Perm.eq_nil (hbody ▸ (schedule_perm body).symm)
      rw [hnil] at h
      cases h.1
    | cons ψ rest =>
      rw [Formula.scheduled, hbody]
      rfl
  | atom a => exact h
  | neg ψ => exact h
  | disj φs => exact h

end Formula

/-! ## What scheduling leaves as it is -/

section Scheduled

variable {φs : List (Formula Symbol)} {φ : Formula Symbol} {occupancy : Occupancy} {depth : Nat}

theorem siteOccupants_scheduled (φs : List (Formula Symbol)) :
    siteOccupants (φs.map Formula.scheduled) = siteOccupants φs := by
  simp only [siteOccupants, List.flatMap_assoc, List.flatMap_map]
  refine List.flatMap_congr fun φ _ => ?_
  cases φ with
  | rule head body =>
    simp only [Formula.scheduled, Formula.atoms_rule, List.flatMap_cons, List.flatMap_assoc]
    rw [flatMap_schedule]
    intro ψ hψ
    refine List.flatMap_eq_nil_iff.2 fun a ha => ?_
    rw [Atom.occupants, if_pos (Formula.relation_of_isEquality hψ a ha), List.map_nil]
  | atom a => rfl
  | neg ψ => rfl
  | disj φs => rfl

theorem hasForeignBase_scheduled (φs : List (Formula Symbol)) :
    hasForeignBase (φs.map Formula.scheduled) = hasForeignBase φs := by
  rw [Bool.eq_iff_iff, hasForeignBase, hasForeignBase, List.any_eq_true, List.any_eq_true]
  simp only [List.flatMap_map, List.mem_flatMap, Formula.mem_atoms_scheduled]

theorem candidates_schedule (head : Atom Symbol) (body : List (Formula Symbol)) (x : Symbol) :
    Clause.candidates occupancy depth ⟨head, schedule body⟩ x =
      Clause.candidates occupancy depth ⟨head, body⟩ x := by
  have hall : ∀ body : List (Formula Symbol),
      Evidence.all ((body.filter fun φ => !φ.isEquality).map (Formula.evidence occupancy depth x)) =
        Evidence.all (body.map (Formula.evidence occupancy depth x)) := fun body =>
    Evidence.all_filter fun φ _ hφ => Formula.evidence_of_isEquality (by simpa using hφ)
  rw [Clause.candidates, Clause.candidates, ← hall (schedule body), filter_schedule, hall]

theorem compoundVariables_eq_nil_of_schedule {head : Atom Symbol} {body : List (Formula Symbol)}
    (h : Clause.compoundVariables occupancy depth ⟨head, schedule body⟩ = []) :
    Clause.compoundVariables occupancy depth ⟨head, body⟩ = [] := by
  refine List.eq_nil_iff_forall_not_mem.2 fun p hp => ?_
  obtain ⟨hx, hcandidates, hany⟩ := Clause.mem_compoundVariables.1 hp
  have hmem : p ∈ Clause.compoundVariables occupancy depth ⟨head, schedule body⟩ := by
    refine Clause.mem_compoundVariables.2 ⟨?_, (candidates_schedule head body p.1).trans hcandidates, hany⟩
    rw [Clause.vars, List.mem_eraseDups] at hx ⊢
    obtain ⟨a, ha, hxa⟩ := List.mem_flatMap.1 hx
    exact List.mem_flatMap.2 ⟨a, Formula.mem_atoms_scheduled.2 ha, hxa⟩
  rw [h] at hmem
  cases hmem

end Scheduled

/-! ## The depth of a normal form -/

section Depth

variable {F : List (Formula Symbol)} {k m : Lexicon} {depth depth' : Nat}

/-- Each variable can be given any of the things that it may stand for. -/
theorem exists_selects {options : List (Symbol × List Occupant)} {x : Symbol} {os : List Occupant} {o : Occupant}
    (hnodup : (options.map Prod.fst).Nodup) (hne : ∀ p ∈ options, p.2 ≠ []) (hx : (x, os) ∈ options)
    (ho : o ∈ os) : ∃ choice, Selects options choice ∧ choice x = o := by
  have hunique : ∀ {y os os'}, (y, os) ∈ options → (y, os') ∈ options → os = os' := by
    intro y os os' h h'
    exact (Prod.mk.inj (List.inj_on_of_nodup_map hnodup h h' rfl)).2
  have hpick : ∀ y, ∃ o', (∀ os, (y, os) ∈ options → o' ∈ os) ∧
      (y ∉ options.map Prod.fst → o' = .const) ∧ (y = x → o' = o) := by
    intro y
    by_cases hyx : y = x
    · subst hyx
      refine ⟨o, fun os' hos' => ?_, fun hy => absurd (List.mem_map_of_mem hx) hy, fun _ => rfl⟩
      rwa [hunique hos' hx]
    · by_cases hy : y ∈ options.map Prod.fst
      · obtain ⟨p, hp, rfl⟩ := List.mem_map.1 hy
        obtain ⟨o', ho'⟩ := List.exists_mem_of_ne_nil _ (hne p hp)
        refine ⟨o', fun os' hos' => ?_, fun hy' => absurd hy hy', fun h => absurd h hyx⟩
        rwa [hunique hos' hp]
      · exact ⟨.const, fun os' hos' => absurd (List.mem_map_of_mem hos') hy, fun _ => rfl, fun h => absurd h hyx⟩
  choose choice hchoice using hpick
  exact ⟨choice, ⟨fun y os h => (hchoice y).1 os h, fun y hy => (hchoice y).2.1 hy⟩, (hchoice x).2.2 rfl⟩

theorem Clause.compoundVariables_congr {occupancy : Occupancy} {c : Clause Symbol}
    (h : ∀ x os, os.any Occupant.isFunctor = true →
      (c.candidates occupancy depth x = some os ↔ c.candidates occupancy depth' x = some os)) :
    c.compoundVariables occupancy depth = c.compoundVariables occupancy depth' := by
  refine List.filterMap_congr fun x _ => ?_
  cases hx : c.candidates occupancy depth x with
  | none =>
    cases hx' : c.candidates occupancy depth' x with
    | none => rfl
    | some os =>
      by_cases hany : os.any Occupant.isFunctor = true
      · rw [(h x os hany).2 hx'] at hx
        cases hx
      · simp [hany]
  | some os =>
    by_cases hany : os.any Occupant.isFunctor = true
    · rw [(h x os hany).1 hx]
    · cases hx' : c.candidates occupancy depth' x with
      | none => simp [hany]
      | some os' =>
        by_cases hany' : os'.any Occupant.isFunctor = true
        · rw [(h x os' hany').2 hx'] at hx
          exact absurd (Option.some.inj hx ▸ hany') hany
        · simp [hany, hany']

/-- In a description that specializing leaves as it is, variables that may stand for function terms stand no
deeper than functions do. -/
theorem compoundVariables_of_fixed (hk : k.Covers F) (h : specialize depth F k = (F, m))
    (hdepth : compoundDepth F ≤ depth) {head : Atom Symbol} {body : List (Formula Symbol)}
    (hrule : .rule head body ∈ F) :
    Clause.compoundVariables (.ofFormulas F) (compoundDepth F) ⟨head, body⟩ =
      Clause.compoundVariables (.ofFormulas F) depth ⟨head, body⟩ := by
  refine Clause.compoundVariables_congr fun x os hany => ?_
  have hshallower : ∀ φ ∈ body, (φ.evidence (.ofFormulas F) depth x).Shallower
      (φ.evidence (.ofFormulas F) (compoundDepth F) x) := fun φ _ => Formula.shallower_evidence hdepth
  have hallowed := (Evidence.Shallower.all hshallower).1
  rw [Clause.candidates_eq_some, Clause.candidates_eq_some]
  constructor
  · rintro ⟨hdeep, hos⟩
    refine ⟨fun φ hφ => ?_, hallowed.trans hos⟩
    by_contra htoo
    have hdeeper := (hshallower φ hφ).2 (by simpa using htoo)
    rw [hdeep φ hφ] at hdeeper
    cases hdeeper
  · rintro ⟨hdeep, hos⟩
    refine ⟨fun φ hφ => ?_, hallowed.symm.trans hos⟩
    by_contra htoo
    obtain ⟨a, ha, path, hpath, hlt⟩ := Formula.exists_path_of_tooDeep (by simpa using htoo)
    have hatoms : a ∈ (Formula.rule head body).atoms := Formula.mem_atoms_of_mem_body (φ := .rule head body) hφ ha
    have hx : x ∈ Clause.vars ⟨head, body⟩ :=
      List.mem_eraseDups.2 (List.mem_flatMap.2 ⟨a, hatoms, (Atom.mem_pathsTo.1 hpath).2.mem_vars⟩)
    have hoption : (x, os) ∈ Clause.compoundVariables (.ofFormulas F) depth ⟨head, body⟩ :=
      Clause.mem_compoundVariables.2 ⟨hx, Clause.candidates_eq_some.2 ⟨hdeep, hos⟩, hany⟩
    have hne : ∀ p ∈ Clause.compoundVariables (.ofFormulas F) depth ⟨head, body⟩, p.2 ≠ [] := by
      intro p hp hnil
      have hany := (Clause.mem_compoundVariables.1 hp).2.2
      simp [hnil] at hany
    -- the variant with a function in place of the variable is in the description
    obtain ⟨o, ho, hfunctor⟩ := List.any_eq_true.1 hany
    obtain ⟨choice, hselects, hchoice⟩ := exists_selects (Clause.nodup_compoundVariables _ _ _) hne hoption ho
    have hvariant : (Formula.rule head body).subst (m.variant choice) ∈ F :=
      (mem_specialize hk h).2 ⟨_, hrule, choice, hselects, rfl⟩
    have hoccupant : (path, o) ∈ (a.subst (m.variant choice)).occupants := by
      refine Atom.mem_occupants_of_mem_pathsTo hpath ?_
      rw [Lexicon.variant, hchoice]
      cases o with
      | const => cases hfunctor
      | functor f arity => simp [Lexicon.replacement, Term.occupant?]
    have hsite : (a.site path, o) ∈ siteOccupants F := by
      refine mem_siteOccupants.2 ⟨_, hvariant, a.subst (m.variant choice), ?_, path, hoccupant, rfl⟩
      rw [Formula.atoms_subst]
      exact List.mem_map_of_mem hatoms
    have hle : path.length ≤ compoundDepth F := path_length_le_compoundDepth hsite hfunctor
    omega

end Depth

/-! ## The second normalization -/

section Idempotence

variable {F : List (Formula Symbol)} {k m : Lexicon} {depth : Nat}

/-- The variants of a scheduled formula are the scheduled variants, unless an equality literal meets a variable
that may stand for function terms. -/
theorem specialize_scheduled {occupancy : Occupancy} {depth' : Nat} {φ : Formula Symbol}
    (hdepth : ∀ head body, φ = .rule head body → Clause.compoundVariables occupancy depth' ⟨head, body⟩ =
      Clause.compoundVariables occupancy depth ⟨head, body⟩)
    (hsafe : φ.scheduled.body.any Formula.isEquality = true →
      φ.scheduled.compoundVariables occupancy depth' = []) :
    φ.scheduled.specialize occupancy depth' m =
      (φ.specialize occupancy depth m).map (List.map Formula.scheduled) id := by
  cases φ with
  | atom a => rfl
  | neg ψ => rfl
  | disj φs => rfl
  | rule head body =>
    have hvariants := hdepth head body rfl
    cases hequality : body.any Formula.isEquality with
    | true =>
      -- the rule is its only variant, before and after scheduling
      have hscheduled : (schedule body).any Formula.isEquality = true := by
        rw [List.any_eq_true] at hequality ⊢
        obtain ⟨ψ, hψ, hψe⟩ := hequality
        exact ⟨ψ, mem_schedule.2 hψ, hψe⟩
      have hnone := hsafe hscheduled
      have hnone' : Clause.compoundVariables occupancy depth ⟨head, body⟩ = [] := by
        rw [← hvariants]
        exact compoundVariables_eq_nil_of_schedule hnone
      have hself : ∀ {c : Clause Symbol} {d}, c.compoundVariables occupancy d = [] →
          c.specialize occupancy d m = ([c], m) := by
        intro c d hc
        have hsubst := Formula.subst_var_id c.toFormula
        rw [Clause.toFormula, Formula.subst_rule] at hsubst
        obtain ⟨hhead, hbody⟩ := Formula.rule.inj hsubst
        rw [Clause.specialize_eq, Clause.optionSteps, hc]
        show ([c.subst .var], m) = ([c], m)
        rw [Clause.subst, hhead, hbody]
      rw [Formula.scheduled, Formula.specialize, Formula.specialize, hself hnone', hself hnone]
      rfl
    | false =>
      -- neither the rule nor any of its variants is changed by scheduling
      rw [Formula.scheduled, schedule_eq_self hequality, Formula.specialize, Formula.specialize,
        Clause.specialize_eq, Clause.specialize_eq, Clause.optionSteps, Clause.optionSteps, hvariants]
      simp only [Prod.map, id, List.map_map]
      refine Prod.ext (List.map_congr_left fun pairs _ => ?_) rfl
      have hbody : (body.map (Formula.subst (Term.ofPairs pairs))).any Formula.isEquality = false := by
        rw [List.any_map, ← hequality]
        exact congrArg _ (funext fun ψ => Formula.isEquality_subst _ ψ)
      simp only [Function.comp, Clause.toFormula, Clause.subst, Formula.scheduled]
      rw [schedule_eq_self hbody]

theorem specialize_map_scheduled (hk : k.Covers F) (h : specialize depth F k = (F, m))
    (hdepth : compoundDepth F ≤ depth) (hnodup : (F.map Formula.scheduled).Nodup)
    (hsafe : ∀ φ ∈ F.map Formula.scheduled, φ.body.any Formula.isEquality = true →
      φ.compoundVariables (.ofFormulas F) (compoundDepth F) = []) :
    specialize (compoundDepth (F.map Formula.scheduled)) (F.map Formula.scheduled) m =
      (F.map Formula.scheduled, m) := by
  have hoccupancy : Occupancy.ofFormulas (F.map Formula.scheduled) = .ofFormulas F := by
    rw [Occupancy.ofFormulas, Occupancy.ofFormulas, siteOccupants_scheduled]
  have hcompound : compoundDepth (F.map Formula.scheduled) = compoundDepth F := by
    rw [compoundDepth, compoundDepth, siteOccupants_scheduled]
  obtain ⟨hF, hsettled⟩ := specialize_settled hk h
  have heach : ∀ φ ∈ F, φ.scheduled.specialize (.ofFormulas F) (compoundDepth F) m =
      (φ.specialize (.ofFormulas F) depth m).map (List.map Formula.scheduled) id := by
    intro φ hφ
    refine specialize_scheduled (fun head body heq => ?_) (hsafe _ (List.mem_map_of_mem hφ))
    exact compoundVariables_of_fixed hk h hdepth (heq ▸ hφ)
  rw [specialize_of_settled]
  · refine Prod.ext ?_ rfl
    simp only [hoccupancy, hcompound, List.flatMap_map]
    calc distinct (F.flatMap fun φ => (φ.scheduled.specialize (.ofFormulas F) (compoundDepth F) m).1)
        = distinct ((F.flatMap fun φ => (φ.specialize (.ofFormulas F) depth m).1).map Formula.scheduled) := by
          rw [List.map_flatMap]
          refine congrArg distinct (List.flatMap_congr fun φ hφ => ?_)
          rw [heach φ hφ]
          rfl
      _ = (distinct (F.flatMap fun φ => (φ.specialize (.ofFormulas F) depth m).1)).map Formula.scheduled := by
          refine distinct_map fun φ hφ ψ hψ heq => ?_
          rw [← mem_distinct, ← hF] at hφ hψ
          exact List.inj_on_of_nodup_map hnodup hφ hψ heq
      _ = F.map Formula.scheduled := by rw [← hF]
  · intro φ hφ
    obtain ⟨ψ, hψ, rfl⟩ := List.mem_map.1 hφ
    rw [hoccupancy, hcompound, heach ψ hψ]
    exact hsettled ψ hψ

/-- Normalizing a normal form returns it, if scheduling made no two rules equal, no function stands deeper in it
than in the description, and no rule of it holds an equality literal together with a variable that may stand for
function terms. -/
theorem normalize_normalize {settings : Settings} {φs N : List (Formula Symbol)} {l l' : Lexicon}
    (hl : l.Covers φs) (h : normalize settings φs l = (.ok N, l')) (hnodup : N.Nodup)
    (hspecial : settings.specialize = true → compoundDepth N ≤ compoundDepth φs ∧
      ∀ φ ∈ N, φ.body.any Formula.isEquality = true →
        φ.compoundVariables (.ofFormulas N) (compoundDepth N) = []) :
    normalize settings N l' = (.ok N, l') := by
  obtain ⟨F, k, hk, hpass, rfl⟩ :=
    exists_fixed_of_normalizeLoop (P := fun φs l => l.Covers φs) covers_of_normalizePass hl h
  obtain ⟨htidy, hkept, -, hfixed⟩ := kept_of_fixed hk hpass
  have hsimplify : simplifyAll (F.map Formula.scheduled) = .ok (F.map Formula.scheduled) := by
    refine simplifyAll_eq_self ?_ ?_ hnodup
    · intro φ hφ
      obtain ⟨ψ, hψ, rfl⟩ := List.mem_map.1 hφ
      exact (htidy ψ hψ).scheduled
    · intro φ hφ
      obtain ⟨ψ, hψ, rfl⟩ := List.mem_map.1 hφ
      rw [hasForeignBase_scheduled]
      exact (hkept ψ hψ).scheduled
  have hspecialize : specializeTo
      (if settings.specialize then some (compoundDepth (F.map Formula.scheduled)) else none)
      (F.map Formula.scheduled) l' = (F.map Formula.scheduled, l') := by
    cases hset : settings.specialize with
    | false => rfl
    | true =>
      obtain ⟨hdepth, hsafe⟩ := hspecial hset
      rw [compoundDepth, siteOccupants_scheduled, ← compoundDepth] at hdepth
      rw [hset] at hfixed
      refine specialize_map_scheduled hk hfixed hdepth hnodup fun φ hφ hequality => ?_
      have hnone := hsafe φ hφ hequality
      rwa [compoundDepth, Occupancy.ofFormulas, siteOccupants_scheduled, ← compoundDepth,
        ← Occupancy.ofFormulas] at hnone
  have hpass' := normalizePass_eq_ok.2 ⟨_, hsimplify, hspecialize⟩
  have hscheduled : (F.map Formula.scheduled).map Formula.scheduled = F.map Formula.scheduled := by
    rw [List.map_map]
    exact List.map_congr_left fun φ _ => φ.scheduled_scheduled
  cases hpasses : settings.passes with
  | zero =>
    rw [normalize, hpasses] at h
    cases h
  | succ passes =>
    rw [normalize, hpasses, normalizeLoop]
    simp only [hpass', if_true, hscheduled]

/-- Names: relations, constants, a function and variables. -/
def relayNames : Lexicon :=
  .ofNames ["at", "seen", "pair", "spot", "far", "near", "lift", "x", "y"]

/-- What is at some place, near or lifted from near, is seen, and a spot other than far makes a pair with far. -/
def relay : List (Formula Symbol) :=
  let isAt (t : Term Symbol) : Formula Symbol := .atom ⟨⟨14⟩, [t]⟩
  let seen (t : Term Symbol) : Atom Symbol := ⟨⟨15⟩, [t]⟩
  let pair (s t : Term Symbol) : Atom Symbol := ⟨⟨16⟩, [s, t]⟩
  let spot (t : Term Symbol) : Formula Symbol := .atom ⟨⟨17⟩, [t]⟩
  let far : Term Symbol := .const ⟨18⟩
  let near : Term Symbol := .const ⟨19⟩
  let lift (t : Term Symbol) : Term Symbol := .app ⟨20⟩ [t]
  let x : Term Symbol := .var ⟨21⟩
  let y : Term Symbol := .var ⟨22⟩
  [isAt near, isAt (lift near), spot near, .rule (seen x) [isAt x],
    .rule (pair x y) [.neg (.atom ⟨Keyword.distinct, [y, far]⟩), .atom ⟨Keyword.distinct, [x, y]⟩, spot x]]

theorem normalize_normalize_relay : ∃ N l', relayNames.Covers relay ∧
    normalize .standard relay relayNames = (.ok N, l') ∧ N.Nodup ∧ N ≠ relay ∧
    normalize .standard N l' = (.ok N, l') := by
  have hrun : (match normalize .standard relay relayNames with
      | (.ok N, _) => decide (N.Nodup ∧ N ≠ relay ∧ compoundDepth N ≤ compoundDepth relay ∧
          ∀ φ ∈ N, φ.body.any Formula.isEquality = true →
            φ.compoundVariables (.ofFormulas N) (compoundDepth N) = [])
      | (.error _, _) => false) = true := by decide +kernel
  have hcovers : relayNames.Covers relay := by decide +kernel
  split at hrun
  · rename_i N l' hN
    obtain ⟨hnodup, hne, hspecial⟩ := of_decide_eq_true hrun
    exact ⟨N, l', hcovers, hN, hnodup, hne, normalize_normalize hcovers hN hnodup fun _ => hspecial⟩
  · cases hrun

/-- The rule that `p` holds of whatever `q` and `r` hold of, if these differ. -/
def apart (body : List (Formula Symbol) → Formula Symbol → List (Formula Symbol)) : Formula Symbol :=
  let p (s t : Term Symbol) : Atom Symbol := ⟨⟨14⟩, [s, t]⟩
  let q (t : Term Symbol) : Formula Symbol := .atom ⟨⟨15⟩, [t]⟩
  let r (t : Term Symbol) : Formula Symbol := .atom ⟨⟨16⟩, [t]⟩
  let x : Term Symbol := .var ⟨17⟩
  let y : Term Symbol := .var ⟨18⟩
  .rule (p x y) (body [q x, r y] (.atom ⟨Keyword.distinct, [x, y]⟩))

/-- Scheduling makes two rules equal that differ only in where an equality literal stands, and only a second
normalization drops one of them. -/
theorem normalize_normalize_twins :
    let l := Lexicon.ofNames ["p", "q", "r", "x", "y"]
    let late := apart fun conditions literal => conditions ++ [literal]
    let twins := [apart fun conditions literal => literal :: conditions, late]
    l.Covers twins ∧ ∃ l', normalize .standard twins l = (.ok [late, late], l') ∧
      (normalize .standard [late, late] l').1 = .ok [late] := by
  intro l late twins
  refine ⟨by decide +kernel, (normalize .standard twins l).2, Prod.ext ?_ rfl, ?_⟩
  · exact eq_ok_of_toOption (by decide +kernel)
  · exact eq_ok_of_toOption (by decide +kernel)

end Idempotence

end GameCircuit
