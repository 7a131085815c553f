import GameCircuit.Grounding.Saturation
import GameCircuit.Proofs.Loading
import Mathlib.Logic.Relation

/-!
# Firing rules

A plan fires for values of its variables just if the instance of each literal of its rule may hold
(`Database.plan_fires_iff`).  `Database.Move` says all that saturation can do to a database: fire a rule
for such values, start a round and count it.  Every invariant of saturation is proved for one move, and
`Moves` carries it to whole runs.
-/

namespace GameCircuit

/-! ## When a plan fires -/

namespace Step

/-- The step succeeds for the values `σ`, with a row before `stop` if it scans a table. -/
def HoldsUpTo (tables : Array Table) (stop : Table → Nat) (σ : Symbol → Symbol) : Step → Prop
  | scan table template => ∃ t row, tables[table]? = some t ∧ row < stop t ∧
      t.row? row = some (template.map (Slot.eval σ))
  | compare left right negated => (left.inst σ ≠ right.inst σ) ↔ negated = false

variable {tables : Array Table} {restricted : Option Nat} {σ : Symbol → Symbol} {i : Nat} {step : Step}

theorem HoldsAt.upTo_size (h : step.HoldsAt tables restricted σ i) :
    step.HoldsUpTo tables Table.size σ := by
  cases step with
  | compare left right negated => exact h
  | scan table template =>
    obtain ⟨t, row, ht, hrow, -⟩ := h
    exact ⟨t, row, ht, Table.row?_lt hrow, hrow⟩

theorem HoldsUpTo.holdsAt {stop : Table → Nat} (h : step.HoldsUpTo tables stop σ)
    (hi : restricted ≠ some i) : step.HoldsAt tables restricted σ i := by
  cases step with
  | compare left right negated => exact h
  | scan table template =>
    obtain ⟨t, row, ht, -, hrow⟩ := h
    exact ⟨t, row, ht, hrow, fun hr => absurd hr hi⟩

end Step

namespace Plan

variable {p : Plan} {tables tables' : Array Table} {restricted : Option Nat} {σ : Symbol → Symbol}

/-- All steps succeed for the values `σ`, with rows before `stop`. -/
def FiresUpTo (p : Plan) (tables : Array Table) (stop : Table → Nat) (σ : Symbol → Symbol) : Prop :=
  ∀ step ∈ p.steps, step.HoldsUpTo tables stop σ

theorem Fires.upTo_size (h : p.Fires tables restricted σ) : p.FiresUpTo tables Table.size σ := by
  intro step hstep
  obtain ⟨n, hn⟩ := List.mem_iff_getElem?.1 hstep
  exact (h (step, n) (List.mem_zipIdx_iff_getElem?.2 hn)).upTo_size

theorem FiresUpTo.fires {stop : Table → Nat} (h : p.FiresUpTo tables stop σ) :
    p.Fires tables none σ := by
  rintro ⟨step, n⟩ hstep
  have hmem : step ∈ p.steps := List.mem_of_getElem? (List.mem_zipIdx_iff_getElem?.1 hstep)
  exact (h step hmem).holdsAt (by simp)

/-- A table that grows keeps what a plan found in it. -/
theorem Fires.grows (htables : ∀ i : Nat, Option.Rel Table.Grows tables[i]? tables'[i]?)
    (h : p.Fires tables restricted σ) : p.Fires tables' restricted σ := by
  rintro ⟨step, n⟩ hstep
  have hn := h (step, n) hstep
  cases step with
  | compare left right negated => exact hn
  | scan table template =>
    obtain ⟨t, row, ht, hrow, hdelta⟩ := hn
    have hrel := htables table
    rw [ht] at hrel
    cases htable : tables'[table]? with
    | none =>
      rw [htable] at hrel
      cases hrel
    | some t' =>
      rw [htable] at hrel
      cases hrel with
      | some hgrows =>
        refine ⟨t', row, htable, hgrows.row? hrow, fun hr => ?_⟩
        rw [hgrows.settled, hgrows.frontier]
        exact hdelta hr

/-- A plan that fires among the rows up to the end of the delta fires among those before it, or with
one of its scans in the delta. -/
theorem FiresUpTo.settled_or_delta (h : p.FiresUpTo tables Table.frontier σ) :
    p.FiresUpTo tables Table.settled σ ∨ ∃ n i t, (n, i) ∈ p.scans ∧ tables[i]? = some t ∧
      t.hasDelta = true ∧ p.Fires tables (some n) σ := by
  by_cases hsettled : p.FiresUpTo tables Table.settled σ
  · exact .inl hsettled
  · obtain ⟨step, hstep, hnot⟩ : ∃ step ∈ p.steps, ¬ step.HoldsUpTo tables Table.settled σ := by
      simpa [FiresUpTo] using hsettled
    obtain ⟨n, hn⟩ := List.mem_iff_getElem?.1 hstep
    cases step with
    | compare left right negated => exact absurd (h _ hstep) hnot
    | scan i template =>
      obtain ⟨t, row, ht, hlt, hrow⟩ := h _ hstep
      have hle : t.settled ≤ row := by
        by_contra hcon
        exact hnot ⟨t, row, ht, Nat.lt_of_not_le hcon, hrow⟩
      refine .inr ⟨n, i, t, mem_scans_iff.2 ⟨template, hn⟩, ht, ?_, ?_⟩
      · exact decide_eq_true (Nat.lt_of_le_of_lt hle hlt)
      · rintro ⟨step, m⟩ hm
        have hm' : p.steps[m]? = some step := List.mem_zipIdx_iff_getElem?.1 hm
        by_cases hmn : m = n
        · subst hmn
          obtain rfl : step = .scan i template := Option.some.inj (hm'.symm.trans hn)
          exact ⟨t, row, ht, hrow, fun _ => ⟨hle, hlt⟩⟩
        · exact (h step (List.mem_of_getElem? hm')).holdsAt
            (fun heq => hmn (Option.some.inj heq).symm)

/-- Values in the order of the variables give each variable its own. -/
theorem lookup_valuation {x : Symbol} (hx : x ∈ p.vars) :
    (p.valuation (p.vars.map σ)).lookup x = some (σ x) := by
  rw [valuation]
  generalize p.vars = xs at hx ⊢
  induction xs with
  | nil => simp at hx
  | cons y ys ih =>
    rw [List.map_cons, List.zip_cons_cons, List.lookup_cons]
    by_cases hxy : x = y
    · simp [hxy]
    · rw [beq_false_of_ne hxy]
      exact ih ((List.mem_cons.1 hx).resolve_left hxy)

namespace Fits

variable {schemas : OrderedSet Schema} (h : p.Fits schemas)

include h

theorem mem_vars_iff {x : Symbol} :
    x ∈ p.vars ↔ x ∈ p.clause.head.vars ∨ ∃ φ ∈ p.clause.body, x ∈ φ.vars := by
  rw [h.vars, Clause.mem_vars_iff]

/-- The instance of the head is given by the values of the variables. -/
theorem head_inst_congr {τ : Symbol → Symbol} (heq : p.vars.map σ = p.vars.map τ) :
    p.clause.head.inst σ = p.clause.head.inst τ :=
  Atom.inst_congr fun _ hx => List.map_inj_left.1 heq _ (h.mem_vars_iff.2 (.inl hx))

/-- The tuple that a rule concludes is that of the instance of its head. -/
theorem produce_eq (σ : Symbol → Symbol) :
    p.produce (p.vars.map σ) = (p.clause.head.inst σ).constants := by
  have hslots : p.produce (p.vars.map σ) = p.production.filterMap fun slot => some (slot.eval σ) := by
    refine List.filterMap_congr fun slot hslot => ?_
    cases slot with
    | const c => rfl
    | var x =>
      rw [h.production, Atom.var_mem_slots_iff] at hslot
      exact lookup_valuation (h.mem_vars_iff.2 (.inl hslot))
  rw [hslots, Atom.constants_inst, ← h.production, List.filterMap_eq_map']

end Fits

end Plan

/-- The rule may fire for the values `σ`, when just the atoms of `D` may hold.  What is no literal is no
obstacle. -/
def Clause.MayFire (D : Set (Atom Symbol)) (σ : Symbol → Symbol) (c : Clause Symbol) : Prop :=
  ∀ φ ∈ c.body, φ.isSimpleLiteral = true → (φ.inst σ).MayHold D

theorem Clause.MayFire.mono {D E : Set (Atom Symbol)} {σ : Symbol → Symbol} {c : Clause Symbol} (h : D ⊆ E)
    (hc : c.MayFire D σ) : c.MayFire E σ :=
  fun φ hφ hsimple => (hc φ hφ hsimple).mono h

/-- What is compared are two terms. -/
theorem Atom.isComparable_iff {relation : Symbol} {args : List (Term Symbol)}
    (hd : relation = Keyword.distinct) :
    (⟨relation, args⟩ : Atom Symbol).isComparable = true ↔ ∃ s t, args = [s, t] := by
  simp [isComparable, hd, arity, List.length_eq_two]

namespace Database

variable {db db' : Database} {p : Plan} {σ : Symbol → Symbol} {stop : Table → Nat}

/-- The tuple of the atom's constants is in a row of its table before `stop`. -/
def HoldsUpTo (db : Database) (stop : Table → Nat) (a : Atom Symbol) : Prop :=
  ∃ i, db.schemas.position? a.schema = some i ∧ db.HasTupleUpTo stop i a.constants

theorem holdsUpTo_size {a : Atom Symbol} : db.HoldsUpTo Table.size a ↔ db.Holds a := by
  simp only [HoldsUpTo, hasTupleUpTo_size, holds_iff]

/-- A literal becomes a step that succeeds just if the literal may hold, and what always may hold or is no
literal becomes none. -/
theorem holdsUpTo_step?_iff {φ : Formula Symbol} (htable : φ.HasTable db.schemas) :
    (∀ step, φ.step? db.schemas = some step → step.HoldsUpTo db.tables stop σ) ↔
      (φ.isSimpleLiteral = true → (φ.inst σ).MayHold {a | db.HoldsUpTo stop a}) := by
  match φ, htable with
  | .atom ⟨relation, args⟩, htable =>
    by_cases hd : relation = Keyword.distinct
    · by_cases hargs : ∃ s t, args = [s, t]
      · obtain ⟨s, t, rfl⟩ := hargs
        simp [Formula.step?, hd, Step.HoldsUpTo, Formula.MayHold, Atom.TrueIn, Atom.Differs,
          Formula.isSimpleLiteral, Atom.isComparable, Atom.arity]
      · refine iff_of_true (fun step hstep => ?_) fun hsimple =>
          absurd ((Atom.isComparable_iff hd).1 hsimple) hargs
        rw [Formula.step?, if_pos hd] at hstep
        split at hstep
        · rename_i s t heq
          exact absurd ⟨s, t, heq⟩ hargs
        · cases hstep
    · obtain ⟨i, hi⟩ := htable hd
      have hmay : (Formula.inst σ (.atom ⟨relation, args⟩)).MayHold {a | db.HoldsUpTo stop a} ↔
          db.HoldsUpTo stop (Atom.inst σ ⟨relation, args⟩) := Atom.trueIn_of_ne_distinct hd
      have hsimple : Formula.isSimpleLiteral (.atom ⟨relation, args⟩) = true := by
        simp [Formula.isSimpleLiteral, Atom.isComparable, hd]
      rw [hmay, HoldsUpTo, Atom.schema_inst, Atom.constants_inst, Formula.step?, if_neg hd, hi]
      simp only [hsimple, Option.map_some, Option.some.injEq, forall_eq', exists_eq_left', forall_const]
      exact Iff.rfl
  | .neg (.atom ⟨relation, args⟩), _ =>
    by_cases hcompare : relation = Keyword.distinct ∧ ∃ s t, args = [s, t]
    · obtain ⟨hd, s, t, rfl⟩ := hcompare
      simp [Formula.step?, hd, Step.HoldsUpTo, Formula.MayHold, Atom.Differs, Formula.isSimpleLiteral,
        Atom.isComparable, Atom.arity]
    · refine iff_of_true (fun step hstep => ?_) fun hsimple hd =>
        absurd ⟨hd, (Atom.isComparable_iff hd).1 hsimple⟩ hcompare
      rw [Formula.step?] at hstep
      split at hstep
      · rename_i s t hargs
        split_ifs at hstep with hd
        exact absurd ⟨hd, s, t, hargs⟩ hcompare
      · cases hstep
  | .neg (.neg _), _ | .neg (.disj _), _ | .neg (.rule _ _), _ | .disj _, _ | .rule _ _, _ =>
    simp [Formula.step?, Formula.isSimpleLiteral]

/-- A plan fires for values, with rows before `stop`, just if its rule may on what is there. -/
theorem plan_firesUpTo_iff (hp : p.Fits db.schemas) :
    p.FiresUpTo db.tables stop σ ↔ p.clause.MayFire {a | db.HoldsUpTo stop a} σ := by
  have hsteps : p.FiresUpTo db.tables stop σ ↔ ∀ φ ∈ p.clause.body, ∀ step,
      φ.step? db.schemas = some step → step.HoldsUpTo db.tables stop σ := by
    rw [Plan.FiresUpTo, hp.steps]
    simp only [List.mem_filterMap]
    exact ⟨fun h φ hφ step hstep => h step ⟨φ, hφ, hstep⟩, fun h step ⟨φ, hφ, hstep⟩ => h φ hφ step hstep⟩
  rw [hsteps]
  exact forall_congr' fun φ => forall_congr' fun hφ => holdsUpTo_step?_iff (hp.hasTable φ hφ)

/-- A plan fires for values just if its rule may, on what holds. -/
theorem plan_fires_iff (hp : p.Fits db.schemas) :
    p.Fires db.tables none σ ↔ p.clause.MayFire {a | db.Holds a} σ := by
  have hiff : p.FiresUpTo db.tables Table.size σ ↔ _ := plan_firesUpTo_iff hp
  simp only [holdsUpTo_size] at hiff
  rw [← hiff]
  exact ⟨Plan.Fires.upTo_size, Plan.FiresUpTo.fires⟩

end Database

/-! ## What a firing changes -/

section Rel

variable {α β : Type} {R : α → β → Prop} {a : α} {b : β}

theorem exists_of_rel_some {o : Option β} (h : Option.Rel R (some a) o) : ∃ b, o = some b ∧ R a b := by
  cases h with
  | some h => exact ⟨_, rfl, h⟩

theorem exists_of_rel_some_right {o : Option α} (h : Option.Rel R o (some b)) :
    ∃ a, o = some a ∧ R a b := by
  cases h with
  | some h => exact ⟨_, rfl, h⟩

/-- What is the same for related elements is the same for arrays that are related place by place. -/
theorem map_eq_of_rel {γ : Type} {as : Array α} {bs : Array β} {f : α → γ} {g : β → γ}
    (h : ∀ i : Nat, Option.Rel R as[i]? bs[i]?) (hfg : ∀ {a b}, R a b → g b = f a) :
    bs.toList.map g = as.toList.map f := by
  refine List.ext_getElem? fun i => ?_
  rw [List.getElem?_map, List.getElem?_map, Array.getElem?_toList, Array.getElem?_toList]
  have hi := h i
  generalize as[i]? = o, bs[i]? = o' at hi
  cases hi with
  | none => rfl
  | some hR => exact congrArg some (hfg hR)

end Rel

/-- The same plan, for which more may have been found. -/
structure Plan.Grows (p p' : Plan) : Prop where
  eq : p' = { p with found := p'.found }
  found : p.found.toList ⊆ p'.found.toList

theorem Plan.Grows.clause {p p' : Plan} (h : p.Grows p') : p'.clause = p.clause := by
  rw [h.eq]

theorem Plan.Grows.vars {p p' : Plan} (h : p.Grows p') : p'.vars = p.vars := by
  rw [h.eq]

theorem Plan.Grows.fires_iff {p p' : Plan} (h : p.Grows p') {tables : Array Table}
    {restricted : Option Nat} {σ : Symbol → Symbol} :
    p'.Fires tables restricted σ ↔ p.Fires tables restricted σ := by
  rw [h.eq]
  exact Iff.rfl

namespace Database

variable {db db' : Database} {p : Plan} {σ : Symbol → Symbol} {rule : Nat} {values : List Symbol}

/-- What firing rules leaves alone, and what it may only add to. -/
structure Grows (db db' : Database) : Prop where
  limit : db'.limit = db.limit
  schemas : db'.schemas = db.schemas
  facts : db'.facts = db.facts
  rounds : db'.rounds = db.rounds
  tables : ∀ i : Nat, Option.Rel Table.Grows db.tables[i]? db'.tables[i]?
  plans : ∀ k : Nat, Option.Rel Plan.Grows db.plans[k]? db'.plans[k]?

namespace Grows

theorem refl (db : Database) : Grows db db :=
  ⟨rfl, rfl, rfl, rfl, fun i => by cases db.tables[i]? <;> constructor; exact Table.Grows.refl _,
    fun k => by cases db.plans[k]? <;> constructor; exact ⟨rfl, List.Subset.refl _⟩⟩

theorem trans {db1 db2 db3 : Database} (h1 : Grows db1 db2) (h2 : Grows db2 db3) : Grows db1 db3 where
  limit := h2.limit.trans h1.limit
  schemas := h2.schemas.trans h1.schemas
  facts := h2.facts.trans h1.facts
  rounds := h2.rounds.trans h1.rounds
  tables i := by
    have h1i := h1.tables i
    have h2i := h2.tables i
    generalize db1.tables[i]? = o1, db2.tables[i]? = o2, db3.tables[i]? = o3 at h1i h2i ⊢
    cases h1i with
    | none => exact h2i
    | some h =>
      cases h2i with
      | some h' => exact .some (h.trans h')
  plans k := by
    have h1k := h1.plans k
    have h2k := h2.plans k
    generalize db1.plans[k]? = o1, db2.plans[k]? = o2, db3.plans[k]? = o3 at h1k h2k ⊢
    cases h1k with
    | none => exact h2k
    | some h =>
      cases h2k with
      | some h' => exact .some ⟨by rw [h'.eq, h.eq], fun v hv => h'.found (h.found hv)⟩

theorem hasTuple (h : Grows db db') {i : Nat} {tuple : List Symbol} (htuple : db.HasTuple i tuple) :
    db'.HasTuple i tuple := by
  obtain ⟨t, ht, hmem⟩ := htuple
  obtain ⟨t', ht', hgrows⟩ := exists_of_rel_some (ht ▸ h.tables i)
  exact ⟨t', ht', hgrows.tuples.subset hmem⟩

theorem holds (h : Grows db db') {a : Atom Symbol} (ha : db.Holds a) : db'.Holds a := by
  obtain ⟨i, hi, htuple⟩ := holds_iff.1 ha
  exact holds_iff.2 ⟨i, by rw [h.schemas]; exact hi, h.hasTuple htuple⟩

theorem wellFormed (h : Grows db db') (hwf : db.WellFormed)
    (htables : ∀ {i : Nat} {t : Table}, db'.tables[i]? = some t → t.WellFormed) : db'.WellFormed where
  schemas := by
    rw [h.schemas, ← hwf.schemas]
    exact map_eq_of_rel h.tables Table.Grows.schema
  tables := htables
  plans hp := by
    obtain ⟨p, hp0, hgrows⟩ := exists_of_rel_some_right (hp ▸ h.plans _)
    obtain ⟨h1, h2, h3, h4, h5⟩ := hwf.plans hp0
    rw [hgrows.eq, h.schemas]
    exact ⟨h1, h2, h3, h4, h5⟩
  consumers hp i hi := by
    obtain ⟨p, hp0, hgrows⟩ := exists_of_rel_some_right (hp ▸ h.plans _)
    rw [hgrows.eq] at hi
    obtain ⟨t, ht, hmem⟩ := hwf.consumers hp0 i hi
    obtain ⟨t', ht', htgrows⟩ := exists_of_rel_some (ht ▸ h.tables i)
    exact ⟨t', ht', by rw [htgrows.consumers]; exact hmem⟩

end Grows

theorem grows_fire (rule : Nat) (db : Database) (values : List Symbol) :
    Grows db (fire rule db values).1 := by
  unfold fire
  split
  · exact Grows.refl db
  · rename_i p hp
    split_ifs with hfound
    · exact Grows.refl db
    · refine ⟨rfl, rfl, rfl, rfl, fun i => ?_, fun k => ?_⟩
      · show Option.Rel Table.Grows _ ((db.modifyTable p.target (·.insert (p.produce values))).tables[i]?)
        rw [getElem?_modifyTable]
        cases db.tables[i]? with
        | none => split_ifs <;> exact .none
        | some t =>
          split_ifs
          · exact .some (Table.grows_insert t _)
          · exact .some (Table.Grows.refl t)
      · show Option.Rel Plan.Grows _ ((db.plans.modify rule (·.record values))[k]?)
        rw [Array.getElem?_modify]
        cases db.plans[k]? with
        | none => split_ifs <;> exact .none
        | some q =>
          split_ifs
          · exact .some ⟨rfl, fun v hv => OrderedSet.mem_toList_insert.2 (.inl hv)⟩
          · exact .some ⟨rfl, List.Subset.refl _⟩

/-- Firing a rule for values records them. -/
theorem found_fire (values : List Symbol) (hp : db.plans[rule]? = some p) :
    ∃ p', (fire rule db values).1.plans[rule]? = some p' ∧ values ∈ p'.found.toList := by
  rw [fire, hp]
  by_cases hfound : p.found.contains values = true
  · exact ⟨p, by simp [hfound, hp], OrderedSet.contains_iff.1 hfound⟩
  · refine ⟨p.record values, ?_, OrderedSet.mem_toList_insert.2 (.inr rfl)⟩
    simp only [hfound]
    show (db.plans.modify rule (·.record values))[rule]? = _
    rw [Array.getElem?_modify, if_pos rfl, hp]
    rfl

/-- A firing inserts the tuple of the instance of its head, and no other. -/
theorem hasTuple_of_fire (hwf : db.WellFormed) (hp : db.plans[rule]? = some p) {i : Nat}
    {tuple : List Symbol} (h : (fire rule db (p.vars.map σ)).1.HasTuple i tuple) :
    db.HasTuple i tuple ∨ tuple = (p.clause.head.inst σ).constants := by
  have hfits := hwf.plans hp
  rw [fire, hp] at h
  by_cases hfound : p.found.contains (p.vars.map σ) = true
  · simp only [hfound, if_true] at h
    exact .inl h
  · simp only [hfound] at h
    obtain ⟨t, ht, -⟩ := hwf.position?_iff.1 hfits.target
    rcases (hasTuple_insert (Array.getElem?_eq_some_iff.1 ht).1).1 h with hold | ⟨-, hnew⟩
    · exact .inl hold
    · exact .inr (hnew.trans (hfits.produce_eq σ))

/-- Nothing else is recorded. -/
theorem mem_found_fire {k : Nat} {q : Plan} (hq : (fire rule db values).1.plans[k]? = some q)
    {others : List Symbol} (h : others ∈ q.found.toList) :
    (∃ q0, db.plans[k]? = some q0 ∧ others ∈ q0.found.toList) ∨ k = rule ∧ others = values := by
  unfold fire at hq
  split at hq
  · exact .inl ⟨q, hq, h⟩
  · rename_i p hp
    split_ifs at hq
    · exact .inl ⟨q, hq, h⟩
    · have hq' : (db.plans.modify rule (·.record values))[k]? = some q := hq
      rw [Array.getElem?_modify] at hq'
      split_ifs at hq' with hk
      · obtain ⟨q0, hq0, rfl⟩ := Option.map_eq_some_iff.1 hq'
        rcases OrderedSet.mem_toList_insert.1 h with hold | hnew
        · exact .inl ⟨q0, hq0, hold⟩
        · exact .inr ⟨hk.symm, hnew⟩
      · exact .inl ⟨q, hq', h⟩

/-! ## Invariants -/

/-- The parts of the database fit, and what was found is what the rules conclude. -/
structure Sound (db : Database) : Prop where
  wellFormed : db.WellFormed
  found : ∀ {k : Nat} {p : Plan}, db.plans[k]? = some p → ∀ values ∈ p.found.toList,
    ∃ σ, values = p.vars.map σ ∧ p.Fires db.tables none σ ∧ db.Holds (p.clause.head.inst σ)

/-- The atom that a rule concludes holds from then on, and what shares its tuple. -/
theorem Sound.holds_fire (h : db.Sound) (hp : db.plans[rule]? = some p) {b : Atom Symbol}
    (hb : b.isGround = true) :
    (fire rule db (p.vars.map σ)).1.Holds b ↔
      db.Holds b ∨ (p.clause.head.inst σ).canonical = b.canonical := by
  have hfits := h.wellFormed.plans hp
  rw [fire, hp]
  by_cases hfound : p.found.contains (p.vars.map σ) = true
  · obtain ⟨τ, hτ, -, hholds⟩ := h.found hp _ (OrderedSet.contains_iff.1 hfound)
    rw [← hfits.head_inst_congr hτ, ← holds_canonical] at hholds
    simp only [hfound, if_true]
    refine ⟨.inl, fun hor => hor.elim id fun heq => ?_⟩
    rw [heq, holds_canonical] at hholds
    exact hholds
  · have hinsert := holds_insert h.wellFormed (b := b) (Atom.isGround_inst (a := p.clause.head) (σ := σ))
      hb (by rw [Atom.schema_inst]; exact hfits.target)
    rw [← hfits.produce_eq] at hinsert
    simp only [hfound]
    exact hinsert

theorem Sound.fire (h : db.Sound) (hp : db.plans[rule]? = some p)
    (hfires : p.Fires db.tables none σ) : (fire rule db (p.vars.map σ)).1.Sound := by
  have hgrows := grows_fire rule db (p.vars.map σ)
  refine ⟨hgrows.wellFormed h.wellFormed ?_, fun hq values hvalues => ?_⟩
  · rw [Database.fire, hp]
    by_cases hfound : p.found.contains (p.vars.map σ) = true
    · simp only [hfound, if_true]
      exact h.wellFormed.tables
    · simp only [hfound]
      have hfits := h.wellFormed.plans hp
      refine (h.wellFormed.insert hfits.target ?_).tables
      rw [hfits.produce_eq, Atom.length_constants Atom.isGround_inst, Atom.schema_inst]
  · obtain ⟨q0, hq0, hq0q⟩ := exists_of_rel_some_right (hq ▸ hgrows.plans _)
    rw [hq0q.clause, hq0q.vars]
    rcases mem_found_fire hq hvalues with ⟨q1, hq1, hold⟩ | ⟨rfl, rfl⟩
    · obtain rfl : q0 = q1 := Option.some.inj (hq0.symm.trans hq1)
      obtain ⟨τ, rfl, hτ, hholds⟩ := h.found hq0 values hold
      exact ⟨τ, rfl, hq0q.fires_iff.2 (hτ.grows hgrows.tables), hgrows.holds hholds⟩
    · obtain rfl : q0 = p := Option.some.inj (hq0.symm.trans hp)
      exact ⟨σ, rfl, hq0q.fires_iff.2 (hfires.grows hgrows.tables),
        (h.holds_fire hp Atom.isGround_inst).2 (.inr rfl)⟩

/-! ## Runs -/

/-- The constant stands in some tuple. -/
def Mentions (db : Database) (c : Symbol) : Prop := ∃ i tuple, db.HasTuple i tuple ∧ c ∈ tuple

/-- A rule is fired for values, made of constants in the tables, for which its plan fires. -/
inductive Firing (db : Database) : Database → Prop
  | intro {rule : Nat} {p : Plan} {σ : Symbol → Symbol} (hp : db.plans[rule]? = some p)
    (hfires : p.Fires db.tables none σ) (hmentions : ∀ x ∈ p.vars, db.Mentions (σ x)) :
    Firing db (fire rule db (p.vars.map σ)).1

/-- All that saturation does to a database. -/
inductive Move (db : Database) : Database → Prop
  | firing {db' : Database} (h : Firing db db') : Move db db'
  | advance : Move db db.advance
  | count : Move db { db with rounds := db.rounds + 1 }

/-- Any number of firings. -/
abbrev Firings : Database → Database → Prop := Relation.ReflTransGen Firing

/-- Any number of moves. -/
abbrev Moves : Database → Database → Prop := Relation.ReflTransGen Move

theorem Firings.moves (h : Firings db db') : Moves db db' := by
  induction h with
  | refl => exact .refl
  | tail _ hstep ih => exact ih.tail (.firing hstep)

theorem Firings.grows (h : Firings db db') : Grows db db' := by
  induction h with
  | refl => exact Grows.refl db
  | tail _ hstep ih =>
    cases hstep with
    | intro hp hfires hmentions => exact ih.trans (grows_fire _ _ _)

/-- What a join finds can be fired. -/
theorem instances_sound {found : List (List Symbol)} (h : db.instances p = .ok found)
    (hwf : db.WellFormed) (hvalues : values ∈ found) :
    ∃ σ, values = p.vars.map σ ∧ p.Fires db.tables none σ ∧ ∀ x ∈ p.vars, db.Mentions (σ x) := by
  have hjoin : ∃ restricted found, p.join db.tables restricted = .ok found ∧ values ∈ found := by
    unfold instances at h
    split_ifs at h
    · exact ⟨none, found, h, hvalues⟩
    · obtain ⟨⟨n, i⟩, -, found', hfound', hmem⟩ := (mem_of_collect h).1 hvalues
      exact ⟨some n, found', hfound', hmem⟩
  obtain ⟨restricted, found', hfound', hmem⟩ := hjoin
  obtain ⟨σ, rfl, hσ⟩ := (Plan.mem_join_iff hwf.of_mem_tables hfound').1 hmem
  refine ⟨σ, rfl, hσ.upTo_size.fires, fun x hx => ?_⟩
  refine Plan.join_constants (Q := db.Mentions) (fun t ht tuple htuple c hc => ?_) hfound' hmem (σ x)
    (List.mem_map_of_mem hx)
  obtain ⟨i, hi⟩ := Array.mem_iff_getElem?.1 ht
  exact ⟨i, tuple, ⟨t, hi, htuple⟩, hc⟩

/-- What can be fired can be fired later, too. -/
theorem Grows.canFire {p' : Plan} (h : Grows db db') (hp : db.plans[rule]? = some p) (hp' : db'.plans[rule]? = some p')
    (hvalues : ∃ σ, values = p.vars.map σ ∧ p.Fires db.tables none σ ∧ ∀ x ∈ p.vars, db.Mentions (σ x)) :
    ∃ σ, values = p'.vars.map σ ∧ p'.Fires db'.tables none σ ∧ ∀ x ∈ p'.vars, db'.Mentions (σ x) := by
  obtain ⟨σ, rfl, hfires, hmentions⟩ := hvalues
  obtain ⟨p1, hp1, hpp1⟩ := exists_of_rel_some (hp ▸ h.plans rule)
  obtain rfl : p' = p1 := Option.some.inj (hp'.symm.trans hp1)
  rw [hpp1.vars]
  refine ⟨σ, rfl, hpp1.fires_iff.2 (hfires.grows h.tables), fun x hx => ?_⟩
  obtain ⟨i, tuple, htuple, hc⟩ := hmentions x hx
  exact ⟨i, tuple, h.hasTuple htuple, hc⟩

/-- Firing a rule for values that were found before is a run of firings, which records them all. -/
theorem firings_runAll {found : List (List Symbol)} (hp : db.plans[rule]? = some p)
    (hfound : ∀ values ∈ found, ∃ σ, values = p.vars.map σ ∧ p.Fires db.tables none σ ∧
      ∀ x ∈ p.vars, db.Mentions (σ x)) :
    Firings db (runAll (fire rule) db found).1 ∧ ((runAll (fire rule) db found).2 = none →
      ∀ values ∈ found, ∃ p', (runAll (fire rule) db found).1.plans[rule]? = some p' ∧
        values ∈ p'.found.toList) := by
  induction found generalizing db p with
  | nil => exact ⟨.refl, by simp⟩
  | cons values found ih =>
    obtain ⟨⟨σ, rfl, hfires, hmentions⟩, hrest⟩ := List.forall_mem_cons.1 hfound
    have hfiring : Firing db (fire rule db (p.vars.map σ)).1 := .intro hp hfires hmentions
    have hgrows := grows_fire rule db (p.vars.map σ)
    obtain ⟨p1, hp1, hmem⟩ := found_fire (p.vars.map σ) hp
    rw [runAll]
    rcases hstep : fire rule db (p.vars.map σ) with ⟨db1, _ | e⟩
    · rw [hstep] at hfiring hgrows hp1
      obtain ⟨hfirings, hall⟩ := ih hp1 fun values hvalues => hgrows.canFire hp hp1 (hrest values hvalues)
      refine ⟨.head hfiring hfirings, fun hok => List.forall_mem_cons.2 ⟨?_, hall hok⟩⟩
      obtain ⟨p2, hp2, hp12⟩ := exists_of_rel_some (hp1 ▸ hfirings.grows.plans rule)
      exact ⟨p2, hp2, hp12.found hmem⟩
    · rw [hstep] at hfiring
      exact ⟨.single hfiring, by simp⟩

theorem firings_fireAll (hwf : db.WellFormed) (rule : Nat) : Firings db (fireAll db rule).1 := by
  unfold fireAll
  split
  · exact .refl
  · rename_i p hp
    split
    · exact .refl
    · rename_i found hfound
      exact (firings_runAll hp fun _ hvalues => instances_sound hfound hwf hvalues).1

/-! ## Starting a round -/

theorem getElem?_advance (i : Nat) : db.advance.tables[i]? = db.tables[i]?.map Table.advance := by
  simp [advance]

theorem hasTuple_advance {i : Nat} {tuple : List Symbol} :
    db.advance.HasTuple i tuple ↔ db.HasTuple i tuple := by
  simp only [HasTuple, getElem?_advance, Option.map_eq_some_iff]
  constructor
  · rintro ⟨_, ⟨t, ht, rfl⟩, hmem⟩
    exact ⟨t, ht, hmem⟩
  · rintro ⟨t, ht, hmem⟩
    exact ⟨t.advance, ⟨t, ht, rfl⟩, hmem⟩

theorem holds_advance {a : Atom Symbol} : db.advance.Holds a ↔ db.Holds a := by
  simp only [holds_iff, hasTuple_advance]
  rfl

theorem WellFormed.advance (h : db.WellFormed) : db.advance.WellFormed where
  schemas := by
    rw [← show db.schemas.toList = db.advance.schemas.toList from rfl, ← h.schemas]
    simp only [Database.advance, List.map_map]
    rfl
  tables ht := by
    rw [getElem?_advance] at ht
    obtain ⟨t, ht', rfl⟩ := Option.map_eq_some_iff.1 ht
    exact (h.tables ht').advance
  plans := h.plans
  consumers hp i hi := by
    obtain ⟨t, ht, hmem⟩ := h.consumers hp i hi
    exact ⟨t.advance, by rw [getElem?_advance, ht]; rfl, hmem⟩

theorem Sound.advance (h : db.Sound) : db.advance.Sound where
  wellFormed := h.wellFormed.advance
  found hp values hvalues := by
    obtain ⟨σ, rfl, hfires, hholds⟩ := h.found hp values hvalues
    have hfits := h.wellFormed.plans hp
    refine ⟨σ, rfl, ?_, holds_advance.2 hholds⟩
    rw [plan_fires_iff (h.wellFormed.advance.plans hp)]
    simp only [holds_advance]
    exact (plan_fires_iff hfits).1 hfires

theorem Sound.count (h : db.Sound) : Sound { db with rounds := db.rounds + 1 } :=
  ⟨⟨h.wellFormed.schemas, h.wellFormed.tables, h.wellFormed.plans, h.wellFormed.consumers⟩, h.found⟩

theorem Firing.sound (h : Firing db db') (hs : db.Sound) : db'.Sound := by
  cases h with
  | intro hp hfires hmentions => exact hs.fire hp hfires

theorem Move.sound (h : Move db db') (hs : db.Sound) : db'.Sound := by
  cases h with
  | firing h => exact h.sound hs
  | advance => exact hs.advance
  | count => exact hs.count

theorem Moves.sound (h : Moves db db') (hs : db.Sound) : db'.Sound := by
  induction h with
  | refl => exact hs
  | tail _ hmove ih => exact hmove.sound ih

/-- Firing all rules of a list is a run of firings. -/
theorem firings_runAll_fireAll (h : db.Sound) (rules : List Nat) :
    Firings db (runAll fireAll db rules).1 := by
  refine runAll_induction (P := fun db' => Firings db db') (fun db' rule _ hdb' => ?_) .refl
  exact hdb'.trans (firings_fireAll (hdb'.moves.sound h).wellFormed rule)

/-! ## What stays, and what is reached -/

theorem Grows.clauses (h : Grows db db') :
    db'.plans.toList.map Plan.clause = db.plans.toList.map Plan.clause :=
  map_eq_of_rel h.plans Plan.Grows.clause

/-- No move changes the schemas, the facts or the rules. -/
theorem Moves.keeps (h : Moves db db') : db'.schemas = db.schemas ∧ db'.facts = db.facts ∧
    db'.plans.toList.map Plan.clause = db.plans.toList.map Plan.clause := by
  induction h with
  | refl => exact ⟨rfl, rfl, rfl⟩
  | tail _ hmove ih =>
    cases hmove with
    | firing hfiring =>
      have hgrows := Firings.grows (.single hfiring)
      exact ⟨hgrows.schemas.trans ih.1, hgrows.facts.trans ih.2.1, hgrows.clauses.trans ih.2.2⟩
    | advance => exact ih
    | count => exact ih

/-- What holds goes on to hold. -/
theorem Moves.holds (h : Moves db db') {a : Atom Symbol} (ha : db.Holds a) : db'.Holds a := by
  induction h with
  | refl => exact ha
  | tail _ hmove ih =>
    cases hmove with
    | firing hfiring => exact (Firings.grows (.single hfiring)).holds ih
    | advance => exact holds_advance.2 ih
    | count => exact ih

/-- The rules of a database are those it was loaded with. -/
theorem Moves.clause_mem (h : Moves db db') (hp : db'.plans[rule]? = some p) :
    p.clause ∈ db.plans.toList.map Plan.clause := by
  rw [← h.keeps.2.2]
  exact List.mem_map_of_mem (Array.mem_toList_iff.2 (Array.mem_of_getElem? hp))

end Database

/-- `M` is closed under the instances of the clause, when only its atoms may hold. -/
def Clause.Respects (M : Set (Atom Symbol)) (c : Clause Symbol) : Prop :=
  ∀ σ, c.MayFire {a | a.canonical ∈ M} σ → (c.head.inst σ).canonical ∈ M

namespace Database

variable {db db' : Database}

/-- A set that is closed under the rules holds what is reached from atoms in it. -/
theorem Moves.within {M : Set (Atom Symbol)} (h : Moves db db') (hs : db.Sound)
    (hM : ∀ c ∈ db.plans.toList.map Plan.clause, c.Respects M)
    (hdb : ∀ a, db.Holds a → a.canonical ∈ M) : ∀ a, db'.Holds a → a.canonical ∈ M := by
  induction h with
  | refl => exact hdb
  | @tail db1 db2 hmoves hmove ih =>
    have hs1 := Moves.sound hmoves hs
    cases hmove with
    | firing hfiring =>
      intro a ha
      have hground := (hfiring.sound hs1).wellFormed.isGround_of_holds ha
      cases hfiring with
      | @intro rule p σ hp hfires hmentions =>
        rcases (hs1.holds_fire hp hground).1 ha with ha1 | heq
        · exact ih a ha1
        · rw [← heq]
          refine hM _ (Moves.clause_mem hmoves hp) σ ?_
          exact ((plan_fires_iff (hs1.wellFormed.plans hp)).1 hfires).mono ih
    | advance => exact fun a ha => ih a (holds_advance.1 ha)
    | count => exact ih

/-- A list of constants that holds those in the tables and in the heads of the rules holds those that
come to stand in the tables. -/
theorem Moves.over {K : List Symbol} (h : Moves db db') (hs : db.Sound)
    (hK : ∀ c ∈ db.plans.toList.map Plan.clause, ∀ d, .const d ∈ c.head.slots → d ∈ K)
    (hdb : ∀ d, db.Mentions d → d ∈ K) : ∀ d, db'.Mentions d → d ∈ K := by
  induction h with
  | refl => exact hdb
  | @tail db1 db2 hmoves hmove ih =>
    have hs1 := Moves.sound hmoves hs
    cases hmove with
    | firing hfiring =>
      cases hfiring with
      | @intro rule p σ hp hfires hmentions =>
        rintro d ⟨i, tuple, htuple, hd⟩
        have hfits := hs1.wellFormed.plans hp
        rcases hasTuple_of_fire hs1.wellFormed hp htuple with hold | rfl
        · exact ih d ⟨i, tuple, hold, hd⟩
        · rw [Atom.constants_inst] at hd
          obtain ⟨slot, hslot, rfl⟩ := List.mem_map.1 hd
          cases slot with
          | const c => exact hK _ (Moves.clause_mem hmoves hp) c hslot
          | var x =>
            exact ih _ (hmentions x (hfits.mem_vars_iff.2 (.inl (Atom.var_mem_slots_iff.1 hslot))))
    | advance =>
      rintro d ⟨i, tuple, htuple, hd⟩
      exact ih d ⟨i, tuple, hasTuple_advance.1 htuple, hd⟩
    | count => exact ih

end Database

end GameCircuit
