import GameCircuit.Proofs.NestedLoops

/-!
# Consistent indices

The parts of a database point at each other: columns at rows, schemas at tables, steps and rules at tables, slots at
variables, tables at rules.  After every history all of them point at what they should (`Database.Consistent`).  So no
operation ever meets an index that points nowhere.  That is said of operations that check: `Database.performChecked`
does what `Database.perform` does, but gives nothing as soon as it has to follow an index that is out of bounds, where
the other goes on regardless.  The two agree (`Database.consistent_after`).
-/

namespace GameCircuit

/-! ## What is consistent -/

/-- The columns of a table list where its constants stand, and the delta is a range of its rows. -/
structure Table.Consistent (t : Table) : Prop where
  nodup : t.tuples.toList.Nodup
  length_tuple : ∀ tuple ∈ t.tuples.toList, tuple.length = t.schema.arity
  length_columns : t.columns.length = t.schema.arity
  ascending : ∀ place c, (t.matching place c).toList.Pairwise (· < ·)
  mem_matching_iff : ∀ place c row, row ∈ (t.matching place c).toList ↔
    ∃ tuple, t.row? row = some tuple ∧ tuple[place]? = some c
  settled_le : t.settled ≤ t.frontier
  frontier_le : t.frontier ≤ t.size

/-- There is the table, the template has a slot for each of its places, and its variables are among `vars`. -/
def TemplateFits (tables : Array Table) (vars : List Symbol) (table : Nat) (template : List Slot) : Prop :=
  ∃ t, tables[table]? = some t ∧ template.length = t.schema.arity ∧ ∀ x, .var x ∈ template → x ∈ vars

/-- The templates of a plan fit the tables, and its values the variables. -/
structure Plan.Consistent (tables : Array Table) (p : Plan) : Prop where
  scans : ∀ table template, .scan table template ∈ p.steps → TemplateFits tables p.vars table template
  production : TemplateFits tables p.vars p.target p.production
  found : ∀ values ∈ p.found.toList, values.length = p.vars.length

/-- Whatever points at a part of the database points at the right one. -/
structure Database.Consistent (db : Database) : Prop where
  tables : ∀ (i : Nat) (t : Table), db.tables[i]? = some t → t.Consistent
  numbers : ∀ schema i, db.tableNumber? schema = some i ↔ ∃ t, db.tables[i]? = some t ∧ t.schema = schema
  plans : ∀ (k : Nat) (p : Plan), db.plans[k]? = some p → p.Consistent db.tables
  rules : db.RulesBelow db.plans.size

theorem Table.WellFormed.consistent {t : Table} (h : t.WellFormed) : t.Consistent where
  nodup := OrderedSet.nodup_toList _
  length_tuple := h.length_tuple
  length_columns := h.length_columns
  ascending place c := by
    rw [h.matching_eq]
    exact List.pairwise_lt_range.filter _
  mem_matching_iff place c row := by
    rw [Table.mem_matching_iff h, Table.constantAt?, Option.bind_eq_some_iff]
    refine ⟨fun hrow => hrow.2, ?_⟩
    rintro ⟨tuple, hrow, hc⟩
    exact ⟨Table.row?_lt hrow, tuple, hrow, hc⟩
  settled_le := h.settled_le
  frontier_le := h.frontier_le

namespace Database

variable {db : Database} {p : Plan} {rule : Nat}

theorem WellFormed.production_fits (hwf : db.WellFormed) (hp : db.plans[rule]? = some p) :
    TemplateFits db.tables p.vars p.target p.production := by
  have hfits := hwf.plans hp
  obtain ⟨t, ht, hschema⟩ := hwf.position?_iff.1 hfits.target
  refine ⟨t, ht, by rw [hfits.production, hschema, Atom.length_slots], fun x hx => ?_⟩
  rw [hfits.production] at hx
  exact hfits.mem_vars_iff.2 (.inl (Atom.var_mem_slots_iff.1 hx))

theorem Intact.consistent (h : db.Intact) : db.Consistent where
  tables _ _ ht := (h.sound.wellFormed.tables ht).consistent
  numbers _ _ := h.sound.wellFormed.position?_iff
  plans _ p hp := by
    refine ⟨fun table template hscan => ?_, h.sound.wellFormed.production_fits hp, fun values hvalues => ?_⟩
    · obtain ⟨t, ht, -, hfits⟩ := h.sound.wellFormed.exists_table_of_scan hp hscan
      exact ⟨t, ht, hfits⟩
    · obtain ⟨σ, rfl, -⟩ := h.sound.found hp values hvalues
      exact List.length_map _
  rules := h.rules

end Database

/-! ## Operations that check -/

/-- Runs the step on each element as `runAll` does. -/
def runAllChecked {σ α ε : Type} (step : σ → α → Option (σ × Option ε)) (s : σ) : List α → Option (σ × Option ε)
  | [] => some (s, none)
  | a :: as =>
    match step s a with
    | some (s, none) => runAllChecked step s as
    | some (s, some e) => some (s, some e)
    | none => none

/-- There is the table that the step scans, with a column for each slot, and its variables are among
`vars`. -/
def Step.isWithin (tables : Array Table) (vars : List Symbol) : Step → Bool
  | scan table template =>
    match tables[table]? with
    | some t => decide (template.length = t.columns.length) && template.all fun
      | .const _ => true
      | .var x => vars.contains x
    | none => false
  | compare _ _ _ => true

/-- The tuple that the rule concludes, for which each of its variables needs a value. -/
def Plan.produceChecked (p : Plan) (values : List Symbol) : Option (List Symbol) :=
  p.production.mapM (Slot.value? (p.valuation values))

namespace Database

/-- Changes a table, which has to be there. -/
def modifyTableChecked (db : Database) (table : Nat) (f : Table → Table) : Option Database :=
  if table < db.tables.size then some (db.modifyTable table f) else none

/-- Adds a tuple to a table, which has to be there and have a column for each constant. -/
def insertChecked (db : Database) (table : Nat) (tuple : List Symbol) : Option (Database × Option CompileError) :=
  match db.tables[table]? with
  | some t => if tuple.length = t.columns.length then some (db.insert table tuple) else none
  | none => none

/-- Adds a rule as `addRule` does. -/
def addRuleChecked (db : Database) (c : Clause Symbol) : Option Database :=
  let (steps, db) := db.stepsFor c.body
  let (target, db) := db.tableFor c.head
  let plan : Plan := ⟨c, c.vars, steps, target, c.head.slots, .empty⟩
  let number := db.plans.size
  do
    let db ← db.modifyTableChecked target fun t => { t with producers := t.producers.push number }
    let db ← plan.sources.foldlM (fun db table =>
      db.modifyTableChecked table fun t => { t with consumers := t.consumers.push number }) db
    return { db with plans := db.plans.push plan }

/-- Adds a formula as `loadFormula` does. -/
def loadFormulaChecked (db : Database) : Formula Symbol → Option (Database × Option CompileError)
  | .atom a =>
    if a.isGround then
      let (table, db) := db.tableFor a
      match db.insertChecked table a.constants with
      | some (db, none) => some ({ db with facts := db.facts.insert a }, none)
      | some (db, some e) => some (db, some e)
      | none => none
    else (db.addRuleChecked ⟨a, []⟩).map (·, none)
  | .rule head body =>
    ((splitDisjunctions body).foldlM (fun db body => addRuleChecked db ⟨head, schedule body⟩) db).map (·, none)
  | .neg _ | .disj _ => some (db, some (.unsupportedLiteral Keyword.anonymous))

/-- Adds formulas as `load` does. -/
def loadChecked (db : Database) (φs : List (Formula Symbol)) : Option (Database × Option CompileError) :=
  runAllChecked loadFormulaChecked db φs

/-- The rules to look at in this round. -/
def pendingChecked (db : Database) : Option (List Nat) :=
  if db.rounds = 0 then some (List.range db.plans.size)
  else (db.changed.mapM fun i => db.tables[i]?.map fun t => t.consumers.toList).map fun rules => distinct rules.flatten

/-- Fires a rule, which has to be there, for the values of its variables. -/
def fireChecked (rule : Nat) (db : Database) (values : List Symbol) : Option (Database × Option CompileError) :=
  match db.plans[rule]? with
  | none => none
  | some p =>
    match p.produceChecked values with
    | none => none
    | some tuple =>
      if p.found.contains values then some (db, none)
      else insertChecked { db with plans := db.plans.modify rule (·.record values) } p.target tuple

/-- Fires a rule, which has to be there, for all values that it has in this round. -/
def fireAllChecked (db : Database) (rule : Nat) : Option (Database × Option CompileError) :=
  match db.plans[rule]? with
  | none => none
  | some p =>
    if p.steps.all (Step.isWithin db.tables p.vars) then
      match db.instances p with
      | .error e => some (db, some e)
      | .ok found => runAllChecked (fireChecked rule) db found
    else none

/-- Runs up to `fuel` rounds. -/
def saturateUpToChecked : (fuel : Nat) → Database → Option (Database × Option CompileError)
  | 0, db => some (db, none)
  | fuel + 1, db =>
    match db.advance.pendingChecked with
    | none => none
    | some [] => some (db.advance, none)
    | some rules =>
      match runAllChecked fireAllChecked db.advance rules with
      | some (db, some e) => some (db, some e)
      | some (db, none) => saturateUpToChecked fuel { db with rounds := db.rounds + 1 }
      | none => none

/-- Fires the rules until no table grows. -/
def saturateChecked (db : Database) : Option (Database × Option CompileError) :=
  saturateUpToChecked (db.capacity + 2) db

/-- Does the operation, and gives nothing if an index on the way is out of bounds. -/
def performChecked (db : Database) : Operation → Option (Database × Option CompileError)
  | .load φs => db.loadChecked φs
  | .saturate => db.saturateChecked
  | .ground φs =>
    match db.loadChecked φs with
    | some (db, none) =>
      match db.saturateChecked with
      | some (db, none) => some (db, failure? db.emit)
      | some (db, some e) => some (db, some e)
      | none => none
    | some (db, some e) => some (db, some e)
    | none => none
  | .emit => some (db, failure? db.emit)

/-! ## No check fails -/

variable {db : Database} {p : Plan} {rule : Nat}

/-- The computation that checks does what the other does, and this finds no index inconsistent. -/
structure Agrees (checked : Option (Database × Option CompileError)) (plain : Database × Option CompileError) :
    Prop where
  eq : checked = some plain
  error : ∀ relation, plain.2 ≠ some (.inconsistentIndex relation)

theorem Agrees.done (db : Database) : Agrees (some (db, none)) (db, none) :=
  ⟨rfl, fun _ herror => by cases herror⟩

/-- Steps that agree wherever they come make runs that agree. -/
theorem agrees_runAll {α : Type} {P : Database → Prop} {step : Database → α → Database × Option CompileError}
    {stepChecked : Database → α → Option (Database × Option CompileError)} {as : List α}
    (hstep : ∀ db, ∀ a ∈ as, P db → Agrees (stepChecked db a) (step db a) ∧ P (step db a).1) (hdb : P db) :
    Agrees (runAllChecked stepChecked db as) (runAll step db as) := by
  induction as generalizing db with
  | nil => exact .done db
  | cons a as ih =>
    obtain ⟨hagrees, hnext⟩ := hstep db a List.mem_cons_self hdb
    rw [runAllChecked, runAll, hagrees.eq]
    have herror := hagrees.error
    rcases hresult : step db a with ⟨db1, _ | e⟩
    · rw [hresult] at hnext
      exact ih (fun db b hb => hstep db b (List.mem_cons_of_mem a hb)) hnext
    · rw [hresult] at herror
      exact ⟨rfl, herror⟩

/-! ### Loading -/

theorem overflow?_ne_inconsistentIndex (i : Nat) (relation : Symbol) :
    db.overflow? i ≠ some (.inconsistentIndex relation) := by
  unfold overflow?
  split
  · split_ifs <;> simp
  · simp

theorem agrees_insert {i : Nat} {t : Table} {tuple : List Symbol} (ht : db.tables[i]? = some t)
    (hlength : tuple.length = t.columns.length) : Agrees (db.insertChecked i tuple) (db.insert i tuple) := by
  refine ⟨?_, overflow?_ne_inconsistentIndex i⟩
  rw [insertChecked, ht]
  exact if_pos hlength

theorem modifyTableChecked_of_lt {i : Nat} (hi : i < db.tables.size) (f : Table → Table) :
    db.modifyTableChecked i f = some (db.modifyTable i f) := if_pos hi

theorem size_tables_modifyTable (i : Nat) (f : Table → Table) :
    (db.modifyTable i f).tables.size = db.tables.size := by
  simp [modifyTable]

theorem foldlM_modifyTableChecked {f : Table → Table} {tables : List Nat} (h : ∀ i ∈ tables, i < db.tables.size) :
    tables.foldlM (fun db i => modifyTableChecked db i f) db =
      some (tables.foldl (fun db i => modifyTable db i f) db) := by
  induction tables generalizing db with
  | nil => rfl
  | cons i tables ih =>
    obtain ⟨hi, htables⟩ := List.forall_mem_cons.1 h
    rw [List.foldlM_cons, modifyTableChecked_of_lt hi, List.foldl_cons]
    exact ih fun j hj => by
      rw [size_tables_modifyTable]
      exact htables j hj

theorem WellFormed.lt_of_position? (hwf : db.WellFormed) {schema : Schema} {i : Nat}
    (hi : db.schemas.position? schema = some i) : i < db.tables.size := by
  obtain ⟨t, ht, -⟩ := hwf.position?_iff.1 hi
  exact (Array.getElem?_eq_some_iff.1 ht).1

/-- The tables that a rule reads and adds to were opened for it. -/
theorem addRuleChecked_eq (hwf : db.WellFormed) (c : Clause Symbol) : db.addRuleChecked c = some (db.addRule c) := by
  obtain ⟨hopens1, -, hsteps⟩ := opens_stepsFor hwf c.body
  obtain ⟨hopens2, htarget⟩ := opens_tableFor hopens1.wellFormed c.head
  have hproducers := modifyTableChecked_of_lt (hopens2.wellFormed.lt_of_position? htarget)
  simp only [addRuleChecked, hproducers, Option.bind_eq_bind, Option.bind_some]
  rw [foldlM_modifyTableChecked]
  · rfl
  · intro i hi
    obtain ⟨template, hscan⟩ := Plan.mem_sources_iff.1 hi
    rw [hsteps] at hscan
    obtain ⟨φ, -, hstep⟩ := List.mem_filterMap.1 hscan
    obtain ⟨a, -, -, hposition, -⟩ := Formula.step?_eq_scan hstep
    rw [size_tables_modifyTable]
    exact hopens2.wellFormed.lt_of_position? (OrderedSet.position?_of_prefix hopens2.schemas hposition)

theorem Intact.foldlM_addRuleChecked (h : db.Intact) (head : Atom Symbol) (bodies : List (List (Formula Symbol))) :
    bodies.foldlM (fun db body => addRuleChecked db ⟨head, schedule body⟩) db =
      some (bodies.foldl (fun db body => Database.addRule db ⟨head, schedule body⟩) db) := by
  induction bodies generalizing db with
  | nil => rfl
  | cons body bodies ih =>
    rw [List.foldlM_cons, addRuleChecked_eq h.sound.wellFormed, List.foldl_cons]
    exact ih (h.addRule _)

theorem Intact.agrees_loadFormula (h : db.Intact) (φ : Formula Symbol) :
    Agrees (db.loadFormulaChecked φ) (db.loadFormula φ) := by
  cases φ with
  | atom a =>
    rw [loadFormulaChecked, Database.loadFormula]
    split_ifs with ha
    · obtain ⟨hopens, hi⟩ := opens_tableFor h.sound.wellFormed a
      obtain ⟨t, ht, hschema⟩ := hopens.wellFormed.position?_iff.1 hi
      have hlength : a.constants.length = t.columns.length := by
        rw [Atom.length_constants ha, (hopens.wellFormed.tables ht).length_columns, hschema]
      have hinsert := agrees_insert ht hlength
      have herror := hinsert.error
      simp only [hinsert.eq]
      rcases hresult : (db.tableFor a).2.insert (db.tableFor a).1 a.constants with ⟨db1, _ | e⟩
      · exact .done _
      · rw [hresult] at herror
        exact ⟨rfl, herror⟩
    · rw [addRuleChecked_eq h.sound.wellFormed]
      exact .done _
  | rule head body =>
    rw [loadFormulaChecked, h.foldlM_addRuleChecked]
    exact .done _
  | neg φ => exact ⟨rfl, fun _ herror => by cases herror⟩
  | disj φs => exact ⟨rfl, fun _ herror => by cases herror⟩

theorem Intact.agrees_load (h : db.Intact) (φs : List (Formula Symbol)) :
    Agrees (db.loadChecked φs) (db.load φs) :=
  agrees_runAll (fun _ φ _ hdb => ⟨hdb.agrees_loadFormula φ, hdb.loadFormula φ⟩) h

/-! ### Firing -/

/-- Values that were found give each variable of the head its own. -/
theorem WellFormed.produceChecked_eq (hwf : db.WellFormed) (hp : db.plans[rule]? = some p) (σ : Symbol → Symbol) :
    p.produceChecked (p.vars.map σ) = some (p.produce (p.vars.map σ)) := by
  obtain ⟨-, -, -, hvars⟩ := hwf.production_fits hp
  have hvalue : ∀ slot ∈ p.production, slot.value? (p.valuation (p.vars.map σ)) = some (slot.eval σ) := by
    intro slot hslot
    cases slot with
    | const c => rfl
    | var x => exact Plan.lookup_valuation (hvars x hslot)
  rw [Plan.produceChecked, mapM_eq_some_map hvalue, (hwf.plans hp).produce_eq, Atom.constants_inst,
    (hwf.plans hp).production]

theorem Intact.agrees_fire (h : db.Intact) (hp : db.plans[rule]? = some p) (σ : Symbol → Symbol) :
    Agrees (fireChecked rule db (p.vars.map σ)) (fire rule db (p.vars.map σ)) := by
  have hwf := h.sound.wellFormed
  obtain ⟨t, ht, hlength, -⟩ := hwf.production_fits hp
  have hproduce := hwf.produceChecked_eq hp σ
  have htuple : (p.produce (p.vars.map σ)).length = t.columns.length := by
    rw [(hwf.tables ht).length_columns, ← hlength, (hwf.plans hp).produce_eq, Atom.constants_inst,
      (hwf.plans hp).production, List.length_map]
  simp only [fireChecked, fire, hp, hproduce]
  split_ifs
  · exact .done _
  · exact agrees_insert ht htuple

/-- A join fails only for a variable without a value. -/
theorem WellFormed.instances_error (hwf : db.WellFormed) (hp : db.plans[rule]? = some p) {e : CompileError}
    (he : db.instances p = .error e) : ∃ x, e = .unboundVariable x p.clause.head.relation := by
  have hjoin : ∃ restricted, p.join db.tables restricted = .error e := by
    unfold instances at he
    split_ifs at he
    · exact ⟨none, he⟩
    · obtain ⟨scan, -, hscan⟩ := exists_error_of_collect he
      exact ⟨some scan.1, hscan⟩
  obtain ⟨restricted, hfails⟩ := hjoin
  rw [hwf.join_eq hp] at hfails
  cases hloops : p.nestedLoops db.tables restricted with
  | ok found =>
    rw [hloops] at hfails
    cases hfails
  | error x =>
    rw [hloops] at hfails
    exact ⟨x, (Except.error.inj hfails).symm⟩

theorem WellFormed.isWithin_of_mem_steps (hwf : db.WellFormed) (hp : db.plans[rule]? = some p) {step : Step}
    (hstep : step ∈ p.steps) : step.isWithin db.tables p.vars = true := by
  cases step with
  | compare left right negated => rfl
  | scan table template =>
    obtain ⟨t, ht, htwf, hlength, hvars⟩ := hwf.exists_table_of_scan hp hstep
    simp only [Step.isWithin, ht, Bool.and_eq_true, decide_eq_true_eq, List.all_eq_true]
    refine ⟨hlength.trans htwf.length_columns.symm, fun slot hslot => ?_⟩
    cases slot with
    | const c => rfl
    | var x => exact List.contains_iff_mem.2 (hvars x hslot)

theorem Intact.agrees_fireAll (h : db.Intact) (hrule : rule < db.plans.size) :
    Agrees (db.fireAllChecked rule) (db.fireAll rule) := by
  have hwf := h.sound.wellFormed
  obtain ⟨p, hp⟩ : ∃ p, db.plans[rule]? = some p := ⟨_, Array.getElem?_eq_getElem hrule⟩
  have hwithin : p.steps.all (Step.isWithin db.tables p.vars) = true :=
    List.all_eq_true.2 fun step hstep => hwf.isWithin_of_mem_steps hp hstep
  rw [fireAllChecked, fireAll]
  simp only [hp, hwithin, if_true]
  cases hfound : db.instances p with
  | error e =>
    obtain ⟨x, rfl⟩ := hwf.instances_error hp hfound
    exact ⟨rfl, fun _ herror => by cases herror⟩
  | ok found =>
    -- the rule stays where it is while it is fired, and can be fired for the values that are left
    refine agrees_runAll (P := fun db' => Firings db db') (fun db' values hvalues hfirings => ?_) .refl
    have hdb' := hfirings.moves.intact h
    obtain ⟨p', hp', -⟩ := exists_of_rel_some (hp ▸ hfirings.grows.plans rule)
    obtain ⟨σ, rfl, hfires, hmentions⟩ :=
      hfirings.grows.canFire hp hp' (instances_sound hfound hwf hvalues)
    exact ⟨hdb'.agrees_fire hp' σ, hfirings.tail (.intro hp' hfires hmentions)⟩

/-! ### Rounds -/

theorem exists_table_of_mem_changed {i : Nat} (h : i ∈ db.changed) : ∃ t, db.tables[i]? = some t := by
  obtain ⟨⟨t, j⟩, hmem, hsome⟩ := List.mem_filterMap.1 h
  have ht : db.tables.toList[j]? = some t := List.mem_zipIdx_iff_getElem?.1 hmem
  rw [Array.getElem?_toList] at ht
  dsimp only at hsome
  split_ifs at hsome
  rw [← Option.some.inj hsome]
  exact ⟨t, ht⟩

theorem pendingChecked_eq (db : Database) : db.pendingChecked = some db.pending := by
  unfold pendingChecked pending
  split_ifs
  · rfl
  · refine congrArg (Option.map fun rules : List (List Nat) => distinct rules.flatten) (mapM_eq_some_map fun i hi => ?_)
    obtain ⟨t, ht⟩ := exists_table_of_mem_changed hi
    rw [ht]
    rfl

theorem Intact.lt_of_mem_pending (h : db.Intact) (hrule : rule ∈ db.pending) : rule < db.plans.size := by
  unfold pending at hrule
  split_ifs at hrule
  · exact List.mem_range.1 hrule
  · obtain ⟨i, hi, hmem⟩ := List.mem_flatMap.1 (mem_distinct.1 hrule)
    obtain ⟨t, ht⟩ := exists_table_of_mem_changed hi
    rw [ht] at hmem
    exact (h.rules i t ht).2 rule hmem

theorem Intact.agrees_saturateUpTo (h : db.Intact) (fuel : Nat) :
    Agrees (saturateUpToChecked fuel db) (saturateUpTo fuel db) := by
  induction fuel generalizing db with
  | zero => exact .done _
  | succ fuel ih =>
    have hadvance := Move.advance.intact h
    have hround : Agrees (runAllChecked fireAllChecked db.advance db.advance.pending)
        (runAll fireAll db.advance db.advance.pending) := by
      refine agrees_runAll (P := fun db' => db'.Intact ∧ db'.plans.size = db.advance.plans.size)
        (fun db' rule hrule hdb' => ?_) ⟨hadvance, rfl⟩
      have hfirings := firings_fireAll hdb'.1.sound.wellFormed rule
      have hlt : rule < db'.plans.size := hdb'.2 ▸ hadvance.lt_of_mem_pending hrule
      exact ⟨hdb'.1.agrees_fireAll hlt, hfirings.moves.intact hdb'.1, hfirings.grows.size_plans.trans hdb'.2⟩
    have hafter := (firings_runAll_fireAll hadvance.sound db.advance.pending).moves.intact hadvance
    have herror := hround.error
    rw [saturateUpToChecked, saturateUpTo, pendingChecked_eq]
    cases hpending : db.advance.pending with
    | nil => exact .done _
    | cons rule rules =>
      rw [hpending] at hround hafter herror
      simp only [hround.eq]
      rcases hresult : runAll fireAll db.advance (rule :: rules) with ⟨db1, _ | e⟩
      · rw [hresult] at hafter
        exact ih (Move.count.intact hafter)
      · rw [hresult] at herror
        exact ⟨rfl, herror⟩

theorem Intact.agrees_saturate (h : db.Intact) : Agrees db.saturateChecked db.saturate :=
  h.agrees_saturateUpTo (db.capacity + 2)

/-! ### Operations -/

theorem failure?_emit_ne_inconsistentIndex (db : Database) (relation : Symbol) :
    failure? db.emit ≠ some (.inconsistentIndex relation) := by
  intro h
  have herror := failure?_eq_some_iff.1 h
  rw [emit] at herror
  split at herror
  · rename_i e hcollect
    rw [Except.error.inj herror] at hcollect
    obtain ⟨p, -, hemit⟩ := exists_error_of_collect hcollect
    obtain ⟨values, -, hinstance⟩ := exists_error_of_collect hemit
    dsimp only at hinstance
    split at hinstance
    · cases hinstance
    · cases hinstance
  · cases herror

theorem Intact.agrees_perform (h : db.Intact) (op : Operation) : Agrees (db.performChecked op) (db.perform op) := by
  cases op with
  | load φs => exact h.agrees_load φs
  | saturate => exact h.agrees_saturate
  | emit => exact ⟨rfl, failure?_emit_ne_inconsistentIndex db⟩
  | ground φs =>
    have hload := h.agrees_load φs
    have hloaded := h.load φs
    have herror := hload.error
    rw [performChecked, Database.perform, ground, hload.eq]
    rcases hresult : db.load φs with ⟨db1, _ | e⟩
    · rw [hresult] at hloaded
      have hsaturate := Intact.agrees_saturate hloaded
      have herror' := hsaturate.error
      simp only [hsaturate.eq]
      rcases hresult' : db1.saturate with ⟨db2, _ | e⟩
      · exact ⟨rfl, failure?_emit_ne_inconsistentIndex db2⟩
      · rw [hresult'] at herror'
        exact ⟨rfl, herror'⟩
    · rw [hresult] at herror
      exact ⟨rfl, herror⟩

/-- Whatever was asked of a database before, also if it failed, its indices are consistent: tables hold different tuples
of their length and list where each constant stands, each schema has the number of its table, and the templates and
rules belong to their tables and variables.  No operation then fails for an inconsistent index, and none follows an
index that is out of bounds. -/
theorem consistent_after (limit : Option Nat) (ops : List Operation) : (after limit ops).Consistent ∧
    ∀ op, (∀ relation, ((after limit ops).perform op).2 ≠ some (.inconsistentIndex relation)) ∧
      (after limit ops).performChecked op = some ((after limit ops).perform op) := by
  have hintact := intact_after limit ops
  refine ⟨hintact.consistent, fun op => ?_⟩
  obtain ⟨heq, herror⟩ := hintact.agrees_perform op
  exact ⟨herror, heq⟩

end Database

end GameCircuit
