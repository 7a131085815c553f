import GameCircuit.Grounding.Database
import GameCircuit.Proofs.Joins
import GameCircuit.Proofs.Meaning
import GameCircuit.Proofs.OrderedMaps

/-!
# What a database holds after loading

`Database.WellFormed` ties the parts of a database together: each schema has its table, each plan reads
its clause through the schemas (`Formula.step?`), and a table knows the rules that scan it.  Loading keeps
it, and `Database.Loads` says what loading formulas adds to the tables, plans and facts.
-/

namespace GameCircuit

namespace Formula

/-- The step that a literal of a body becomes, if it becomes one. -/
def step? (schemas : OrderedSet Schema) : Formula Symbol → Option Step
  | .atom a =>
    if a.relation = Keyword.distinct then
      match a.args with
      | [s, t] => some (.compare s t false)
      | _ => none
    else (schemas.position? a.schema).map (.scan · a.slots)
  | .neg (.atom a) =>
    match a.args with
    | [s, t] => if a.relation = Keyword.distinct then some (.compare s t true) else none
    | _ => none
  | _ => none

/-- The literal has a table, if it reads one. -/
def HasTable (schemas : OrderedSet Schema) : Formula Symbol → Prop
  | .atom a => a.relation ≠ Keyword.distinct → ∃ i, schemas.position? a.schema = some i
  | _ => True

variable {schemas schemas' : OrderedSet Schema} {φ : Formula Symbol}

theorem HasTable.mono (h : schemas.toList <+: schemas'.toList) (hφ : φ.HasTable schemas) :
    φ.HasTable schemas' := by
  cases φ with
  | atom a =>
    intro hd
    obtain ⟨i, hi⟩ := hφ hd
    exact ⟨i, OrderedSet.position?_of_prefix h hi⟩
  | rule head body => trivial
  | neg φ => trivial
  | disj φs => trivial

theorem HasTable.step?_eq (h : schemas.toList <+: schemas'.toList) (hφ : φ.HasTable schemas) :
    φ.step? schemas' = φ.step? schemas := by
  cases φ with
  | atom a =>
    by_cases hd : a.relation = Keyword.distinct
    · simp only [step?, if_pos hd]
    · obtain ⟨i, hi⟩ := hφ hd
      simp only [step?, if_neg hd, hi, OrderedSet.position?_of_prefix h hi]
  | neg φ => cases φ <;> rfl
  | rule head body => rfl
  | disj φs => rfl

end Formula

/-- The plan reads its clause. -/
structure Plan.Fits (schemas : OrderedSet Schema) (p : Plan) : Prop where
  vars : p.vars = p.clause.vars
  hasTable : ∀ φ ∈ p.clause.body, φ.HasTable schemas
  steps : p.steps = p.clause.body.filterMap (Formula.step? schemas)
  target : schemas.position? p.clause.head.schema = some p.target
  production : p.production = p.clause.head.slots

theorem Plan.Fits.mono {schemas schemas' : OrderedSet Schema} {p : Plan}
    (h : schemas.toList <+: schemas'.toList) (hp : p.Fits schemas) : p.Fits schemas' where
  vars := hp.vars
  hasTable φ hφ := (hp.hasTable φ hφ).mono h
  steps := by
    rw [hp.steps]
    exact List.filterMap_congr fun φ hφ => ((hp.hasTable φ hφ).step?_eq h).symm
  target := OrderedSet.position?_of_prefix h hp.target
  production := hp.production

namespace Plan

variable {p : Plan} {i n : Nat}

theorem mem_scans_iff : (n, i) ∈ p.scans ↔ ∃ template, p.steps[n]? = some (.scan i template) := by
  simp only [scans, List.mem_filterMap, Prod.exists, List.mem_zipIdx_iff_getElem?]
  constructor
  · rintro ⟨step, m, hstep, h⟩
    cases step with
    | scan table template =>
      obtain ⟨rfl, rfl⟩ : m = n ∧ table = i := by simpa [Step.table?] using h
      exact ⟨template, hstep⟩
    | compare left right negated => simp [Step.table?] at h
  · rintro ⟨template, h⟩
    exact ⟨_, n, h, rfl⟩

theorem mem_sources_iff : i ∈ p.sources ↔ ∃ template, .scan i template ∈ p.steps := by
  simp only [sources, List.mem_eraseDups, List.mem_map, Prod.exists, mem_scans_iff]
  constructor
  · rintro ⟨n, j, ⟨template, h⟩, rfl⟩
    exact ⟨template, List.mem_of_getElem? h⟩
  · rintro ⟨template, h⟩
    obtain ⟨n, hn⟩ := List.mem_iff_getElem?.1 h
    exact ⟨n, i, ⟨template, hn⟩, rfl⟩

end Plan

/-- A step that scans a table stands for an atom of the body with that table. -/
theorem Formula.step?_eq_scan {schemas : OrderedSet Schema} {φ : Formula Symbol} {i : Nat}
    {template : List Slot} (h : φ.step? schemas = some (.scan i template)) :
    ∃ a, φ = .atom a ∧ a.relation ≠ Keyword.distinct ∧ schemas.position? a.schema = some i ∧
      template = a.slots := by
  cases φ with
  | atom a =>
    by_cases hd : a.relation = Keyword.distinct
    · rw [step?, if_pos hd] at h
      split at h <;> simp at h
    · rw [step?, if_neg hd] at h
      obtain ⟨j, hj, hscan⟩ := Option.map_eq_some_iff.1 h
      obtain ⟨rfl, rfl⟩ := Step.scan.inj hscan
      exact ⟨a, rfl, hd, hj, rfl⟩
  | neg ψ =>
    cases ψ with
    | atom a =>
      rw [step?] at h
      split at h
      · split_ifs at h
        simp at h
      · simp at h
    | neg χ => simp [step?] at h
    | rule head body => simp [step?] at h
    | disj χs => simp [step?] at h
  | rule head body => simp [step?] at h
  | disj ψs => simp [step?] at h

namespace Database

variable {db db' : Database} {a : Atom Symbol} {i j k : Nat} {tuple : List Symbol}

/-- The tuple is in the table with the number `i`. -/
def HasTuple (db : Database) (i : Nat) (tuple : List Symbol) : Prop :=
  ∃ t, db.tables[i]? = some t ∧ tuple ∈ t.tuples.toList

/-- The tuple is in a row before `stop`. -/
def HasTupleUpTo (db : Database) (stop : Table → Nat) (i : Nat) (tuple : List Symbol) : Prop :=
  ∃ t row, db.tables[i]? = some t ∧ row < stop t ∧ t.row? row = some tuple

/-- The tuple of the atom's constants is in the table of the atom. -/
def Holds (db : Database) (a : Atom Symbol) : Prop :=
  ∃ t, db.tableOf? a = some t ∧ a.constants ∈ t.tuples.toList

/-- The table knows that the rule scans it. -/
def Consumes (db : Database) (i rule : Nat) : Prop :=
  ∃ t, db.tables[i]? = some t ∧ rule ∈ t.consumers.toList

theorem hasTupleUpTo_size : db.HasTupleUpTo Table.size i tuple ↔ db.HasTuple i tuple := by
  simp only [HasTupleUpTo, HasTuple, Table.mem_iff_row?]
  constructor
  · rintro ⟨t, row, ht, hrow⟩
    exact ⟨t, ht, row, hrow⟩
  · rintro ⟨t, ht, row, hrow⟩
    exact ⟨t, row, ht, hrow⟩

theorem HasTupleUpTo.hasTuple {stop : Table → Nat} (h : db.HasTupleUpTo stop i tuple) :
    db.HasTuple i tuple := by
  obtain ⟨t, row, ht, -, hrow⟩ := h
  exact ⟨t, ht, Table.mem_iff_row?.2 ⟨row, Table.row?_lt hrow, hrow⟩⟩

theorem holds_iff : db.Holds a ↔ ∃ i, db.schemas.position? a.schema = some i ∧
    db.HasTuple i a.constants := by
  constructor
  · rintro ⟨t, ht, hmem⟩
    obtain ⟨i, hi, hti⟩ := Option.bind_eq_some_iff.1 ht
    exact ⟨i, hi, t, hti, hmem⟩
  · rintro ⟨i, hi, t, ht, hmem⟩
    exact ⟨t, Option.bind_eq_some_iff.2 ⟨i, hi, ht⟩, hmem⟩

instance : Decidable (db.Holds a) :=
  decidable_of_iff ((db.tableOf? a).any (·.contains a.constants) = true) <| by
    rw [Option.any_eq_true]
    exact exists_congr fun t => and_congr_right fun _ => Table.contains_iff

theorem holds_canonical : db.Holds a.canonical ↔ db.Holds a := by
  rw [holds_iff, holds_iff, Atom.schema_canonical, Atom.constants_canonical]

/-- What ties the parts of a database together. -/
structure WellFormed (db : Database) : Prop where
  schemas : db.tables.toList.map Table.schema = db.schemas.toList
  tables : ∀ {i : Nat} {t : Table}, db.tables[i]? = some t → t.WellFormed
  plans : ∀ {k : Nat} {p : Plan}, db.plans[k]? = some p → p.Fits db.schemas
  consumers : ∀ {k : Nat} {p : Plan}, db.plans[k]? = some p → ∀ i ∈ p.sources, db.Consumes i k

namespace WellFormed

variable (hwf : db.WellFormed)

include hwf

theorem of_mem_tables : ∀ t ∈ db.tables, t.WellFormed := by
  intro t ht
  obtain ⟨i, hi⟩ := Array.mem_iff_getElem?.1 ht
  exact hwf.tables hi

theorem length_schemas : db.schemas.toList.length = db.tables.size := by
  rw [← hwf.schemas, List.length_map, Array.length_toList]

theorem position?_iff {schema : Schema} :
    db.schemas.position? schema = some i ↔ ∃ t, db.tables[i]? = some t ∧ t.schema = schema := by
  rw [OrderedSet.position?_eq_some_iff, ← hwf.schemas, List.getElem?_map, Array.getElem?_toList]
  exact Option.map_eq_some_iff

/-- A table with tuples keeps its schema when others are opened. -/
theorem position?_of_hasTuple {schema : Schema} {schemas : OrderedSet Schema}
    (h : db.schemas.toList <+: schemas.toList) (htuple : db.HasTuple i tuple)
    (hi : schemas.position? schema = some i) : db.schemas.position? schema = some i := by
  obtain ⟨t, ht, -⟩ := htuple
  have hold : db.schemas.position? t.schema = some i := hwf.position?_iff.2 ⟨t, ht, rfl⟩
  rw [← OrderedSet.eq_of_position?_eq (OrderedSet.position?_of_prefix h hold) hi]
  exact hold

/-- A table holds tuples of its own length only. -/
theorem length_tuple {schema : Schema} (hi : db.schemas.position? schema = some i)
    (htuple : db.HasTuple i tuple) : tuple.length = schema.arity := by
  obtain ⟨t, ht, rfl⟩ := hwf.position?_iff.1 hi
  obtain ⟨t', ht', hmem⟩ := htuple
  obtain rfl : t = t' := Option.some.inj (ht.symm.trans ht')
  exact (hwf.tables ht).length_tuple tuple hmem

/-- Only ground atoms hold. -/
theorem isGround_of_holds (h : db.Holds a) : a.isGround = true := by
  obtain ⟨i, hi, htuple⟩ := holds_iff.1 h
  exact Atom.isGround_of_length_constants (hwf.length_tuple hi htuple)

end WellFormed

theorem wellFormed_empty (limit : Option Nat) : (empty limit).WellFormed where
  schemas := rfl
  tables h := by simp [empty] at h
  plans h := by simp [empty] at h
  consumers h := by simp [empty] at h

/-! ## Changing a table -/

section ModifyTable

variable {f : Table → Table}

theorem getElem?_modifyTable :
    (db.modifyTable i f).tables[j]? = if i = j then db.tables[j]?.map f else db.tables[j]? :=
  Array.getElem?_modify

theorem getElem?_modifyTable_eq_some {t' : Table} (h : (db.modifyTable i f).tables[j]? = some t') :
    ∃ t, db.tables[j]? = some t ∧ (t' = t ∨ i = j ∧ t' = f t) := by
  rw [getElem?_modifyTable] at h
  split_ifs at h with hij
  · obtain ⟨t, ht, rfl⟩ := Option.map_eq_some_iff.1 h
    exact ⟨t, ht, .inr ⟨hij, rfl⟩⟩
  · exact ⟨t', h, .inl rfl⟩

theorem exists_getElem?_modifyTable {t : Table} (h : db.tables[j]? = some t) :
    ∃ t', (db.modifyTable i f).tables[j]? = some t' ∧ (t' = t ∨ i = j ∧ t' = f t) := by
  rw [getElem?_modifyTable]
  split_ifs with hij
  · exact ⟨f t, by rw [h]; rfl, .inr ⟨hij, rfl⟩⟩
  · exact ⟨t, h, .inl rfl⟩

theorem Consumes.modifyTable (hf : ∀ t : Table, t.consumers.toList ⊆ (f t).consumers.toList)
    (h : db.Consumes j k) : (db.modifyTable i f).Consumes j k := by
  obtain ⟨t, ht, hk⟩ := h
  obtain ⟨t', ht', rfl | ⟨-, rfl⟩⟩ := exists_getElem?_modifyTable (i := i) (f := f) ht
  · exact ⟨t', ht', hk⟩
  · exact ⟨_, ht', hf t hk⟩

theorem WellFormed.modifyTable (hwf : db.WellFormed) (hschema : ∀ t : Table, (f t).schema = t.schema)
    (hf : ∀ t, db.tables[i]? = some t → t.WellFormed → (f t).WellFormed)
    (hcons : ∀ t : Table, t.consumers.toList ⊆ (f t).consumers.toList) :
    (db.modifyTable i f).WellFormed where
  schemas := by
    refine Eq.trans (List.ext_getElem? fun j => ?_) hwf.schemas
    rw [List.getElem?_map, List.getElem?_map, Array.getElem?_toList, Array.getElem?_toList,
      getElem?_modifyTable]
    split_ifs with hij
    · rw [Option.map_map]
      exact congrArg (fun g => Option.map g _) (funext hschema)
    · rfl
  tables h := by
    obtain ⟨t, ht, rfl | ⟨rfl, rfl⟩⟩ := getElem?_modifyTable_eq_some h
    · exact hwf.tables ht
    · exact hf t ht (hwf.tables ht)
  plans h := hwf.plans h
  consumers h i hi := (hwf.consumers h i hi).modifyTable hcons

theorem hasTuple_modifyTable (hf : ∀ t : Table, (f t).tuples = t.tuples) :
    (db.modifyTable i f).HasTuple j tuple ↔ db.HasTuple j tuple := by
  constructor
  · rintro ⟨t', ht', hmem⟩
    obtain ⟨t, ht, rfl | ⟨-, rfl⟩⟩ := getElem?_modifyTable_eq_some ht'
    · exact ⟨t', ht, hmem⟩
    · exact ⟨t, ht, hf t ▸ hmem⟩
  · rintro ⟨t, ht, hmem⟩
    obtain ⟨t', ht', rfl | ⟨-, rfl⟩⟩ := exists_getElem?_modifyTable (i := i) (f := f) ht
    · exact ⟨t', ht', hmem⟩
    · exact ⟨f t, ht', (hf t).symm ▸ hmem⟩

theorem hasTuple_insert {other : List Symbol} (hi : i < db.tables.size) :
    (db.modifyTable i (·.insert tuple)).HasTuple j other ↔
      db.HasTuple j other ∨ j = i ∧ other = tuple := by
  constructor
  · rintro ⟨t', ht', hmem⟩
    obtain ⟨t, ht, rfl | ⟨rfl, rfl⟩⟩ := getElem?_modifyTable_eq_some ht'
    · exact .inl ⟨t', ht, hmem⟩
    · rcases Table.mem_insert.1 hmem with hmem | rfl
      · exact .inl ⟨t, ht, hmem⟩
      · exact .inr ⟨rfl, rfl⟩
  · rintro (⟨t, ht, hmem⟩ | ⟨rfl, rfl⟩)
    · obtain ⟨t', ht', rfl | ⟨-, rfl⟩⟩ := exists_getElem?_modifyTable (i := i) (f := (·.insert tuple)) ht
      · exact ⟨t', ht', hmem⟩
      · exact ⟨_, ht', Table.mem_insert.2 (.inl hmem)⟩
    · refine ⟨(db.tables[j]).insert other, ?_, Table.mem_insert.2 (.inr rfl)⟩
      rw [getElem?_modifyTable, if_pos rfl, Array.getElem?_eq_getElem hi]
      rfl

theorem WellFormed.insert (hwf : db.WellFormed) {schema : Schema}
    (hi : db.schemas.position? schema = some i) (hlen : tuple.length = schema.arity) :
    (db.modifyTable i (·.insert tuple)).WellFormed := by
  refine hwf.modifyTable (fun t => (Table.grows_insert t tuple).schema) (fun t ht ht' => ?_)
    (fun t => by rw [(Table.grows_insert t tuple).consumers]; exact List.Subset.refl _)
  obtain ⟨t', ht'', rfl⟩ := hwf.position?_iff.1 hi
  obtain rfl : t = t' := Option.some.inj (ht.symm.trans ht'')
  exact ht'.insert hlen

/-- Inserting the constants of an atom makes it hold, and what shares its tuple. -/
theorem holds_insert (hwf : db.WellFormed) {b : Atom Symbol} (ha : a.isGround = true)
    (hb : b.isGround = true) (hi : db.schemas.position? a.schema = some i) :
    (db.modifyTable i (·.insert a.constants)).Holds b ↔ db.Holds b ∨ a.canonical = b.canonical := by
  have hlt : i < db.tables.size := by
    obtain ⟨t, ht, -⟩ := hwf.position?_iff.1 hi
    exact (Array.getElem?_eq_some_iff.1 ht).1
  rw [holds_iff, holds_iff, Atom.canonical_eq_iff ha hb]
  constructor
  · rintro ⟨j, hj, htuple⟩
    rcases (hasTuple_insert hlt).1 htuple with hold | ⟨rfl, hnew⟩
    · exact .inl ⟨j, hj, hold⟩
    · exact .inr ⟨OrderedSet.eq_of_position?_eq hi hj, hnew.symm⟩
  · rintro (⟨j, hj, htuple⟩ | ⟨hschema, hconstants⟩)
    · exact ⟨j, hj, (hasTuple_insert hlt).2 (.inl htuple)⟩
    · exact ⟨i, hschema ▸ hi, (hasTuple_insert hlt).2 (.inr ⟨rfl, hconstants.symm⟩)⟩

end ModifyTable

/-! ## Opening tables -/

/-- What opening tables and entering rules into them leaves alone, and what it may only add to. -/
structure Opens (db db' : Database) : Prop where
  wellFormed : db'.WellFormed
  limit : db'.limit = db.limit
  plans : db'.plans = db.plans
  facts : db'.facts = db.facts
  rounds : db'.rounds = db.rounds
  schemas : db.schemas.toList <+: db'.schemas.toList
  hasTuple : ∀ i tuple, db'.HasTuple i tuple ↔ db.HasTuple i tuple
  -- a new table has nothing before its frontier
  frontier : ∀ i tuple, db'.HasTupleUpTo Table.frontier i tuple → db.HasTupleUpTo Table.frontier i tuple
  consumes : ∀ i k, db.Consumes i k → db'.Consumes i k

namespace Opens

theorem refl (hwf : db.WellFormed) : Opens db db :=
  ⟨hwf, rfl, rfl, rfl, rfl, List.prefix_refl _, fun _ _ => Iff.rfl, fun _ _ h => h, fun _ _ h => h⟩

theorem trans {db1 db2 db3 : Database} (h1 : Opens db1 db2) (h2 : Opens db2 db3) : Opens db1 db3 where
  wellFormed := h2.wellFormed
  limit := h2.limit.trans h1.limit
  plans := h2.plans.trans h1.plans
  facts := h2.facts.trans h1.facts
  rounds := h2.rounds.trans h1.rounds
  schemas := h1.schemas.trans h2.schemas
  hasTuple i tuple := (h2.hasTuple i tuple).trans (h1.hasTuple i tuple)
  frontier i tuple h := h1.frontier i tuple (h2.frontier i tuple h)
  consumes i k h := h2.consumes i k (h1.consumes i k h)

/-- Changing what a table knows about rules. -/
theorem modifyTable {f : Table → Table} (hwf : db.WellFormed) (hschema : ∀ t : Table, (f t).schema = t.schema)
    (hf : ∀ t : Table, t.WellFormed → (f t).WellFormed) (htuples : ∀ t : Table, (f t).tuples = t.tuples)
    (hfrontier : ∀ t : Table, (f t).frontier = t.frontier)
    (hcons : ∀ t : Table, t.consumers.toList ⊆ (f t).consumers.toList) :
    Opens db (db.modifyTable i f) where
  wellFormed := hwf.modifyTable hschema (fun t _ => hf t) hcons
  limit := rfl
  plans := rfl
  facts := rfl
  rounds := rfl
  schemas := List.prefix_refl _
  hasTuple _ _ := hasTuple_modifyTable htuples
  frontier _ _ := by
    rintro ⟨t', row, ht', hlt, hrow⟩
    obtain ⟨t, ht, rfl | ⟨-, rfl⟩⟩ := getElem?_modifyTable_eq_some ht'
    · exact ⟨t', row, ht, hlt, hrow⟩
    · rw [Table.row?, htuples] at hrow
      exact ⟨t, row, ht, hfrontier t ▸ hlt, hrow⟩
  consumes _ _ h := h.modifyTable hcons

theorem holds_iff (hwf : db.WellFormed) (h : Opens db db') : db'.Holds a ↔ db.Holds a := by
  rw [Database.holds_iff, Database.holds_iff]
  constructor
  · rintro ⟨i, hi, htuple⟩
    rw [h.hasTuple] at htuple
    exact ⟨i, hwf.position?_of_hasTuple h.schemas htuple hi, htuple⟩
  · rintro ⟨i, hi, htuple⟩
    exact ⟨i, OrderedSet.position?_of_prefix h.schemas hi, (h.hasTuple i _).2 htuple⟩

end Opens

theorem schemas_tableFor (db : Database) (a : Atom Symbol) :
    (db.tableFor a).2.schemas = db.schemas.insert a.schema := by
  unfold tableFor OrderedSet.insert
  split
  · rename_i i hi
    split
    · rfl
    · rename_i hnone
      cases hi.symm.trans hnone
  · rename_i hnone
    split
    · rename_i i hi
      cases hnone.symm.trans hi
    · rfl

/-- The table of an atom is opened, and nothing else changes. -/
theorem opens_tableFor (hwf : db.WellFormed) (a : Atom Symbol) :
    Opens db (db.tableFor a).2 ∧ (db.tableFor a).2.schemas.position? a.schema = some (db.tableFor a).1 := by
  unfold tableFor
  split
  · rename_i i hi
    exact ⟨Opens.refl hwf, hi⟩
  · rename_i hnone
    have hget : ∀ (j : Nat) (t : Table), db.tables[j]? = some t →
        (db.tables.push (Table.empty a.schema))[j]? = some t := by
      intro j t ht
      obtain ⟨hj, -⟩ := Array.getElem?_eq_some_iff.1 ht
      rw [Array.getElem?_push, if_neg (by omega)]
      exact ht
    have hnew : ∀ {j : Nat} {t : Table}, (db.tables.push (Table.empty a.schema))[j]? = some t →
        db.tables[j]? = some t ∨ t = Table.empty a.schema := by
      intro j t ht
      rw [Array.getElem?_push] at ht
      split_ifs at ht
      · exact .inr (Option.some.inj ht).symm
      · exact .inl ht
    have hpush : (db.schemas.push a.schema hnone).toList = db.schemas.toList ++ [a.schema] :=
      OrderedSet.toList_push _ _ _
    have hprefix : db.schemas.toList <+: (db.schemas.push a.schema hnone).toList :=
      ⟨[a.schema], hpush.symm⟩
    have hconsumes : ∀ i k, db.Consumes i k →
        Consumes { db with
          schemas := db.schemas.push a.schema hnone
          tables := db.tables.push (Table.empty a.schema) } i k := by
      rintro i k ⟨t, ht, hk⟩
      exact ⟨t, hget i t ht, hk⟩
    refine ⟨⟨⟨?_, ?_, ?_, ?_⟩, rfl, rfl, rfl, rfl, hprefix, fun i tuple => ⟨?_, ?_⟩, fun i tuple => ?_,
      hconsumes⟩, ?_⟩
    · rw [Array.toList_push, List.map_append, hwf.schemas]
      exact hpush.symm
    · intro i t ht
      rcases hnew ht with ht | rfl
      · exact hwf.tables ht
      · exact Table.wellFormed_empty _
    · intro k p hp
      exact (hwf.plans hp).mono hprefix
    · intro k p hp i hi
      exact hconsumes i k (hwf.consumers hp i hi)
    · rintro ⟨t, ht, hmem⟩
      rcases hnew ht with ht | rfl
      · exact ⟨t, ht, hmem⟩
      · simp [Table.empty] at hmem
    · rintro ⟨t, ht, hmem⟩
      exact ⟨t, hget i t ht, hmem⟩
    · rintro ⟨t, row, ht, hlt, hrow⟩
      rcases hnew ht with ht | rfl
      · exact ⟨t, row, ht, hlt, hrow⟩
      · exact absurd hlt (Nat.not_lt_zero row)
    · exact (OrderedSet.position?_push_self hnone).trans (congrArg some hwf.length_schemas)

section StepsFor

variable {φ : Formula Symbol} {φs : List (Formula Symbol)}

theorem stepsFor_cons_atom (hd : a.relation ≠ Keyword.distinct) :
    db.stepsFor (.atom a :: φs) = (.scan (db.tableFor a).1 a.slots :: ((db.tableFor a).2.stepsFor φs).1,
      ((db.tableFor a).2.stepsFor φs).2) := by
  rw [stepsFor, if_neg hd]

/-- A literal that reads no table is a comparison or is left out, whatever tables there are. -/
theorem stepsFor_cons_of_not_scan (hφ : ¬ ∃ a, φ = .atom a ∧ a.relation ≠ Keyword.distinct)
    (schemas : OrderedSet Schema) :
    db.stepsFor (φ :: φs) = ((φ.step? schemas).toList ++ (db.stepsFor φs).1, (db.stepsFor φs).2) := by
  cases φ with
  | atom a =>
    obtain ⟨relation, args⟩ := a
    have hd : relation = Keyword.distinct := not_not.1 fun hne => hφ ⟨_, rfl, hne⟩
    rw [stepsFor, if_pos hd, Formula.step?, if_pos hd]
    rcases args with _ | ⟨s, _ | ⟨t, _ | _⟩⟩ <;> rfl
  | neg ψ =>
    cases ψ with
    | atom a =>
      obtain ⟨relation, args⟩ := a
      rw [stepsFor, Formula.step?]
      rcases args with _ | ⟨s, _ | ⟨t, _ | _⟩⟩ <;> try rfl
      by_cases hd : relation = Keyword.distinct <;> simp [hd]
    | neg χ => rfl
    | rule head body => rfl
    | disj χs => rfl
  | rule head body => rfl
  | disj ψs => rfl

/-- What opening a table keeps, opening those of a body keeps. -/
theorem stepsFor_induction {P : Database → Prop} (htable : ∀ db a, P db → P (tableFor db a).2) (h : P db)
    (φs : List (Formula Symbol)) : P (db.stepsFor φs).2 := by
  induction φs generalizing db with
  | nil => exact h
  | cons φ φs ih =>
    by_cases hscan : ∃ a, φ = .atom a ∧ a.relation ≠ Keyword.distinct
    · obtain ⟨a, rfl, hd⟩ := hscan
      rw [stepsFor_cons_atom hd]
      exact ih (htable db a h)
    · rw [stepsFor_cons_of_not_scan hscan .empty]
      exact ih h

/-- The steps of a body read its literals, and their tables are opened. -/
theorem opens_stepsFor (hwf : db.WellFormed) (φs : List (Formula Symbol)) :
    Opens db (db.stepsFor φs).2 ∧ (∀ φ ∈ φs, φ.HasTable (db.stepsFor φs).2.schemas) ∧
      (db.stepsFor φs).1 = φs.filterMap (Formula.step? (db.stepsFor φs).2.schemas) := by
  induction φs generalizing db with
  | nil => exact ⟨Opens.refl hwf, by simp, rfl⟩
  | cons φ φs ih =>
    by_cases hscan : ∃ a, φ = .atom a ∧ a.relation ≠ Keyword.distinct
    · obtain ⟨a, rfl, hd⟩ := hscan
      obtain ⟨hopens1, hi⟩ := opens_tableFor hwf a
      obtain ⟨hopens, htables, hsteps⟩ := ih hopens1.wellFormed
      have hi' := OrderedSet.position?_of_prefix hopens.schemas hi
      rw [stepsFor_cons_atom hd]
      refine ⟨hopens1.trans hopens, List.forall_mem_cons.2 ⟨fun _ => ⟨_, hi'⟩, htables⟩, ?_⟩
      rw [List.filterMap_cons, ← hsteps, Formula.step?, if_neg hd, hi']
      rfl
    · obtain ⟨hopens, htables, hsteps⟩ := ih hwf
      have htable : φ.HasTable (db.stepsFor φs).2.schemas := by
        cases φ with
        | atom a => exact fun hne => absurd ⟨a, rfl, hne⟩ hscan
        | _ => trivial
      rw [stepsFor_cons_of_not_scan hscan (db.stepsFor φs).2.schemas]
      refine ⟨hopens, List.forall_mem_cons.2 ⟨htable, htables⟩, ?_⟩
      rw [List.filterMap_cons, ← hsteps]
      cases φ.step? (db.stepsFor φs).2.schemas <;> rfl

end StepsFor

/-- Entering a rule into the tables that it scans. -/
theorem opens_foldl_consumers (hwf : db.WellFormed) (k : Nat) (sources : List Nat) :
    Opens db (sources.foldl (fun db table =>
        db.modifyTable table fun t => { t with consumers := t.consumers.push k }) db) ∧
      ∀ i ∈ sources, i < db.tables.size → Consumes (sources.foldl (fun db table =>
        db.modifyTable table fun t => { t with consumers := t.consumers.push k }) db) i k := by
  induction sources generalizing db with
  | nil => exact ⟨Opens.refl hwf, by simp⟩
  | cons i sources ih =>
    set f : Table → Table := fun t => { t with consumers := t.consumers.push k } with hf
    have hopens : Opens db (db.modifyTable i f) :=
      Opens.modifyTable hwf (fun _ => rfl)
        (fun t ht => ⟨ht.length_columns, ht.length_tuple, ht.matching_eq, ht.settled_le, ht.frontier_le⟩)
        (fun _ => rfl) (fun _ => rfl) (fun t => by simp [hf])
    obtain ⟨hrest, hconsumes⟩ := ih hopens.wellFormed
    refine ⟨hopens.trans hrest, fun j hj hlt => ?_⟩
    rcases List.mem_cons.1 hj with rfl | hj
    · refine hrest.consumes j k ⟨f db.tables[j], ?_, by simp [hf]⟩
      rw [getElem?_modifyTable, if_pos rfl, Array.getElem?_eq_getElem hlt]
      rfl
    · exact hconsumes j hj (by simpa [modifyTable] using hlt)

/-! ## Rules -/

/-- A rule is added behind the others, with nothing found for it. -/
theorem addRule_spec (hwf : db.WellFormed) (c : Clause Symbol) :
    ∃ p db', p.clause = c ∧ p.found = .empty ∧ Opens db db' ∧
      db.addRule c = { db' with plans := db'.plans.push p } ∧ (db.addRule c).WellFormed := by
  obtain ⟨hopens1, htables, hsteps⟩ := opens_stepsFor hwf c.body
  obtain ⟨hopens2, htarget⟩ := opens_tableFor hopens1.wellFormed c.head
  set db1 := (db.stepsFor c.body).2
  set db2 := (db1.tableFor c.head).2
  set p : Plan := ⟨c, c.vars, (db.stepsFor c.body).1, (db1.tableFor c.head).1, c.head.slots, .empty⟩
  have hopens3 : Opens db2 (db2.modifyTable p.target fun t =>
      { t with producers := t.producers.push db2.plans.size }) :=
    Opens.modifyTable hopens2.wellFormed (fun _ => rfl)
      (fun t ht => ⟨ht.length_columns, ht.length_tuple, ht.matching_eq, ht.settled_le, ht.frontier_le⟩)
      (fun _ => rfl) (fun _ => rfl) (fun t => List.Subset.refl _)
  set db3 := db2.modifyTable p.target fun t => { t with producers := t.producers.push db2.plans.size }
  obtain ⟨hopens4, hconsumes⟩ := opens_foldl_consumers hopens3.wellFormed db2.plans.size p.sources
  set db4 := p.sources.foldl (fun db table =>
    db.modifyTable table fun t => { t with consumers := t.consumers.push db2.plans.size }) db3
  have hopens14 : Opens db1 db4 := hopens2.trans (hopens3.trans hopens4)
  have hopens : Opens db db4 := hopens1.trans hopens14
  have hplans : db4.plans = db2.plans := hopens4.plans.trans hopens3.plans
  have hadd : db.addRule c = { db4 with plans := db4.plans.push p } := rfl
  have hfits : p.Fits db4.schemas := by
    refine ⟨rfl, fun φ hφ => (htables φ hφ).mono hopens14.schemas, ?_, ?_, rfl⟩
    · refine hsteps.trans (List.filterMap_congr fun φ hφ => ?_)
      exact ((htables φ hφ).step?_eq hopens14.schemas).symm
    · exact OrderedSet.position?_of_prefix (hopens3.trans hopens4).schemas htarget
  refine ⟨p, db4, rfl, rfl, hopens, hadd, ?_⟩
  rw [hadd]
  have hcases : ∀ {k : Nat} {q : Plan}, (db4.plans.push p)[k]? = some q →
      db4.plans[k]? = some q ∨ k = db2.plans.size ∧ q = p := by
    intro k q hq
    rw [Array.getElem?_push] at hq
    split_ifs at hq with hk
    · exact .inr ⟨by rw [hk, hplans], (Option.some.inj hq).symm⟩
    · exact .inl hq
  refine ⟨hopens.wellFormed.schemas, hopens.wellFormed.tables, fun hq => ?_, fun hq i hi => ?_⟩
  · rcases hcases hq with hq | ⟨-, rfl⟩
    · exact hopens.wellFormed.plans hq
    · exact hfits
  · rcases hcases hq with hq | ⟨rfl, rfl⟩
    · exact hopens.wellFormed.consumers hq i hi
    · -- a scan reads an open table, so that the rule was entered there
      obtain ⟨template, htemplate⟩ := Plan.mem_sources_iff.1 hi
      have hpsteps : p.steps = c.body.filterMap (Formula.step? db1.schemas) := hsteps
      rw [hpsteps] at htemplate
      obtain ⟨φ, -, hφ⟩ := List.mem_filterMap.1 htemplate
      obtain ⟨a, -, -, hposition, -⟩ := Formula.step?_eq_scan hφ
      obtain ⟨t, ht, -⟩ := hopens3.wellFormed.position?_iff.1
        (OrderedSet.position?_of_prefix (hopens2.trans hopens3).schemas hposition)
      exact hconsumes i hi (Array.getElem?_eq_some_iff.1 ht).1

/-- The database with the clauses behind those that are there, and the same tuples. -/
structure Adds (db db' : Database) (cs : List (Clause Symbol)) : Prop where
  wellFormed : db'.WellFormed
  facts : db'.facts = db.facts
  rounds : db'.rounds = db.rounds
  schemas : db.schemas.toList <+: db'.schemas.toList
  holds : ∀ a, db'.Holds a ↔ db.Holds a
  frontier : ∀ i tuple, db'.HasTupleUpTo Table.frontier i tuple → db.HasTupleUpTo Table.frontier i tuple
  plans : ∃ ps, db'.plans.toList = db.plans.toList ++ ps ∧ ps.map Plan.clause = cs ∧
    ∀ p ∈ ps, p.found = .empty

theorem adds_foldl_addRule (hwf : db.WellFormed) (cs : List (Clause Symbol)) :
    Adds db (cs.foldl addRule db) cs := by
  induction cs generalizing db with
  | nil => exact ⟨hwf, rfl, rfl, List.prefix_refl _, fun _ => Iff.rfl, fun _ _ h => h, [], by simp⟩
  | cons c cs ih =>
    obtain ⟨p, db', rfl, hfound, hopens, hadd, hwf'⟩ := addRule_spec hwf c
    obtain ⟨hwf'', hfacts, hrounds, hschemas, hholds, hfrontier, ps, hps, hclauses, hempty⟩ := ih hwf'
    rw [List.foldl_cons]
    refine ⟨hwf'', ?_, ?_, ?_, fun a => ?_, fun i tuple h => ?_, p :: ps, ?_,
      by rw [List.map_cons, hclauses], List.forall_mem_cons.2 ⟨hfound, hempty⟩⟩
    · rw [hfacts, hadd]
      exact hopens.facts
    · rw [hrounds, hadd]
      exact hopens.rounds
    · refine List.IsPrefix.trans ?_ hschemas
      rw [hadd]
      exact hopens.schemas
    · rw [hholds, hadd]
      have hiff : db'.Holds a ↔ db.Holds a := hopens.holds_iff hwf
      exact hiff
    · have h' := hfrontier i tuple h
      rw [hadd] at h'
      exact hopens.frontier i tuple h'
    · rw [hps, hadd, Array.toList_push, hopens.plans, List.append_assoc, List.singleton_append]

end Database

/-- The clauses of a formula: a ground fact has none, and a rule has one for each choice. -/
def Formula.clauses : Formula Symbol → List (Clause Symbol)
  | .atom a => if a.isGround then [] else [⟨a, []⟩]
  | .rule head body => (splitDisjunctions body).map fun choice => ⟨head, schedule choice⟩
  | .neg _ | .disj _ => []

theorem Formula.simple_of_mem_clauses {φ : Formula Symbol} (hφ : φ.isSupported = true)
    {c : Clause Symbol} (hc : c ∈ φ.clauses) : ∀ ψ ∈ c.body, ψ.isSimpleLiteral = true := by
  cases φ with
  | atom a =>
    rw [clauses] at hc
    split_ifs at hc
    · simp at hc
    · obtain rfl : c = ⟨a, []⟩ := by simpa using hc
      simp
  | rule head body =>
    obtain ⟨choice, hchoice, rfl⟩ := List.mem_map.1 hc
    intro ψ hψ
    exact all_isSimpleLiteral_of_chooses hφ (mem_splitDisjunctions_iff.1 hchoice) ψ (mem_schedule.1 hψ)
  | neg φ => simp [isSupported] at hφ
  | disj φs => simp [isSupported] at hφ

namespace Database

variable {db db' : Database} {φ : Formula Symbol} {φs : List (Formula Symbol)}

/-- The database with the formulas loaded. -/
structure Loads (db : Database) (φs : List (Formula Symbol)) (db' : Database) : Prop where
  wellFormed : db'.WellFormed
  rounds : db'.rounds = db.rounds
  schemas : db.schemas.toList <+: db'.schemas.toList
  plans : ∃ ps, db'.plans.toList = db.plans.toList ++ ps ∧
    ps.map Plan.clause = φs.flatMap Formula.clauses ∧ ∀ p ∈ ps, p.found = .empty
  facts : ∀ a, a ∈ db'.facts.toList ↔ a ∈ db.facts.toList ∨ .atom a ∈ φs ∧ a.isGround = true
  holds : ∀ a, a.isGround = true → (db'.Holds a ↔ db.Holds a ∨
    ∃ b, .atom b ∈ φs ∧ b.isGround = true ∧ b.canonical = a.canonical)
  frontier : ∀ i tuple, db'.HasTupleUpTo Table.frontier i tuple → db.HasTupleUpTo Table.frontier i tuple

namespace Loads

theorem refl (hwf : db.WellFormed) : Loads db [] db where
  wellFormed := hwf
  rounds := rfl
  schemas := List.prefix_refl _
  plans := ⟨[], by simp⟩
  facts := by simp
  holds := by simp
  frontier _ _ h := h

theorem trans {db1 db2 db3 : Database} {ψs : List (Formula Symbol)} (h1 : Loads db1 φs db2)
    (h2 : Loads db2 ψs db3) : Loads db1 (φs ++ ψs) db3 where
  wellFormed := h2.wellFormed
  rounds := h2.rounds.trans h1.rounds
  schemas := h1.schemas.trans h2.schemas
  plans := by
    obtain ⟨ps, hps, hclauses, hempty⟩ := h1.plans
    obtain ⟨qs, hqs, hclauses', hempty'⟩ := h2.plans
    refine ⟨ps ++ qs, ?_, ?_, List.forall_mem_append.2 ⟨hempty, hempty'⟩⟩
    · rw [hqs, hps, List.append_assoc]
    · rw [List.map_append, hclauses, hclauses', List.flatMap_append]
  facts a := by
    rw [h2.facts, h1.facts, List.mem_append]
    tauto
  holds a ha := by
    rw [h2.holds a ha, h1.holds a ha, or_assoc, ← exists_or]
    refine or_congr_right (exists_congr fun b => ?_)
    rw [List.mem_append]
    tauto
  frontier i tuple h := h1.frontier i tuple (h2.frontier i tuple h)

/-- A formula that is no ground fact becomes clauses. -/
theorem of_adds (hadds : Adds db db' φ.clauses) (hφ : ∀ a, φ = .atom a → a.isGround = false) :
    Loads db [φ] db' := by
  obtain ⟨hwf, hfacts, hrounds, hschemas, hholds, hfrontier, hplans⟩ := hadds
  have hnot : ∀ a : Atom Symbol, a.isGround = true → .atom a ∉ [φ] := by
    intro a ha hmem
    simp [hφ a (List.mem_singleton.1 hmem).symm] at ha
  refine ⟨hwf, hrounds, hschemas, by simpa using hplans, fun a => ?_, fun a _ => ?_, hfrontier⟩
  · rw [hfacts, or_iff_left fun hmem => hnot a hmem.2 hmem.1]
  · rw [hholds, or_iff_left]
    rintro ⟨b, hb, hground, -⟩
    exact hnot b hground hb

/-- A ground fact becomes a tuple. -/
theorem insertFact (hwf : db.WellFormed) {a : Atom Symbol} {i : Nat} (ha : a.isGround = true)
    (hi : db.schemas.position? a.schema = some i) :
    Loads db [.atom a]
      { db.modifyTable i (·.insert a.constants) with facts := db.facts.insert a } := by
  have hwf' := hwf.insert hi (Atom.length_constants ha)
  refine ⟨⟨hwf'.schemas, hwf'.tables, hwf'.plans, hwf'.consumers⟩, rfl, List.prefix_refl _,
    ⟨[], by simp [modifyTable, Formula.clauses, ha]⟩, fun b => ?_, fun b hb => ?_, ?_⟩
  · rw [OrderedSet.mem_toList_insert, List.mem_singleton, Formula.atom.injEq]
    refine or_congr_right ⟨?_, fun h => h.1⟩
    rintro rfl
    exact ⟨rfl, ha⟩
  · have hiff : Holds { db.modifyTable i (·.insert a.constants) with facts := db.facts.insert a } b ↔
        db.Holds b ∨ a.canonical = b.canonical := holds_insert hwf ha hb hi
    rw [hiff]
    refine or_congr_right ⟨fun heq => ⟨a, by simp, ha, heq⟩, ?_⟩
    rintro ⟨c, hc, -, heq⟩
    obtain rfl := Formula.atom.inj (List.mem_singleton.1 hc)
    exact heq
  · rintro j tuple ⟨t', row, ht', hlt, hrow⟩
    obtain ⟨t, ht, rfl | ⟨-, rfl⟩⟩ := getElem?_modifyTable_eq_some ht'
    · exact ⟨t', row, ht, hlt, hrow⟩
    · have hgrows := Table.grows_insert t a.constants
      rw [hgrows.frontier] at hlt
      rw [hgrows.row?_eq (Nat.lt_of_lt_of_le hlt (hwf.tables ht).frontier_le)] at hrow
      exact ⟨t, row, ht, hlt, hrow⟩

/-- Opening tables loads nothing. -/
theorem of_opens (hwf : db.WellFormed) (h : Opens db db') : Loads db [] db' where
  wellFormed := h.wellFormed
  rounds := h.rounds
  schemas := h.schemas
  plans := ⟨[], by simp [h.plans]⟩
  facts := by simp [h.facts]
  holds a _ := by simp [h.holds_iff hwf]
  frontier := h.frontier

/-- One formula. -/
theorem of_loadFormula (hwf : db.WellFormed) (hload : db.loadFormula φ = (db', none)) :
    Loads db [φ] db' := by
  cases φ with
  | neg φ => simp [Database.loadFormula] at hload
  | disj φs => simp [Database.loadFormula] at hload
  | rule head body =>
    refine of_adds ?_ (by simp)
    obtain rfl : _ = db' := congrArg Prod.fst hload
    have hadds := adds_foldl_addRule hwf (Formula.rule head body).clauses
    rwa [Formula.clauses, List.foldl_map] at hadds
  | atom a =>
    rw [Database.loadFormula] at hload
    split_ifs at hload with ha
    · obtain ⟨hopens, hi⟩ := opens_tableFor hwf a
      set i := (db.tableFor a).1
      set db1 := (db.tableFor a).2
      have hdb' : db' = { db1.modifyTable i (·.insert a.constants) with
          facts := db1.facts.insert a } := by
        simp only [insert] at hload
        cases hover : (db1.modifyTable i (·.insert a.constants)).overflow? i with
        | none =>
          rw [hover] at hload
          exact (congrArg Prod.fst hload).symm
        | some e =>
          rw [hover] at hload
          exact absurd (congrArg Prod.snd hload) (by simp)
      subst hdb'
      exact (of_opens hwf hopens).trans (insertFact hopens.wellFormed ha hi)
    · obtain rfl : _ = db' := congrArg Prod.fst hload
      refine of_adds ?_ (by rintro b ⟨rfl⟩; simpa using ha)
      have hadds := adds_foldl_addRule hwf (Formula.atom a).clauses
      rwa [Formula.clauses, if_neg ha] at hadds ⊢

end Loads

/-- What loading does to a database. -/
theorem loads_of_load (hwf : db.WellFormed) (hload : db.load φs = (db', none)) : Loads db φs db' := by
  induction φs generalizing db with
  | nil =>
    obtain rfl : db = db' := congrArg Prod.fst hload
    exact Loads.refl hwf
  | cons φ φs ih =>
    obtain ⟨db1, hstep, hrest⟩ := runAll_cons_ok.1 hload
    have h1 := Loads.of_loadFormula hwf hstep
    exact h1.trans (ih h1.wellFormed hrest)

/-- The formulas, facts and rules over literals, were loaded into a fresh database, and nothing was done
since. -/
structure Loaded (φs : List (Formula Symbol)) (db : Database) : Prop where
  supported : ∀ φ ∈ φs, φ.isSupported = true
  loads : ∃ limit, Loads (empty limit) φs db

/-- What is in a fresh database after loading. -/
theorem loaded_of_load (hφs : ∀ φ ∈ φs, φ.isSupported = true) {limit : Option Nat}
    (h : (empty limit).load φs = (db, none)) : Loaded φs db :=
  ⟨hφs, limit, loads_of_load (wellFormed_empty limit) h⟩

end Database

end GameCircuit
