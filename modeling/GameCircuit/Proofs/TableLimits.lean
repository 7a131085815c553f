import GameCircuit.Grounding.Emission
import GameCircuit.Proofs.Loading

/-!
# Limits on tables

A database may limit how many tuples a table holds.  The limit is looked at right after a tuple is put into a table and
nowhere else, so a run under a limit does what the run without one does until a table outgrows the limit, and then it
fails.  Tables never shrink: a table that outgrew the limit on the way is over it at the end of the run without one.

`Cut` is this relation between what two such runs return, and `Limitable` says that an operation keeps it, next to what
is needed to go on after it.  Sequences of such operations are `Limitable` too, and so loading and saturation are.
-/

namespace GameCircuit

namespace Database

variable {db : Database} {L : Nat} {relation : Symbol} {f g : Database → Database × Option CompileError}
  {h h' : Database → Database}

/-- A table of the relation holds more tuples than the limit admits. -/
def Overfull (L : Nat) (relation : Symbol) (db : Database) : Prop :=
  ∃ t ∈ db.tables, t.schema.relation = relation ∧ L < t.size

/-- The same tables and rules under another limit. -/
def withLimit (limit : Option Nat) (db : Database) : Database := { db with limit := limit }

theorem forall_not_overfull_iff : (∀ relation, ¬ db.Overfull L relation) ↔ ∀ t ∈ db.tables, t.size ≤ L := by
  constructor
  · exact fun hfits t ht => Nat.le_of_not_lt fun hlt => hfits _ ⟨t, ht, rfl, hlt⟩
  · rintro hfits relation ⟨t, ht, -, hlt⟩
    exact absurd (hfits t ht) (Nat.not_le.2 hlt)

/-- What a run without a limit returns, against what the run under the limit does. -/
inductive Cut (L : Nat) (free : Database × Option CompileError) : Database × Option CompileError → Prop
  /-- No table is over the limit, and the limit makes no difference. -/
  | same (hfits : ∀ relation, ¬ free.1.Overfull L relation) : Cut L free (free.1.withLimit (some L), free.2)
  /-- A table is over the limit, and the run under it stopped there. -/
  | stopped {db : Database} {relation : Symbol} (hover : free.1.Overfull L relation) :
    Cut L free (db, some (.domainLimitExceeded relation L))

/-- An operation that a limit can only cut off, on this database. -/
structure Limitable (f : Database → Database × Option CompileError) (db : Database) : Prop where
  /-- The limit is kept. -/
  limit : (f db).1.limit = db.limit
  /-- What is over the limit stays so. -/
  overfull {L : Nat} {relation : Symbol} : db.Overfull L relation → (f db).1.Overfull L relation
  /-- On tables within the limit, it does under the limit what it does without one, unless it is cut off. -/
  cut {L : Nat} : db.limit = none → (∀ relation, ¬ db.Overfull L relation) →
    Cut L (f db) (f (db.withLimit (some L)))

theorem Limitable.congr (hg : Limitable g db) (hfree : f db = g db)
    (hlimited : ∀ limit, f (db.withLimit limit) = g (db.withLimit limit)) : Limitable f db where
  limit := by
    rw [hfree]
    exact hg.limit
  overfull hover := by
    rw [hfree]
    exact hg.overfull hover
  cut hlimit hfits := by
    rw [hfree, hlimited]
    exact hg.cut hlimit hfits

/-- Nothing to do is not cut off. -/
theorem limitable_idle (e : Option CompileError) (db : Database) : Limitable (·, e) db :=
  ⟨rfl, id, fun _ hfits => .same hfits⟩

/-- Does the one and then, if it succeeded, the other. -/
def andThen (f g : Database → Database × Option CompileError) (db : Database) : Database × Option CompileError :=
  match f db with
  | (db, none) => g db
  | (db, some e) => (db, some e)

theorem andThen_of_ok {db' : Database} (hf : f db = (db', none)) : andThen f g db = g db' := by
  rw [andThen, hf]

theorem andThen_of_error {db' : Database} {e : CompileError} (hf : f db = (db', some e)) :
    andThen f g db = (db', some e) := by
  rw [andThen, hf]

theorem Limitable.andThen (hf : Limitable f db) (hg : ∀ db', Limitable g db') : Limitable (andThen f g) db := by
  rcases hrun : f db with ⟨db', _ | e⟩
  · have hlimit : db'.limit = db.limit := by simpa [hrun] using hf.limit
    have hover : ∀ {L relation}, db.Overfull L relation → db'.Overfull L relation := by
      intro L relation ho
      simpa [hrun] using hf.overfull ho
    refine ⟨?_, fun ho => ?_, fun {L} hnone hfits => ?_⟩
    · rw [andThen_of_ok hrun]
      exact (hg db').limit.trans hlimit
    · rw [andThen_of_ok hrun]
      exact (hg db').overfull (hover ho)
    · rw [andThen_of_ok hrun]
      have hcut := hf.cut hnone hfits
      rw [hrun] at hcut
      -- A run that was cut off in the first part left a table that only grows in the second.
      cases hlimited : f (db.withLimit (some L)) with
      | mk db1 e =>
        rw [hlimited] at hcut
        cases hcut with
        | same hfits' =>
          rw [andThen_of_ok hlimited]
          exact (hg db').cut (hlimit.trans hnone) hfits'
        | stopped ho =>
          rw [andThen_of_error hlimited]
          exact .stopped ((hg db').overfull ho)
  · have hresult : Database.andThen f g db = f db := (andThen_of_error hrun).trans hrun.symm
    refine ⟨hresult ▸ hf.limit, fun ho => hresult ▸ hf.overfull ho, fun {L} hnone hfits => ?_⟩
    have hcut := hf.cut hnone hfits
    rw [hresult, hrun]
    rw [hrun] at hcut
    cases hlimited : f (db.withLimit (some L)) with
    | mk db1 e' =>
      rw [hlimited] at hcut
      cases hcut with
      | same hfits' =>
        rw [andThen_of_error hlimited]
        exact .same hfits'
      | stopped ho =>
        rw [andThen_of_error hlimited]
        exact .stopped ho

section RunAll

variable {α : Type} {step : Database → α → Database × Option CompileError}

theorem runAll_cons_eq (db : Database) (a : α) (as : List α) :
    runAll step db (a :: as) = andThen (step · a) (runAll step · as) db := by
  rcases hrun : step db a with ⟨db', _ | e⟩
  · rw [runAll, hrun, andThen_of_ok hrun]
  · rw [runAll, hrun, andThen_of_error hrun]

theorem limitable_runAll (hstep : ∀ a db, Limitable (step · a) db) (as : List α) (db : Database) :
    Limitable (runAll step · as) db := by
  induction as generalizing db with
  | nil => exact limitable_idle none db
  | cons a as ih =>
    exact ((hstep a db).andThen ih).congr (runAll_cons_eq db a as) fun limit => runAll_cons_eq _ a as

end RunAll

/-! ## Operations that no limit concerns -/

/-- A change that does not depend on the limit and adds no tuple. -/
structure Neutral (h : Database → Database) : Prop where
  /-- The limit is not looked at. -/
  withLimit (limit : Option Nat) (db : Database) : h (db.withLimit limit) = (h db).withLimit limit
  /-- No tuple is added or lost. -/
  overfull (L : Nat) (relation : Symbol) (db : Database) : (h db).Overfull L relation ↔ db.Overfull L relation

namespace Neutral

theorem limit (hh : Neutral h) (db : Database) : (h db).limit = db.limit := by
  have heq : h db = (h db).withLimit db.limit := hh.withLimit db.limit db
  rw [heq]
  rfl

theorem comp (hh : Neutral h) (hh' : Neutral h') : Neutral fun db => h' (h db) where
  withLimit limit db := by rw [hh.withLimit, hh'.withLimit]
  overfull L relation db := (hh'.overfull L relation _).trans (hh.overfull L relation db)

theorem foldl {α : Type} {step : Database → α → Database} (hstep : ∀ a, Neutral (step · a)) (as : List α) :
    Neutral (as.foldl step ·) := by
  induction as with
  | nil => exact ⟨fun _ _ => rfl, fun _ _ _ => Iff.rfl⟩
  | cons a as ih => exact (hstep a).comp ih

theorem limitable_comp (hh : Neutral h) (hf : Limitable f (h db)) : Limitable (fun db => f (h db)) db where
  limit := hf.limit.trans (hh.limit db)
  overfull hover := hf.overfull ((hh.overfull _ _ db).2 hover)
  cut hlimit hfits := by
    rw [hh.withLimit]
    exact hf.cut ((hh.limit db).trans hlimit) fun relation => (hh.overfull _ relation db).not.2 (hfits relation)

theorem limitable (hh : Neutral h) (db : Database) : Limitable (fun db => (h db, none)) db :=
  hh.limitable_comp (limitable_idle none (h db))

theorem modifyTable (i : Nat) {change : Table → Table} (hschema : ∀ t, (change t).schema = t.schema)
    (hsize : ∀ t, (change t).size = t.size) : Neutral (·.modifyTable i change) where
  withLimit _ _ := rfl
  overfull L relation db := by
    constructor
    · rintro ⟨t', ht', hrelation, hlt⟩
      obtain ⟨j, hj⟩ := Array.mem_iff_getElem?.1 ht'
      obtain ⟨t, ht, rfl | ⟨-, rfl⟩⟩ := getElem?_modifyTable_eq_some hj
      · exact ⟨t', Array.mem_of_getElem? ht, hrelation, hlt⟩
      · exact ⟨t, Array.mem_of_getElem? ht, hschema t ▸ hrelation, hsize t ▸ hlt⟩
    · rintro ⟨t, ht, hrelation, hlt⟩
      obtain ⟨j, hj⟩ := Array.mem_iff_getElem?.1 ht
      obtain ⟨t', ht', rfl | ⟨-, rfl⟩⟩ := exists_getElem?_modifyTable (i := i) (f := change) hj
      · exact ⟨t', Array.mem_of_getElem? ht', hrelation, hlt⟩
      · exact ⟨_, Array.mem_of_getElem? ht', (hschema t).symm ▸ hrelation, (hsize t).symm ▸ hlt⟩

end Neutral

theorem tableFor_withLimit (limit : Option Nat) (db : Database) (a : Atom Symbol) :
    (db.withLimit limit).tableFor a = ((db.tableFor a).1, (db.tableFor a).2.withLimit limit) := by
  unfold tableFor
  split
  · rename_i i hi
    split
    · rename_i j hj
      obtain rfl : i = j := Option.some.inj (hi.symm.trans hj)
      rfl
    · rename_i hnone
      cases hi.symm.trans hnone
  · rename_i hnone
    split
    · rename_i i hi
      cases hnone.symm.trans hi
    · rfl

theorem neutral_tableFor (a : Atom Symbol) : Neutral fun db => (db.tableFor a).2 where
  withLimit limit db := by rw [tableFor_withLimit]
  overfull L relation db := by
    unfold tableFor
    split
    · exact Iff.rfl
    · constructor
      · rintro ⟨t, ht, hrelation, hlt⟩
        rcases Array.mem_push.1 ht with hold | rfl
        · exact ⟨t, hold, hrelation, hlt⟩
        · exact absurd hlt (Nat.not_lt_zero L)
      · rintro ⟨t, ht, hrelation, hlt⟩
        exact ⟨t, Array.mem_push_of_mem _ ht, hrelation, hlt⟩

theorem stepsFor_withLimit (limit : Option Nat) (db : Database) (φs : List (Formula Symbol)) :
    (db.withLimit limit).stepsFor φs = ((db.stepsFor φs).1, (db.stepsFor φs).2.withLimit limit) := by
  induction φs generalizing db with
  | nil => rfl
  | cons φ φs ih =>
    by_cases hscan : ∃ a, φ = .atom a ∧ a.relation ≠ Keyword.distinct
    · obtain ⟨a, rfl, hd⟩ := hscan
      rw [stepsFor_cons_atom hd, stepsFor_cons_atom hd, tableFor_withLimit, ih]
    · rw [stepsFor_cons_of_not_scan hscan db.schemas, stepsFor_cons_of_not_scan hscan db.schemas, ih]

theorem neutral_stepsFor (φs : List (Formula Symbol)) : Neutral fun db => (db.stepsFor φs).2 where
  withLimit limit db := by rw [stepsFor_withLimit]
  overfull L relation db :=
    stepsFor_induction (P := fun db' => db'.Overfull L relation ↔ db.Overfull L relation)
      (fun db' a h => ((neutral_tableFor a).overfull L relation db').trans h) Iff.rfl φs

/-- Entering a rule into the table that it adds to and into those that it reads. -/
theorem neutral_entries (target number : Nat) (sources : List Nat) : Neutral fun db =>
    sources.foldl (fun db table => db.modifyTable table fun t => { t with consumers := t.consumers.push number })
      (db.modifyTable target fun t => { t with producers := t.producers.push number }) := by
  have hproducer : Neutral fun db : Database =>
      db.modifyTable target fun t => { t with producers := t.producers.push number } :=
    .modifyTable target (fun _ => rfl) fun _ => rfl
  have hconsumer : ∀ table, Neutral fun db : Database =>
      db.modifyTable table fun t => { t with consumers := t.consumers.push number } :=
    fun table => .modifyTable table (fun _ => rfl) fun _ => rfl
  exact hproducer.comp (.foldl hconsumer sources)

theorem neutral_addRule (c : Clause Symbol) : Neutral (·.addRule c) where
  withLimit limit db := by
    unfold addRule
    rw [stepsFor_withLimit]
    dsimp only
    rw [tableFor_withLimit]
    set db1 := (db.stepsFor c.body).2
    set p : Plan := ⟨c, c.vars, (db.stepsFor c.body).1, (db1.tableFor c.head).1, c.head.slots, .empty⟩
    exact congrArg (fun db : Database => { db with plans := db.plans.push p })
      ((neutral_entries p.target (db1.tableFor c.head).2.plans.size p.sources).withLimit limit _)
  overfull L relation db := by
    set db1 := (db.stepsFor c.body).2
    set db2 := (db1.tableFor c.head).2
    set p : Plan := ⟨c, c.vars, (db.stepsFor c.body).1, (db1.tableFor c.head).1, c.head.slots, .empty⟩
    have hentries := (neutral_entries p.target db2.plans.size p.sources).overfull L relation db2
    exact hentries.trans (((neutral_stepsFor c.body).comp (neutral_tableFor c.head)).overfull L relation db)

/-! ## Operations that are cut off -/

theorem overfull_insert (hover : db.Overfull L relation) (i : Nat) (tuple : List Symbol) :
    (db.modifyTable i (·.insert tuple)).Overfull L relation := by
  obtain ⟨t, ht, hrelation, hlt⟩ := hover
  obtain ⟨j, hj⟩ := Array.mem_iff_getElem?.1 ht
  obtain ⟨t', ht', rfl | ⟨-, rfl⟩⟩ := exists_getElem?_modifyTable (i := i) (f := (·.insert tuple)) hj
  · exact ⟨t', Array.mem_of_getElem? ht', hrelation, hlt⟩
  · have hgrows := Table.grows_insert t tuple
    exact ⟨_, Array.mem_of_getElem? ht', hgrows.schema ▸ hrelation, Nat.lt_of_lt_of_le hlt hgrows.size_le⟩

theorem overflow?_of_none {i : Nat} (L : Nat) (hi : db.tables[i]? = none) :
    (db.withLimit (some L)).overflow? i = none := by
  rw [overflow?, show (db.withLimit (some L)).tables[i]? = none from hi]
  rfl

theorem overflow?_of_some {i : Nat} {t : Table} (L : Nat) (hi : db.tables[i]? = some t) :
    (db.withLimit (some L)).overflow? i =
      if L < t.size then some (.domainLimitExceeded t.schema.relation L) else none := by
  rw [overflow?, show (db.withLimit (some L)).tables[i]? = some t from hi]
  rfl

/-- Only the table that a tuple is put into can come to be over the limit. -/
theorem limitable_insert (i : Nat) (tuple : List Symbol) (db : Database) : Limitable (·.insert i tuple) db where
  limit := rfl
  overfull hover := overfull_insert hover i tuple
  cut {L} hlimit hfits := by
    set db1 := db.modifyTable i (·.insert tuple) with hdb1
    have hfree : db.insert i tuple = (db1, none) := by
      rw [insert, overflow?, show (db.modifyTable i (·.insert tuple)).limit = none from hlimit]
    have hlimited : (db.withLimit (some L)).insert i tuple =
        (db1.withLimit (some L), (db1.withLimit (some L)).overflow? i) := rfl
    have hothers : ∀ t ∈ db1.tables, (∀ t', db1.tables[i]? = some t' → t'.size ≤ L) → t.size ≤ L := by
      intro t ht hchanged
      obtain ⟨j, hj⟩ := Array.mem_iff_getElem?.1 ht
      obtain ⟨t', ht', rfl | ⟨rfl, -⟩⟩ := getElem?_modifyTable_eq_some hj
      · exact forall_not_overfull_iff.1 hfits t (Array.mem_of_getElem? ht')
      · exact hchanged t hj
    rw [hfree, hlimited]
    cases hi : db1.tables[i]? with
    | none =>
      rw [overflow?_of_none L hi]
      exact .same (forall_not_overfull_iff.2 fun t ht => hothers t ht (by simp [hi]))
    | some t =>
      rw [overflow?_of_some L hi]
      split_ifs with hlt
      · exact .stopped ⟨t, Array.mem_of_getElem? hi, rfl, hlt⟩
      · refine .same (forall_not_overfull_iff.2 fun t' ht' => hothers t' ht' ?_)
        intro t'' ht''
        obtain rfl : t = t'' := Option.some.inj (hi.symm.trans ht'')
        exact Nat.le_of_not_lt hlt

theorem limitable_loadFormula (φ : Formula Symbol) (db : Database) : Limitable (·.loadFormula φ) db := by
  cases φ with
  | atom a =>
    by_cases hground : a.isGround = true
    · have hneutral : Neutral fun db : Database => { db with facts := db.facts.insert a } :=
        ⟨fun _ _ => rfl, fun _ _ _ => Iff.rfl⟩
      have hload : ∀ db' : Database, db'.loadFormula (.atom a) = andThen
          (fun db => (db.tableFor a).2.insert (db'.tableFor a).1 a.constants)
          (fun db => ({ db with facts := db.facts.insert a }, none)) db' := by
        intro db'
        rw [loadFormula, if_pos hground]
        dsimp only
        rcases hinsert : (db'.tableFor a).2.insert (db'.tableFor a).1 a.constants with ⟨db1, _ | e⟩
        · rw [andThen_of_ok hinsert]
        · rw [andThen_of_error hinsert]
      refine Limitable.congr (((neutral_tableFor a).limitable_comp (limitable_insert (db.tableFor a).1 a.constants _)).andThen
        hneutral.limitable) (hload db) fun limit => ?_
      rw [hload, tableFor_withLimit]
    · exact ((neutral_addRule ⟨a, []⟩).limitable db).congr (if_neg hground) fun _ => if_neg hground
  | rule head body =>
    exact (Neutral.foldl (fun body => neutral_addRule ⟨head, schedule body⟩) (splitDisjunctions body)).limitable db
  | neg φ => exact limitable_idle _ db
  | disj φs => exact limitable_idle _ db

theorem limitable_fire (rule : Nat) (values : List Symbol) (db : Database) : Limitable (fire rule · values) db := by
  cases hp : db.plans[rule]? with
  | none =>
    refine (limitable_idle none db).congr ?_ fun limit => ?_
    · rw [fire, hp]
    · rw [fire, show (db.withLimit limit).plans[rule]? = none from hp]
  | some p =>
    by_cases hfound : p.found.contains values = true
    · refine (limitable_idle none db).congr ?_ fun limit => ?_
      · simp only [fire, hp, if_pos hfound]
      · simp only [fire, show (db.withLimit limit).plans[rule]? = some p from hp, if_pos hfound]
    · have hneutral : Neutral fun db : Database => { db with plans := db.plans.modify rule (·.record values) } :=
        ⟨fun _ _ => rfl, fun _ _ _ => Iff.rfl⟩
      refine (hneutral.limitable_comp (limitable_insert p.target (p.produce values) _)).congr ?_ fun limit => ?_
      · simp only [fire, hp, if_neg hfound]
      · simp only [fire, show (db.withLimit limit).plans[rule]? = some p from hp, if_neg hfound]

theorem limitable_fireAll (rule : Nat) (db : Database) : Limitable (fireAll · rule) db := by
  cases hp : db.plans[rule]? with
  | none =>
    refine (limitable_idle none db).congr ?_ fun limit => ?_
    · rw [fireAll, hp]
    · rw [fireAll, show (db.withLimit limit).plans[rule]? = none from hp]
  | some p =>
    cases hfound : db.instances p with
    | error e =>
      refine (limitable_idle (some e) db).congr ?_ fun limit => ?_
      · simp only [fireAll, hp, hfound]
      · simp only [fireAll, show (db.withLimit limit).plans[rule]? = some p from hp,
          show (db.withLimit limit).instances p = .error e from hfound]
    | ok found =>
      refine (limitable_runAll (limitable_fire rule) found db).congr ?_ fun limit => ?_
      · simp only [fireAll, hp, hfound]
      · simp only [fireAll, show (db.withLimit limit).plans[rule]? = some p from hp,
          show (db.withLimit limit).instances p = .ok found from hfound]

theorem neutral_advance : Neutral advance where
  withLimit _ _ := rfl
  overfull L relation db := by
    constructor
    · rintro ⟨t', ht', hrelation, hlt⟩
      obtain ⟨t, ht, rfl⟩ := List.mem_map.1 (List.mem_toArray.1 ht')
      exact ⟨t, Array.mem_toList_iff.1 ht, hrelation, hlt⟩
    · rintro ⟨t, ht, hrelation, hlt⟩
      exact ⟨t.advance, List.mem_toArray.2 (List.mem_map_of_mem (Array.mem_toList_iff.2 ht)), hrelation, hlt⟩

theorem saturateUpTo_succ_eq {rule : Nat} {rules : List Nat} (fuel : Nat)
    (hpending : db.advance.pending = rule :: rules) :
    saturateUpTo (fuel + 1) db = andThen (fun db => runAll fireAll db.advance (rule :: rules))
      (fun db => saturateUpTo fuel { db with rounds := db.rounds + 1 }) db := by
  rw [saturateUpTo, hpending]
  rcases hrun : runAll fireAll db.advance (rule :: rules) with ⟨db1, _ | e⟩
  · rw [andThen_of_ok hrun]
    simp only [hrun]
  · rw [andThen_of_error hrun]
    simp only [hrun]

theorem limitable_saturateUpTo (fuel : Nat) (db : Database) : Limitable (saturateUpTo fuel) db := by
  induction fuel generalizing db with
  | zero => exact limitable_idle none db
  | succ fuel ih =>
    cases hpending : db.advance.pending with
    | nil =>
      refine (neutral_advance.limitable db).congr ?_ fun limit => ?_
      · simp only [saturateUpTo, hpending]
      · simp only [saturateUpTo, show (db.withLimit limit).advance.pending = [] from hpending]
    | cons rule rules =>
      have hround := neutral_advance.limitable_comp (limitable_runAll limitable_fireAll (rule :: rules) db.advance)
      have hcount : Neutral fun db : Database => { db with rounds := db.rounds + 1 } :=
        ⟨fun _ _ => rfl, fun _ _ _ => Iff.rfl⟩
      exact (hround.andThen fun db' => hcount.limitable_comp (ih _)).congr (saturateUpTo_succ_eq fuel hpending)
        fun limit => saturateUpTo_succ_eq fuel hpending

theorem limitable_saturate (db : Database) : Limitable saturate db :=
  (limitable_saturateUpTo (db.capacity + 2) db).congr rfl fun _ => rfl

theorem ground_eq (db : Database) (φs : List (Formula Symbol)) :
    db.ground φs = ((andThen (·.load φs) saturate db).1,
      (andThen (·.load φs) saturate db).2.elim (andThen (·.load φs) saturate db).1.emit .error) := by
  rw [ground]
  rcases hload : db.load φs with ⟨db1, _ | e⟩
  · rw [andThen_of_ok hload]
    simp only
    rcases db1.saturate with ⟨db2, _ | e⟩ <;> rfl
  · rw [andThen_of_error hload]
    rfl

/-- What a description is ground to under a limit: if the tables that it has without one are all within the limit, the
same to the last detail, and otherwise the error that one of them is not.  Under a limit it comes to tables within the
limit or to an error. -/
theorem ground_limited_eq_or_exceeded (φs : List (Formula Symbol)) (L : Nat) :
    let free := (empty none).ground φs
    let limited := (empty (some L)).ground φs
    ((∀ t ∈ free.1.tables, t.size ≤ L) → limited = ({ free.1 with limit := some L }, free.2)) ∧
    ((∃ t ∈ free.1.tables, L < t.size) → ∃ t ∈ free.1.tables, L < t.size ∧
      limited.2 = .error (.domainLimitExceeded t.schema.relation L)) ∧
    (∀ G, limited.2 = .ok G → ∀ t ∈ limited.1.tables, t.size ≤ L) := by
  intro free limited
  have hrun : Limitable (andThen (·.load φs) saturate) (empty none) :=
    (limitable_runAll limitable_loadFormula φs _).andThen limitable_saturate
  have hcut : Cut L (andThen (·.load φs) saturate (empty none)) (andThen (·.load φs) saturate (empty (some L))) :=
    hrun.cut rfl (forall_not_overfull_iff.2 fun t ht => by simp [empty] at ht)
  have hfree : free = _ := ground_eq (empty none) φs
  have hlimited : limited = _ := ground_eq (empty (some L)) φs
  generalize andThen (·.load φs) saturate (empty none) = x at hcut hfree
  generalize andThen (·.load φs) saturate (empty (some L)) = y at hcut hlimited
  cases hcut with
  | same hfits =>
    have hsizes : ∀ t ∈ free.1.tables, t.size ≤ L := by
      rw [hfree]
      exact forall_not_overfull_iff.1 hfits
    have heq : limited = ({ free.1 with limit := some L }, free.2) := by
      rw [hlimited, hfree]
      rfl
    refine ⟨fun _ => heq, ?_, fun G _ => ?_⟩
    · rintro ⟨t, ht, hlt⟩
      exact absurd (hsizes t ht) (Nat.not_le.2 hlt)
    · rw [heq]
      exact hsizes
  | stopped hover =>
    obtain ⟨t, ht, rfl, hlt⟩ := hover
    have hmem : t ∈ free.1.tables := by
      rw [hfree]
      exact ht
    have hfails : limited.2 = .error (.domainLimitExceeded t.schema.relation L) := by
      rw [hlimited]
      rfl
    refine ⟨fun hsizes => absurd (hsizes t hmem) (Nat.not_le.2 hlt), fun _ => ⟨t, hmem, hlt, hfails⟩, fun G hG => ?_⟩
    cases hfails.symm.trans hG

/-- Three cards, and all pairs of them. -/
def pairs : List (Formula Symbol) :=
  let card (t : Term Symbol) : Formula Symbol := .atom ⟨⟨15⟩, [t]⟩
  let pair (s t : Term Symbol) : Atom Symbol := ⟨⟨16⟩, [s, t]⟩
  let x : Term Symbol := .var ⟨17⟩
  let y : Term Symbol := .var ⟨14⟩
  [card (.const ⟨20⟩), card (.const ⟨21⟩), card (.const ⟨22⟩), .rule (pair x y) [card x, card y]]

/-- A limit of nine lets the pairs through, and one of eight cuts them off. -/
theorem ground_limited_eq_or_exceeded_pairs :
    ((empty none).ground pairs).2.toOption.map List.length = some 12 ∧
      ((empty (some 9)).ground pairs).2 = ((empty none).ground pairs).2 ∧
      ∃ relation, ((empty (some 8)).ground pairs).2 = .error (.domainLimitExceeded relation 8) := by
  refine ⟨by decide +kernel, ?_, ?_⟩
  · rw [(ground_limited_eq_or_exceeded pairs 9).1 (by decide +kernel)]
  · obtain ⟨t, -, -, hfails⟩ := (ground_limited_eq_or_exceeded pairs 8).2.1 (by decide +kernel)
    exact ⟨_, hfails⟩

end Database

end GameCircuit
