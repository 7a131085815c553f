import GameCircuit.Proofs.GroundProgram

/-!
# Descriptions that are loaded in batches

A database may be saturated, and then more formulas loaded and saturation resumed.  Facts that come late
meet every rule, as they are new in their tables.  A rule that comes after the first round meets only
tuples that are found after it, so that its instances among the earlier ones are missed.  If there are no
such instances (`Database.OnTime`), the batches together leave what the whole description does.
-/

namespace GameCircuit

/-! ## The tables that formulas open -/

/-- The schema of the table that a literal reads, if it reads one. -/
def Formula.schema? : Formula Symbol → Option Schema
  | .atom a => if a.relation = Keyword.distinct then none else some a.schema
  | _ => none

/-- The schemas of the tables that a rule reads, and of the one that it adds to. -/
def Clause.schemas (c : Clause Symbol) : List Schema := c.body.filterMap Formula.schema? ++ [c.head.schema]

/-- The schemas of the tables of a formula. -/
def Formula.schemas : Formula Symbol → List Schema
  | .atom a => [a.schema]
  | φ => φ.clauses.flatMap Clause.schemas

namespace Database

variable {db db' : Database} {φ : Formula Symbol} {φs ψs : List (Formula Symbol)}

theorem schemas_stepsFor (db : Database) (φs : List (Formula Symbol)) :
    (db.stepsFor φs).2.schemas = (φs.filterMap Formula.schema?).foldl .insert db.schemas := by
  induction φs generalizing db with
  | nil => rfl
  | cons φ φs ih =>
    rw [List.filterMap_cons]
    by_cases hscan : ∃ a, φ = .atom a ∧ a.relation ≠ Keyword.distinct
    · obtain ⟨a, rfl, hd⟩ := hscan
      rw [stepsFor_cons_atom hd, Formula.schema?, if_neg hd, List.foldl_cons, ← schemas_tableFor, ← ih]
    · have hnone : φ.schema? = none := by
        cases φ with
        | atom a => exact if_pos (not_not.1 fun hne => hscan ⟨a, rfl, hne⟩)
        | _ => rfl
      rw [stepsFor_cons_of_not_scan hscan db.schemas, hnone]
      exact ih db

theorem schemas_addRule (db : Database) (c : Clause Symbol) :
    (db.addRule c).schemas = c.schemas.foldl .insert db.schemas := by
  have hfoldl : ∀ (sources : List Nat) (f : Table → Table) (db : Database),
      (sources.foldl (fun db table => db.modifyTable table f) db).schemas = db.schemas := by
    intro sources f
    induction sources with
    | nil => exact fun _ => rfl
    | cons i sources ih => exact fun db => ih (db.modifyTable i f)
  rw [Clause.schemas, List.foldl_append, ← schemas_stepsFor, List.foldl_cons, List.foldl_nil,
    ← schemas_tableFor]
  exact hfoldl _ _ _

theorem schemas_foldl_addRule (db : Database) (cs : List (Clause Symbol)) :
    (cs.foldl addRule db).schemas = (cs.flatMap Clause.schemas).foldl .insert db.schemas := by
  induction cs generalizing db with
  | nil => rfl
  | cons c cs ih => rw [List.foldl_cons, ih, schemas_addRule, List.flatMap_cons, List.foldl_append]

theorem schemas_loadFormula (hload : db.loadFormula φ = (db', none)) :
    db'.schemas = φ.schemas.foldl .insert db.schemas := by
  cases φ with
  | neg φ => simp [loadFormula] at hload
  | disj φs => simp [loadFormula] at hload
  | rule head body =>
    obtain rfl : _ = db' := congrArg Prod.fst hload
    have hfoldl := schemas_foldl_addRule db (Formula.rule head body).clauses
    rwa [Formula.clauses, List.foldl_map] at hfoldl
  | atom a =>
    rw [loadFormula] at hload
    split_ifs at hload
    · simp only [insert] at hload
      rw [Formula.schemas, List.foldl_cons, List.foldl_nil, ← schemas_tableFor]
      split at hload
      · rename_i db1 hinsert
        obtain ⟨rfl, -⟩ := Prod.mk.inj hinsert
        obtain ⟨rfl, -⟩ := Prod.mk.inj hload
        rfl
      · simp at hload
    · obtain rfl : _ = db' := congrArg Prod.fst hload
      rw [schemas_addRule]
      rfl

/-- Which tables are open, and their order, is given by the formulas that were loaded. -/
theorem schemas_load (hload : db.load φs = (db', none)) :
    db'.schemas = (φs.flatMap Formula.schemas).foldl .insert db.schemas := by
  induction φs generalizing db with
  | nil =>
    obtain rfl : db = db' := congrArg Prod.fst hload
    rfl
  | cons φ φs ih =>
    obtain ⟨db1, hstep, hrest⟩ := runAll_cons_ok.1 hload
    rw [ih hrest, schemas_loadFormula hstep, List.flatMap_cons, List.foldl_append]

/-! ## Resuming saturation -/

/-- Loads formulas and fires the rules. -/
def extend (db : Database) (φs : List (Formula Symbol)) : Database × Option CompileError :=
  match db.load φs with
  | (db, none) => db.saturate
  | (db, some e) => (db, some e)

theorem extend_eq_ok : db.extend φs = (db', none) ↔
    ∃ loaded, db.load φs = (loaded, none) ∧ loaded.saturate = (db', none) := by
  unfold extend
  rcases db.load φs with ⟨loaded, _ | e⟩
  · simp
  · simp

/-- No rule that comes after the first round could have fired on what was there before it.  The batches
are loaded one after another, with saturation after each. -/
def OnTime (db : Database) : List (List (Formula Symbol)) → Prop
  | [] => True
  | batch :: batches =>
    (db.rounds = 0 ∨ ∀ c ∈ batch.flatMap Formula.clauses, ∀ σ, ¬ c.MayFire {a | db.Holds a} σ) ∧
      (db.extend batch).1.OnTime batches

/-- What loading leaves before a frontier was there before. -/
theorem Loads.holds_of_holdsUpTo {loaded : Database} (h : Loads db ψs loaded) (hwf : db.WellFormed)
    {a : Atom Symbol} (ha : loaded.HoldsUpTo Table.frontier a) : db.Holds a := by
  obtain ⟨i, hi, htuple⟩ := ha
  have hold := (h.frontier i _ htuple).hasTuple
  exact holds_iff.2 ⟨i, hwf.position?_of_hasTuple h.schemas hold hi, hold⟩

namespace Exhausted

variable (h : Exhausted φs db)

include h

/-- Among the rows before the frontiers, a rule that was there has found what it fires for, and a new one
fires for nothing. -/
theorem covered_loads {loaded : Database} (hloads : Loads db ψs loaded)
    (hnew : db.rounds = 0 ∨ ∀ c ∈ ψs.flatMap Formula.clauses, ∀ σ, ¬ c.MayFire {a | db.Holds a} σ) :
    loaded.Covered := by
  intro hrounds k p hp σ hfires
  rw [hloads.rounds] at hrounds
  have hmay : p.clause.MayFire {a | db.Holds a} σ :=
    ((plan_firesUpTo_iff (hloads.wellFormed.plans hp)).1 hfires).mono fun a ha =>
      hloads.holds_of_holdsUpTo h.sound.wellFormed ha
  obtain ⟨ps, hps, hclauses, -⟩ := hloads.plans
  have hmem : p ∈ db.plans.toList ++ ps := by
    rw [← hps]
    exact Array.mem_toList_iff.2 (Array.mem_of_getElem? hp)
  rcases List.mem_append.1 hmem with hold | hlate
  · obtain ⟨k', hk'⟩ := Array.mem_iff_getElem?.1 (Array.mem_toList_iff.1 hold)
    exact h.complete hk' σ ((plan_fires_iff (h.sound.wellFormed.plans hk')).2 hmay)
  · refine absurd hmay (hnew.resolve_left hrounds p.clause ?_ σ)
    rw [← hclauses]
    exact List.mem_map_of_mem hlate

/-- Batches with rules on time leave everything found, and the tables of all their formulas. -/
theorem runAll_extend {batches : List (List (Formula Symbol))}
    (hrun : runAll extend db batches = (db', none)) (htime : db.OnTime batches) :
    Exhausted (φs ++ batches.flatten) db' ∧
      db'.schemas = (batches.flatten.flatMap Formula.schemas).foldl .insert db.schemas := by
  induction batches generalizing db φs with
  | nil =>
    obtain rfl : db = db' := congrArg Prod.fst hrun
    exact ⟨by simpa using h, rfl⟩
  | cons batch batches ih =>
    obtain ⟨db1, hextend, hrest⟩ := runAll_cons_ok.1 hrun
    obtain ⟨hnew, hlater⟩ := htime
    rw [hextend] at hlater
    obtain ⟨loaded, hload, hsaturate⟩ := extend_eq_ok.1 hextend
    have hloads := loads_of_load h.sound.wellFormed hload
    have hcov := h.covered_loads hloads hnew
    obtain ⟨h1, hschemas⟩ := ih (h.saturate hloads hcov hsaturate) hrest hlater
    have hkept := (saturate_spec (hloads.sound h.sound) hcov hsaturate).1.keeps.1
    rw [hschemas, hkept, schemas_load hload, List.flatten_cons, List.flatMap_append, List.foldl_append]
    exact ⟨by rwa [List.append_assoc] at h1, rfl⟩

/-- What holds is given by the formulas. -/
theorem holds_of_holds (h' : Exhausted φs db') {a : Atom Symbol} (ha : db.Holds a) : db'.Holds a := by
  refine holds_canonical.1 (h.least {a | db'.Holds a} (fun b hb hground => ?_) (fun c hc σ hmay => ?_) a ha)
  · exact holds_canonical.2 (h'.holds_fact b hb hground)
  · exact holds_canonical.2 (h'.found_of_mayFire hc (hmay.mono fun b hb => holds_canonical.1 hb)).1

theorem exists_emit : ∃ G, db.emit = .ok G := h.sound.exists_emit

end Exhausted

/-- Batches with rules on time leave the tables, the tuples and the ground description that the whole
description leaves. -/
theorem batches_agree_with_whole {limit : Option Nat} {batches : List (List (Formula Symbol))}
    {inBatches atOnce : Database} (hbatches : runAll extend (empty limit) batches = (inBatches, none))
    (hwhole : (empty limit).extend batches.flatten = (atOnce, none))
    (htime : (empty limit).OnTime batches) :
    inBatches.schemas = atOnce.schemas ∧ (∀ a, inBatches.Holds a ↔ atOnce.Holds a) ∧
      ∃ G H, inBatches.emit = .ok G ∧ atOnce.emit = .ok H ∧ ∀ ψ, ψ ∈ G ↔ ψ ∈ H := by
  obtain ⟨h, hschemas⟩ := (exhausted_empty limit).runAll_extend hbatches htime
  -- the whole description is one batch, with nothing before it
  have hone : runAll extend (empty limit) [batches.flatten] = (atOnce, none) :=
    runAll_cons_ok.2 ⟨atOnce, hwhole, rfl⟩
  obtain ⟨h', hschemas'⟩ := (exhausted_empty limit).runAll_extend hone ⟨.inl rfl, trivial⟩
  simp only [List.flatten_cons, List.flatten_nil, List.append_nil, List.nil_append] at h h' hschemas'
  have hholds : ∀ a, inBatches.Holds a ↔ atOnce.Holds a := fun a =>
    ⟨h.holds_of_holds h', h'.holds_of_holds h⟩
  obtain ⟨G, hG⟩ := h.exists_emit
  obtain ⟨H, hH⟩ := h'.exists_emit
  refine ⟨hschemas.trans hschemas'.symm, hholds, G, H, hG, hH, fun ψ => ?_⟩
  rw [h.mem_emit_iff hG, h'.mem_emit_iff hH]
  simp only [hholds]

/-- A rule with a condition that has no table fires for nothing. -/
theorem not_mayFire_of_tableNumber? {c : Clause Symbol} {a : Atom Symbol} {σ : Symbol → Symbol}
    (ha : .atom a ∈ c.body) (hd : a.relation ≠ Keyword.distinct) (h : db.tableNumber? a.schema = none) :
    ¬ c.MayFire {a | db.Holds a} σ := by
  intro hfire
  have hmay := hfire _ ha (by simp [Formula.isSimpleLiteral, Atom.isComparable, hd])
  obtain ⟨t, ht, -⟩ : db.Holds (a.inst σ) := (Atom.trueIn_of_ne_distinct (a := a.inst σ) hd).1 hmay
  simp [tableOf?, h] at ht

/-- The rule that the first relation holds of whatever the second holds of. -/
def implied (relation condition : Symbol) : Formula Symbol :=
  .rule ⟨relation, [.var ⟨14⟩]⟩ [.atom ⟨condition, [.var ⟨14⟩]⟩]

/-- The king is placed, and what is placed is seen.  Then the pawn is placed as well.  Then what is taken is lost, and
at last the king is taken. -/
def trickle : List (List (Formula Symbol)) :=
  let placed : Symbol := ⟨15⟩
  let seen : Symbol := ⟨16⟩
  let taken : Symbol := ⟨17⟩
  let lost : Symbol := ⟨18⟩
  let king : Term Symbol := .const ⟨20⟩
  let pawn : Term Symbol := .const ⟨21⟩
  [[.atom ⟨placed, [king]⟩, implied seen placed], [.atom ⟨placed, [pawn]⟩], [implied lost taken],
    [.atom ⟨taken, [king]⟩]]

theorem onTime_trickle : (empty none).OnTime trickle := by
  refine ⟨.inl rfl, .inr ?_, .inr ?_, .inr ?_, trivial⟩
  · simp [Formula.clauses, Atom.isGround, Atom.vars]
  · intro c hc σ
    let taken (t : Term Symbol) : Atom Symbol := ⟨⟨17⟩, [t]⟩
    let lost (t : Term Symbol) : Atom Symbol := ⟨⟨18⟩, [t]⟩
    obtain rfl : c = ⟨lost (.var ⟨14⟩), [.atom (taken (.var ⟨14⟩))]⟩ := by
      simpa [implied, Formula.clauses, splitDisjunctions, schedule, scheduleFrom, Formula.isEquality,
        Keyword.distinct] using hc
    exact not_mayFire_of_tableNumber? (List.mem_singleton_self _) (by decide) (by decide +kernel)
  · simp [Formula.clauses, Atom.isGround, Atom.vars]

theorem batches_agree_with_whole_trickle :
    let seenPawn : Atom Symbol := ⟨⟨16⟩, [.const ⟨21⟩]⟩
    let lostKing : Atom Symbol := ⟨⟨18⟩, [.const ⟨20⟩]⟩
    (empty none).OnTime trickle ∧ ∃ inBatches atOnce,
      runAll extend (empty none) trickle = (inBatches, none) ∧
      (empty none).extend trickle.flatten = (atOnce, none) ∧
      inBatches.Holds seenPawn ∧ inBatches.Holds lostKing ∧ ∀ a, inBatches.Holds a ↔ atOnce.Holds a := by
  intro seenPawn lostKing
  have hbatches : (runAll extend (empty none) trickle).2 = none := by decide +kernel
  have hwhole : ((empty none).extend trickle.flatten).2 = none := by decide +kernel
  refine ⟨onTime_trickle, _, _, eq_pair_of_snd hbatches, eq_pair_of_snd hwhole, by decide +kernel,
    by decide +kernel, ?_⟩
  exact (batches_agree_with_whole (eq_pair_of_snd hbatches) (eq_pair_of_snd hwhole) onTime_trickle).2.1

/-- A rule that comes after a fact was seen in an earlier round misses it. -/
theorem late_rule_misses_tuple :
    let placed : Symbol := ⟨15⟩
    let seen : Symbol := ⟨16⟩
    let known : Symbol := ⟨17⟩
    let king : Term Symbol := .const ⟨20⟩
    let batches := [[.atom ⟨placed, [king]⟩, implied seen placed], [implied known placed]]
    ∃ inBatches atOnce, runAll extend (empty none) batches = (inBatches, none) ∧
      (empty none).extend batches.flatten = (atOnce, none) ∧
      atOnce.Holds ⟨known, [king]⟩ ∧ ¬ inBatches.Holds ⟨known, [king]⟩ := by
  intro placed seen known king batches
  have hbatches : (runAll extend (empty none) batches).2 = none := by decide +kernel
  have hwhole : ((empty none).extend batches.flatten).2 = none := by decide +kernel
  exact ⟨_, _, eq_pair_of_snd hbatches, eq_pair_of_snd hwhole, by decide +kernel, by decide +kernel⟩

end Database

end GameCircuit
