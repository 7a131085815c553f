import GameCircuit.Proofs.LeastModel

/-!
# Saturation within a finite universe

Rules may call one another and put functions around what they find, but a table keeps the constants of its atoms
only, and no rule makes a constant.  So the tables of a database hold tuples of the constants that occur in the
formulas, of which there are finitely many.

A round other than the first has rules to look at only if the round before it added a tuple.  So the loop of
saturation comes to its end by itself, whatever its fuel (`Database.Runs.unique`), and takes at most one round more
than it adds tuples (`Database.Runs.length_le`).
-/

namespace GameCircuit

/-- The constants that occur in a formula: in its head, in its conditions and below negations. -/
def Formula.constants (φ : Formula Symbol) : List Symbol := φ.atoms.flatMap Atom.constants

theorem Atom.const_mem_slots_iff {a : Atom Symbol} {c : Symbol} : .const c ∈ a.slots ↔ c ∈ a.constants := by
  rw [constants, List.mem_filterMap]
  constructor
  · exact fun h => ⟨.const c, h, rfl⟩
  · rintro ⟨slot, hslot, hc⟩
    cases slot with
    | const d =>
      obtain rfl := Option.some.inj hc
      exact hslot
    | var x => cases hc

/-- The clauses of a formula conclude what the formula does. -/
theorem Formula.head_mem_atoms {φ : Formula Symbol} {c : Clause Symbol} (hc : c ∈ φ.clauses) : c.head ∈ φ.atoms := by
  cases φ with
  | atom a =>
    rw [clauses] at hc
    split_ifs at hc
    · cases hc
    · obtain rfl := List.mem_singleton.1 hc
      exact List.mem_singleton_self a
  | rule head body =>
    obtain ⟨choice, -, rfl⟩ := List.mem_map.1 hc
    rw [atoms_rule]
    exact List.mem_cons_self
  | neg φ => cases hc
  | disj φs => cases hc

/-- The tuples of the table are different ones of its own length, made of constants from `K`, and no more than
there can be. -/
structure Table.Within (K : List Symbol) (t : Table) : Prop where
  /-- No tuple is there twice. -/
  nodup : t.tuples.toList.Nodup
  /-- The tuples have the length of the schema. -/
  length_tuple : ∀ tuple ∈ t.tuples.toList, tuple.length = t.schema.arity
  /-- The tuples are made of constants from the list. -/
  constants : ∀ tuple ∈ t.tuples.toList, ∀ c ∈ tuple, c ∈ K
  /-- There are no more tuples than choices of a constant for each place. -/
  size_le : t.size ≤ K.toFinset.card ^ t.schema.arity

namespace Database

variable {db db' : Database} {φ : Formula Symbol} {φs ψs : List (Formula Symbol)} {K : List Symbol}

/-- The databases that are reached from an empty one by loading formulas and saturating, any number of times, without an
error, together with the formulas that were loaded. -/
inductive Reached (limit : Option Nat) : List (Formula Symbol) → Database → Prop
  /-- Nothing was loaded. -/
  | empty : Reached limit [] (Database.empty limit)
  /-- Formulas are loaded. -/
  | load {φs ψs : List (Formula Symbol)} {db db' : Database} (h : Reached limit φs db)
    (hload : db.load ψs = (db', none)) : Reached limit (φs ++ ψs) db'
  /-- The rules are fired until nothing new is found. -/
  | saturate {φs : List (Formula Symbol)} {db db' : Database} (h : Reached limit φs db)
    (hrun : db.saturate = (db', none)) : Reached limit φs db'

theorem Sound.moves_saturate (hs : db.Sound) : Moves db db.saturate.1 := by
  obtain ⟨n, hn⟩ := runs_saturate hs
  exact hn.moves hs

theorem Reached.sound {limit : Option Nat} (h : Reached limit φs db) : db.Sound := by
  induction h with
  | empty => exact (exhausted_empty limit).sound
  | load _ hload ih => exact (loads_of_load ih.wellFormed hload).sound ih
  | saturate _ hrun ih =>
    have hmoves := ih.moves_saturate
    rw [hrun] at hmoves
    exact Moves.sound hmoves ih

/-! ## Constants -/

theorem hasTuple_foldl_addRule (hwf : db.WellFormed) (cs : List (Clause Symbol)) {i : Nat} {tuple : List Symbol} :
    (cs.foldl addRule db).HasTuple i tuple ↔ db.HasTuple i tuple := by
  induction cs generalizing db with
  | nil => exact Iff.rfl
  | cons c cs ih =>
    obtain ⟨p, db1, -, -, hopens, hadd, hwf1⟩ := addRule_spec hwf c
    rw [List.foldl_cons, ih hwf1, hadd]
    exact hopens.hasTuple i tuple

/-- Loading a formula enters the tuple of a ground fact, whether its table may hold it or not, or adds rules. -/
theorem loadFormula_fst_cases (db : Database) (φ : Formula Symbol) :
    (∃ a facts, φ = .atom a ∧ a.isGround = true ∧ (db.loadFormula φ).1 =
      { (db.tableFor a).2.modifyTable (db.tableFor a).1 (·.insert a.constants) with facts := facts }) ∨
    (db.loadFormula φ).1 = φ.clauses.foldl addRule db := by
  cases φ with
  | neg φ => exact .inr rfl
  | disj φs => exact .inr rfl
  | rule head body =>
    rw [Formula.clauses, List.foldl_map]
    exact .inr rfl
  | atom a =>
    by_cases ha : a.isGround = true
    · left
      rw [loadFormula, if_pos ha]
      simp only [insert]
      split
      · rename_i db1 hdb1
        rw [← (Prod.mk.inj hdb1).1]
        exact ⟨a, _, rfl, ha, rfl⟩
      · rename_i db1 e hdb1
        rw [← (Prod.mk.inj hdb1).1]
        exact ⟨a, _, rfl, ha, rfl⟩
    · right
      rw [loadFormula, if_neg ha, Formula.clauses, if_neg ha]
      rfl

/-- A formula that is loaded adds the tuple of a ground fact, and no other. -/
theorem hasTuple_of_loadFormula (hwf : db.WellFormed) {i : Nat} {tuple : List Symbol}
    (h : (db.loadFormula φ).1.HasTuple i tuple) : db.HasTuple i tuple ∨ ∃ a, φ = .atom a ∧ tuple = a.constants := by
  rcases loadFormula_fst_cases db φ with ⟨a, facts, rfl, -, heq⟩ | heq
  · obtain ⟨hopens, hi⟩ := opens_tableFor hwf a
    obtain ⟨t, ht, -⟩ := hopens.wellFormed.position?_iff.1 hi
    rw [heq] at h
    rcases (hasTuple_insert (Array.getElem?_eq_some_iff.1 ht).1).1 h with hold | ⟨-, rfl⟩
    · exact .inl ((hopens.hasTuple i tuple).1 hold)
    · exact .inr ⟨a, rfl, rfl⟩
  · rw [heq, hasTuple_foldl_addRule hwf] at h
    exact .inl h

theorem mentions_of_load (hwf : db.WellFormed) (hload : db.load φs = (db', none)) {d : Symbol} (h : db'.Mentions d) :
    db.Mentions d ∨ d ∈ φs.flatMap Formula.constants := by
  induction φs generalizing db with
  | nil =>
    obtain rfl : db = db' := congrArg Prod.fst hload
    exact .inl h
  | cons φ φs ih =>
    obtain ⟨db1, hstep, hrest⟩ := runAll_cons_ok.1 hload
    rw [List.flatMap_cons, List.mem_append]
    rcases ih (Loads.of_loadFormula hwf hstep).wellFormed hrest with ⟨i, tuple, htuple, hd⟩ | hlater
    · have hloaded : (db.loadFormula φ).1.HasTuple i tuple := by
        rw [hstep]
        exact htuple
      rcases hasTuple_of_loadFormula hwf hloaded with hold | ⟨a, rfl, rfl⟩
      · exact .inl ⟨i, tuple, hold, hd⟩
      · exact .inr (.inl (List.mem_flatMap.2 ⟨a, List.mem_singleton_self a, hd⟩))
    · exact .inr (.inr hlater)

/-- The tuples, and what the rules can add to them, are made of constants from `K`. -/
structure Over (K : List Symbol) (db : Database) : Prop where
  /-- The rules conclude nothing about other constants. -/
  heads : ∀ c ∈ db.plans.toList.map Plan.clause, ∀ d, .const d ∈ c.head.slots → d ∈ K
  /-- No other constants stand in the tables. -/
  mentions : ∀ d, db.Mentions d → d ∈ K

theorem Over.moves (h : db.Over K) (hs : db.Sound) (hmoves : Moves db db') : db'.Over K where
  heads := by
    rw [hmoves.keeps.2.2]
    exact h.heads
  mentions := hmoves.over hs h.heads h.mentions

theorem Over.load (h : db.Over K) (hwf : db.WellFormed) (hload : db.load φs = (db', none)) :
    db'.Over (K ++ φs.flatMap Formula.constants) where
  heads c hc d hd := by
    obtain ⟨ps, hps, hclauses, -⟩ := (loads_of_load hwf hload).plans
    rw [hps, List.map_append, hclauses] at hc
    rw [List.mem_append]
    rcases List.mem_append.1 hc with hold | hnew
    · exact .inl (h.heads c hold d hd)
    · obtain ⟨φ, hφ, hcφ⟩ := List.mem_flatMap.1 hnew
      exact .inr (List.mem_flatMap.2 ⟨φ, hφ, List.mem_flatMap.2
        ⟨c.head, Formula.head_mem_atoms hcφ, Atom.const_mem_slots_iff.1 hd⟩⟩)
  mentions d hd := by
    rw [List.mem_append]
    exact (mentions_of_load hwf hload hd).imp_left (h.mentions d)

theorem Reached.over {limit : Option Nat} (h : Reached limit φs db) : db.Over (φs.flatMap Formula.constants) := by
  induction h with
  | empty =>
    refine ⟨by simp [Database.empty], ?_⟩
    rintro d ⟨i, tuple, ⟨t, ht, -⟩, -⟩
    simp [Database.empty] at ht
  | load h hload ih =>
    rw [List.flatMap_append]
    exact ih.load h.sound.wellFormed hload
  | saturate h hrun ih =>
    have hmoves := h.sound.moves_saturate
    rw [hrun] at hmoves
    exact ih.moves h.sound hmoves

theorem Over.within (h : db.Over K) (hwf : db.WellFormed) : ∀ t ∈ db.tables, t.Within K := by
  intro t ht
  obtain ⟨i, hi⟩ := Array.mem_iff_getElem?.1 ht
  have hconstants : ∀ tuple ∈ t.tuples.toList, ∀ c ∈ tuple, c ∈ K :=
    fun tuple htuple c hc => h.mentions c ⟨i, tuple, ⟨t, hi, htuple⟩, hc⟩
  refine ⟨t.tuples.nodup_toList, (hwf.tables hi).length_tuple, hconstants, ?_⟩
  rw [List.card_toFinset]
  exact Table.size_le_pow (hwf.tables hi) fun tuple htuple c hc => List.mem_dedup.2 (hconstants tuple htuple c hc)

/-! ## Rounds -/

theorem tupleCount_eq_reached (db : Database) : db.tupleCount = db.advance.reached := by
  rw [reached_advance, tupleCount]
  induction db.tables.toList with
  | nil => rfl
  | cons t ts ih => rw [List.foldr_cons, ih, List.map_cons, List.sum_cons]

theorem reached_le_tupleCount (hwf : db.WellFormed) : db.reached ≤ db.tupleCount := by
  rw [tupleCount_eq_reached]
  exact reached_le_advance hwf

theorem tupleCount_advance (db : Database) : db.advance.tupleCount = db.tupleCount := by
  rw [tupleCount_eq_reached, tupleCount_eq_reached, reached_advance, reached_advance, advance, List.map_map]
  rfl

namespace Runs

variable {n n' : Nat} {r r' : Database × Option CompileError}

/-- A run ends in one way only. -/
theorem unique (h : Runs db n r) (h' : Runs db n' r') : n' = n ∧ r' = r := by
  induction h generalizing n' r' with
  | done hpending =>
    cases h' with
    | done _ => exact ⟨rfl, rfl⟩
    | fails hne _ => exact absurd hpending hne
    | round hne _ _ => exact absurd hpending hne
  | fails hne hround =>
    cases h' with
    | done hpending => exact absurd hpending hne
    | fails _ hround' => exact ⟨rfl, hround'.symm.trans hround⟩
    | round _ hround' _ => cases hround.symm.trans hround'
  | round hne hround hrest ih =>
    cases h' with
    | done hpending => exact absurd hpending hne
    | fails _ hround' => cases hround.symm.trans hround'
    | round _ hround' hrest' =>
      obtain ⟨rfl, -⟩ := Prod.mk.inj (hround.symm.trans hround')
      obtain ⟨rfl, rfl⟩ := ih hrest'
      exact ⟨rfl, rfl⟩

/-- Once a round was counted, every round is paid for by a tuple beyond the frontiers. -/
theorem length_le_of_counted (h : Runs db n r) (hs : db.Sound) (hrounds : db.rounds ≠ 0) :
    n + db.reached ≤ r.1.tupleCount := by
  induction h with
  | @done db hpending =>
    have hle := reached_le_tupleCount hs.wellFormed
    rw [tupleCount_advance]
    omega
  | @fails db db' e hne hround =>
    obtain ⟨hmoves, hreached⟩ := hs.moves_round hround
    have hlt := reached_lt_advance hs.wellFormed hrounds hne
    have hle := reached_le_tupleCount (Moves.sound hmoves hs).wellFormed
    show 1 + db.reached ≤ db'.tupleCount
    omega
  | @round db db' n r hne hround hrest ih =>
    obtain ⟨hmoves, hreached⟩ := hs.moves_round hround
    have hlt := reached_lt_advance hs.wellFormed hrounds hne
    have hrest := ih (Moves.sound (hmoves.tail .count) hs) (Nat.succ_ne_zero _)
    have hkept : reached { db' with rounds := db'.rounds + 1 } = db.advance.reached := hreached
    omega

/-- A run takes at most one round more than it adds tuples. -/
theorem length_le (h : Runs db n r) (hs : db.Sound) : n + db.tupleCount ≤ r.1.tupleCount + 1 := by
  cases h with
  | done hpending =>
    rw [tupleCount_advance]
    omega
  | @fails _ db' e hne hround =>
    obtain ⟨hmoves, hreached⟩ := hs.moves_round hround
    have hle := reached_le_tupleCount (Moves.sound hmoves hs).wellFormed
    rw [hreached, ← tupleCount_eq_reached] at hle
    show 1 + db.tupleCount ≤ db'.tupleCount + 1
    omega
  | @round _ db' n _ hne hround hrest =>
    obtain ⟨hmoves, hreached⟩ := hs.moves_round hround
    have hle := hrest.length_le_of_counted (Moves.sound (hmoves.tail .count) hs) (Nat.succ_ne_zero _)
    have hkept : reached { db' with rounds := db'.rounds + 1 } = db.tupleCount :=
      hreached.trans (tupleCount_eq_reached db).symm
    omega

/-- The rounds of a run that succeeds are counted. -/
theorem rounds_eq (h : Runs db n r) (hr : r.2 = none) (hs : db.Sound) : r.1.rounds = db.rounds + n := by
  induction h with
  | done hpending => rfl
  | fails hne hround => cases hr
  | @round db db' n r hne hround hrest ih =>
    have hfirings := firings_runAll_fireAll hs.advance db.advance.pending
    rw [hround] at hfirings
    have hkept : db'.rounds = db.rounds := hfirings.grows.rounds
    rw [ih hr (Moves.sound ((hs.moves_round hround).1.tail .count) hs)]
    show db'.rounds + 1 + n = db.rounds + (n + 1)
    omega

end Runs

/-- In a database that is reached by loading and saturating, the loop of saturation ends, and ends as `saturate` does,
after at most one round more than it adds tuples.  Here `n` counts the rounds in which rules were fired, with one that
failed, and not the last pass of the loop, which only finds that no rule is pending.  Before and after the loop, also
if it fails, each table holds different tuples of its own length over the constants that occur in the formulas. -/
theorem saturate_ends_within_universe {limit : Option Nat} (h : Reached limit φs db) :
    (∃ n, (∀ k r, db.Runs k r ↔ k = n ∧ r = db.saturate) ∧
      n + db.tupleCount ≤ db.saturate.1.tupleCount + 1 ∧
      (db.saturate.2 = none → db.saturate.1.rounds = db.rounds + n)) ∧
    (∀ t ∈ db.tables, t.Within (φs.flatMap Formula.constants)) ∧
    ∀ t ∈ db.saturate.1.tables, t.Within (φs.flatMap Formula.constants) := by
  have hs := h.sound
  obtain ⟨n, hn⟩ := runs_saturate hs
  have hmoves := hn.moves hs
  refine ⟨⟨n, fun k r => ⟨hn.unique, ?_⟩, hn.length_le hs, fun hok => hn.rounds_eq hok hs⟩, h.over.within hs.wellFormed,
    (h.over.moves hs hmoves).within (Moves.sound hmoves hs).wellFormed⟩
  rintro ⟨rfl, rfl⟩
  exact hn

/-- There is a link between two places. -/
def link (s t : Term Symbol) : Formula Symbol := .atom ⟨⟨17⟩, [s, t]⟩

/-- Two links, and rules for the tours along them: the house at the end of a tour is visited, and the place of a
visited house is a tour of its own. -/
def tours : List (Formula Symbol) :=
  let x : Term Symbol := .var ⟨14⟩
  let y : Term Symbol := .var ⟨15⟩
  let z : Term Symbol := .var ⟨16⟩
  let tour (s t : Term Symbol) : Atom Symbol := ⟨⟨18⟩, [s, t]⟩
  let visited (t : Term Symbol) : Atom Symbol := ⟨⟨19⟩, [t]⟩
  let house (t : Term Symbol) : Term Symbol := .app ⟨20⟩ [t]
  let harbour : Term Symbol := .const ⟨21⟩
  let market : Term Symbol := .const ⟨22⟩
  let tower : Term Symbol := .const ⟨23⟩
  [link harbour market, link market tower, .rule (tour x y) [link x y],
    .rule (tour x z) [.atom (tour x y), link y z], .rule (visited (house y)) [.atom (tour x y)],
    .rule (tour x x) [.atom (visited (house x))]]

/-- The link from the tower back to the harbour. -/
def wayBack : Formula Symbol := link (.const ⟨23⟩) (.const ⟨21⟩)

/-- A third link closes the circle after the tours along the first two were found. -/
def toured : Database := (((empty none).load tours).1.saturate.1.load [wayBack]).1

theorem saturate_ends_within_universe_tours :
    Reached none (tours ++ [wayBack]) toured ∧ toured.tupleCount = 10 ∧ toured.saturate.1.tupleCount = 15 ∧
      (∃ n, toured.Runs n toured.saturate ∧ n ≤ 6) ∧ ∀ t ∈ toured.saturate.1.tables, t.size ≤ 3 ^ t.schema.arity := by
  have hload : (empty none).load tours = (((empty none).load tours).1, none) := eq_pair_of_snd (by decide +kernel)
  have hrun : ((empty none).load tours).1.saturate = (((empty none).load tours).1.saturate.1, none) :=
    eq_pair_of_snd (by decide +kernel)
  have hlater : ((empty none).load tours).1.saturate.1.load [wayBack] = (toured, none) :=
    eq_pair_of_snd (by decide +kernel)
  have hreached : Reached none (tours ++ [wayBack]) toured := ((Reached.empty.load hload).saturate hrun).load hlater
  obtain ⟨⟨n, hruns, hle, -⟩, -, hwithin⟩ := saturate_ends_within_universe hreached
  have hbefore : toured.tupleCount = 10 := by decide +kernel
  have hafter : toured.saturate.1.tupleCount = 15 := by decide +kernel
  refine ⟨hreached, hbefore, hafter, ⟨n, (hruns n _).2 ⟨rfl, rfl⟩, by omega⟩, fun t ht => ?_⟩
  have hcard : ((tours ++ [wayBack]).flatMap Formula.constants).toFinset.card = 3 := by decide +kernel
  rw [← hcard]
  exact (hwithin t ht).size_le

end Database

end GameCircuit
