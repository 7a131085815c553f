import GameCircuit.Proofs.Firing
import Mathlib.Algebra.Order.BigOperators.Group.List
import Mathlib.Algebra.Order.Ring.Nat
import Mathlib.Data.List.Sections

/-!
# Saturation is complete

When saturation returns, every plan has found all values for which it fires (`Database.saturate_spec`).

Between rounds a plan has found the values for which it fires among the rows up to the frontier
(`Database.Covered`).  A round carries this over to the rows that the round before added: what fires
among the rows up to the new frontier, and not among the old ones, fires with some scan in the delta of
its table, and then the rule is pending and its join restricted to that scan finds it.  Each round after
the first moves a frontier, and the tables can hold no more tuples than there are constants for, so that
there are rounds enough: saturation does what a run that nothing bounds (`Database.Runs`) does.
-/

namespace GameCircuit

namespace Table

variable {t : Table}

/-- There are only so many tuples of constants from a list. -/
theorem size_le_pow (h : t.WellFormed) {K : List Symbol}
    (hK : ∀ tuple ∈ t.tuples.toList, ∀ c ∈ tuple, c ∈ K) :
    t.size ≤ K.length ^ t.schema.arity := by
  have hlength : ∀ n : Nat, ((List.replicate n K).sections).length = K.length ^ n := by
    intro n
    induction n with
    | zero => rfl
    | succ n ih =>
      rw [List.replicate_succ, List.sections, List.length_flatMap]
      simp only [List.length_map]
      rw [List.map_const', List.sum_replicate_nat, ih, pow_succ]
  rw [Table.size_eq, ← hlength]
  refine t.tuples.nodup_toList.length_le_of_subset fun tuple htuple => ?_
  rw [List.mem_sections, ← h.length_tuple tuple htuple]
  have hconstants := hK tuple htuple
  clear htuple
  induction tuple with
  | nil => exact .nil
  | cons c cs ih =>
    obtain ⟨hc, hcs⟩ := List.forall_mem_cons.1 hconstants
    exact .cons hc (ih hcs)

end Table

namespace Database

variable {db db' : Database} {p : Plan} {σ : Symbol → Symbol} {rule : Nat}

/-- Each plan has found all values for which it fires. -/
def Complete (db : Database) : Prop :=
  ∀ {k : Nat} {p : Plan}, db.plans[k]? = some p → ∀ σ, p.Fires db.tables none σ →
    p.vars.map σ ∈ p.found.toList

/-- Each plan has found all values for which it fires among the rows up to the frontier, if a round was
run. -/
def Covered (db : Database) : Prop :=
  db.rounds ≠ 0 → ∀ {k : Nat} {p : Plan}, db.plans[k]? = some p → ∀ σ,
    p.FiresUpTo db.tables Table.frontier σ → p.vars.map σ ∈ p.found.toList

/-- The values `σ` are for this round to find.  The first looks at all tuples, and a later one only at those
for which some scan reads the delta. -/
def Due (db : Database) (p : Plan) (σ : Symbol → Symbol) : Prop :=
  if db.rounds = 0 then p.Fires db.tables none σ
  else ∃ n i t, (n, i) ∈ p.scans ∧ db.tables[i]? = some t ∧ t.hasDelta = true ∧
    p.Fires db.tables (some n) σ

theorem Due.grows {p' : Plan} (h : db.Due p σ) (hgrows : Grows db db') (hp : p.Grows p') :
    db'.Due p' σ := by
  unfold Due at h ⊢
  rw [hgrows.rounds]
  split_ifs at h ⊢
  · exact hp.fires_iff.2 (h.grows hgrows.tables)
  · obtain ⟨n, i, t, hscan, ht, hdelta, hfires⟩ := h
    obtain ⟨t', ht', htt'⟩ := exists_of_rel_some (ht ▸ hgrows.tables i)
    refine ⟨n, i, t', by rw [hp.eq]; exact hscan, ht', ?_, hp.fires_iff.2 (hfires.grows hgrows.tables)⟩
    rw [Table.hasDelta, htt'.settled, htt'.frontier]
    exact hdelta

theorem Due.mem_instances (h : db.Due p σ) (hwf : db.WellFormed) {found : List (List Symbol)}
    (hfound : db.instances p = .ok found) : p.vars.map σ ∈ found := by
  unfold Due at h
  unfold instances at hfound
  split_ifs at h hfound
  · exact (Plan.mem_join_iff hwf.of_mem_tables hfound).2 ⟨σ, rfl, h⟩
  · obtain ⟨n, i, t, hscan, ht, hdelta, hfires⟩ := h
    have hmem : (n, i) ∈ p.scans.filter fun scan => db.hasDelta scan.2 := by
      refine List.mem_filter.2 ⟨hscan, ?_⟩
      simp [hasDelta, ht, hdelta]
    obtain ⟨cs, hcs⟩ := exists_ok_of_collect hfound hmem
    exact (mem_of_collect hfound).2 ⟨(n, i), hmem, cs, hcs,
      (Plan.mem_join_iff hwf.of_mem_tables hcs).2 ⟨σ, rfl, hfires⟩⟩

/-- A rule with values to be found is looked at. -/
theorem Due.mem_pending (h : db.Due p σ) (hwf : db.WellFormed) (hp : db.plans[rule]? = some p) :
    rule ∈ db.pending := by
  unfold Due at h
  unfold pending
  split_ifs at h ⊢
  · exact List.mem_range.2 (Array.getElem?_eq_some_iff.1 hp).1
  · obtain ⟨n, i, t, hscan, ht, hdelta, -⟩ := h
    obtain ⟨template, hstep⟩ := Plan.mem_scans_iff.1 hscan
    have hsource : i ∈ p.sources := Plan.mem_sources_iff.2 ⟨template, List.mem_of_getElem? hstep⟩
    obtain ⟨t', ht', hconsumer⟩ := hwf.consumers hp i hsource
    have hchanged : i ∈ db.changed := by
      refine List.mem_filterMap.2 ⟨(t, i), List.mem_zipIdx_iff_getElem?.2 (by simpa using ht), ?_⟩
      simp [hdelta]
    refine mem_distinct.2 (List.mem_flatMap.2 ⟨i, hchanged, ?_⟩)
    rw [ht']
    exact hconsumer

/-- Looking at a rule finds what is to be found for it. -/
theorem found_of_fireAll (hs : db.Sound) (hp : db.plans[rule]? = some p) (hdue : db.Due p σ)
    (hrun : fireAll db rule = (db', none)) :
    ∃ p', db'.plans[rule]? = some p' ∧ p.vars.map σ ∈ p'.found.toList := by
  rw [fireAll, hp] at hrun
  simp only at hrun
  cases hfound : db.instances p with
  | error e => simp [hfound] at hrun
  | ok found =>
    rw [hfound] at hrun
    have hmem := hdue.mem_instances hs.wellFormed hfound
    have hall := (firings_runAll hp fun _ hvalues => instances_sound hfound hs.wellFormed hvalues).2
    simp only at hrun
    rw [hrun] at hall
    exact hall rfl _ hmem

/-- Looking at rules finds what is to be found for each of them. -/
theorem found_of_runAll {rules : List Nat} (hs : db.Sound) (hmem : rule ∈ rules)
    (hp : db.plans[rule]? = some p) (hdue : db.Due p σ)
    (hrun : runAll fireAll db rules = (db', none)) :
    ∃ p', db'.plans[rule]? = some p' ∧ p.vars.map σ ∈ p'.found.toList := by
  induction rules generalizing db p with
  | nil => simp at hmem
  | cons first rules ih =>
    obtain ⟨db1, hfirst, hrest⟩ := runAll_cons_ok.1 hrun
    have hfirings1 := firings_fireAll hs.wellFormed first
    rw [hfirst] at hfirings1
    have hs1 := hfirings1.moves.sound hs
    rcases List.mem_cons.1 hmem with rfl | hmem'
    · obtain ⟨p1, hp1, hfound⟩ := found_of_fireAll hs hp hdue hfirst
      have hfirings := firings_runAll_fireAll hs1 rules
      rw [hrest] at hfirings
      obtain ⟨p2, hp2, hp12⟩ := exists_of_rel_some (hp1 ▸ hfirings.grows.plans rule)
      exact ⟨p2, hp2, hp12.found hfound⟩
    · obtain ⟨p1, hp1, hpp1⟩ := exists_of_rel_some (hp ▸ hfirings1.grows.plans rule)
      rw [← hpp1.vars]
      exact ih hs1 hmem' hp1 (hdue.grows hfirings1.grows hpp1) hrest

/-! ## Rounds -/

/-- Among the rows up to the new frontier, a plan fires for what was found before and for what this round
is to find. -/
theorem Covered.found_or_due (h : db.Covered) (hp : db.plans[rule]? = some p)
    (hfires : p.FiresUpTo db.advance.tables Table.frontier σ) :
    p.vars.map σ ∈ p.found.toList ∨ db.advance.Due p σ := by
  unfold Due
  split_ifs with hrounds
  · exact .inr hfires.fires
  · rcases hfires.settled_or_delta with hsettled | hdelta
    · refine .inl (h hrounds hp σ fun step hstep => ?_)
      have hold := hsettled step hstep
      cases step with
      | compare left right negated => exact hold
      | scan i template =>
        obtain ⟨t, row, ht, hlt, hrow⟩ := hold
        rw [getElem?_advance] at ht
        obtain ⟨t0, ht0, rfl⟩ := Option.map_eq_some_iff.1 ht
        exact ⟨t0, row, ht0, hlt, hrow⟩
    · exact .inr hdelta

/-- When no rule is left to look at, everything was found. -/
theorem Covered.complete (h : db.Covered) (hwf : db.WellFormed) (hpending : db.advance.pending = []) :
    db.advance.Complete := by
  intro k p hp σ hfires
  have hup : p.FiresUpTo db.advance.tables Table.frontier σ := by
    intro step hstep
    have hsize := hfires.upTo_size step hstep
    cases step with
    | compare left right negated => exact hsize
    | scan i template =>
      obtain ⟨t, row, ht, hlt, hrow⟩ := hsize
      rw [getElem?_advance] at ht
      obtain ⟨t0, ht0, rfl⟩ := Option.map_eq_some_iff.1 ht
      exact ⟨t0.advance, row, by rw [getElem?_advance, ht0]; rfl, hlt, hrow⟩
  rcases h.found_or_due hp hup with hfound | hdue
  · exact hfound
  · have hmem := hdue.mem_pending hwf.advance hp
    rw [hpending] at hmem
    simp at hmem

/-- A round finds what its plans fire for among the rows up to its frontier. -/
theorem Covered.round (h : db.Covered) (hs : db.Sound)
    (hrun : runAll fireAll db.advance db.advance.pending = (db', none)) :
    Covered { db' with rounds := db'.rounds + 1 } := by
  intro _ k p hp σ hfires
  have hfirings := firings_runAll_fireAll hs.advance db.advance.pending
  rw [hrun] at hfirings
  obtain ⟨p0, hp0, hp0p⟩ := exists_of_rel_some_right (hp ▸ hfirings.grows.plans k)
  have hold : p0.FiresUpTo db.advance.tables Table.frontier σ := by
    intro step hstep
    have hnew := hfires step (by rw [hp0p.eq]; exact hstep)
    cases step with
    | compare left right negated => exact hnew
    | scan i template =>
      obtain ⟨t, row, ht, hlt, hrow⟩ := hnew
      obtain ⟨t0, ht0, hgrows⟩ := exists_of_rel_some_right (ht ▸ hfirings.grows.tables i)
      rw [hgrows.frontier] at hlt
      have hsize := Nat.lt_of_lt_of_le hlt (hs.advance.wellFormed.tables ht0).frontier_le
      exact ⟨t0, row, ht0, hlt, by rw [← hgrows.row?_eq hsize]; exact hrow⟩
  rw [hp0p.vars]
  rcases h.found_or_due hp0 hold with hfound | hdue
  · exact hp0p.found hfound
  · obtain ⟨p1, hp1, hfound⟩ := found_of_runAll hs.advance (hdue.mem_pending hs.advance.wellFormed hp0)
      hp0 hdue hrun
    obtain rfl : p = p1 := Option.some.inj (hp.symm.trans hp1)
    exact hfound

/-! ## There are rounds enough -/

/-- The number of tuples up to the frontiers. -/
def reached (db : Database) : Nat := (db.tables.toList.map Table.frontier).sum

/-- How many tuples tables of the schemas can hold with constants from a list. -/
def room (K : List Symbol) (db : Database) : Nat :=
  (db.schemas.toList.map fun schema => K.length ^ schema.arity).sum

theorem room_constants (hwf : db.WellFormed) : room db.constants db = db.capacity := by
  rw [room, ← hwf.schemas, List.map_map, capacity]
  induction db.tables.toList with
  | nil => rfl
  | cons t ts ih =>
    rw [List.map_cons, List.sum_cons, List.foldr_cons, ih]
    rfl

theorem reached_advance (db : Database) : db.advance.reached = (db.tables.toList.map Table.size).sum := by
  simp [reached, advance, Function.comp_def, Table.advance]

/-- The tables hold no more tuples than there are constants for. -/
theorem reached_advance_le {K : List Symbol} (hwf : db.WellFormed) (hK : ∀ d, db.Mentions d → d ∈ K) :
    db.advance.reached ≤ room K db := by
  rw [reached_advance, room, ← hwf.schemas, List.map_map]
  refine List.sum_le_sum fun t ht => ?_
  obtain ⟨i, hi⟩ := Array.mem_iff_getElem?.1 (Array.mem_toList_iff.1 ht)
  exact Table.size_le_pow (hwf.tables hi) fun tuple htuple c hc => hK c ⟨i, tuple, ⟨t, hi, htuple⟩, hc⟩

theorem reached_le_advance (hwf : db.WellFormed) : db.reached ≤ db.advance.reached := by
  rw [reached_advance, reached]
  refine List.sum_le_sum fun t ht => ?_
  obtain ⟨i, hi⟩ := Array.mem_iff_getElem?.1 (Array.mem_toList_iff.1 ht)
  exact (hwf.tables hi).frontier_le

/-- A round after the first that has something to look at moves a frontier. -/
theorem reached_lt_advance (hwf : db.WellFormed) (hrounds : db.rounds ≠ 0)
    (hpending : db.advance.pending ≠ []) : db.reached < db.advance.reached := by
  rw [reached_advance, reached]
  obtain ⟨i, hi⟩ : ∃ i, i ∈ db.advance.changed := by
    by_contra hnone
    have hnil : db.advance.changed = [] := List.eq_nil_iff_forall_not_mem.2 fun i hi => hnone ⟨i, hi⟩
    have hrounds' : db.advance.rounds ≠ 0 := hrounds
    refine hpending ?_
    rw [pending, if_neg hrounds', hnil]
    rfl
  obtain ⟨⟨t, j⟩, ht, hdelta⟩ := List.mem_filterMap.1 hi
  have ht' : db.advance.tables[j]? = some t := by
    simpa using List.mem_zipIdx_iff_getElem?.1 ht
  rw [getElem?_advance] at ht'
  obtain ⟨t0, ht0, rfl⟩ := Option.map_eq_some_iff.1 ht'
  refine List.sum_lt_sum _ _ (fun t ht => ?_) ⟨t0, Array.mem_toList_iff.2 (Array.mem_of_getElem? ht0), ?_⟩
  · obtain ⟨i, hi⟩ := Array.mem_iff_getElem?.1 (Array.mem_toList_iff.1 ht)
    exact (hwf.tables hi).frontier_le
  · have hdelta' : t0.advance.hasDelta = true := by
      by_contra hnot
      simp [hnot] at hdelta
    have hne := (Table.hasDelta_advance_iff (hwf.tables ht0)).1 hdelta'
    exact Nat.lt_of_le_of_ne (hwf.tables ht0).frontier_le hne

theorem Grows.reached_eq (h : Grows db db') : db'.reached = db.reached := by
  rw [reached, reached, map_eq_of_rel h.tables Table.Grows.frontier]

/-- A run of saturation with nothing that bounds the number of its rounds: it ends with the result in the
`n`th round, or, if no rule is left to look at, after it. -/
inductive Runs : Database → Nat → Database × Option CompileError → Prop
  /-- No rule is left to look at. -/
  | done {db : Database} (hpending : db.advance.pending = []) : Runs db 0 (db.advance, none)
  /-- The round fails. -/
  | fails {db db' : Database} {e : CompileError} (hpending : db.advance.pending ≠ [])
    (hround : runAll fireAll db.advance db.advance.pending = (db', some e)) : Runs db 1 (db', some e)
  /-- The round is counted, and the run goes on. -/
  | round {db db' : Database} {n : Nat} {r : Database × Option CompileError}
    (hpending : db.advance.pending ≠ [])
    (hround : runAll fireAll db.advance db.advance.pending = (db', none))
    (hrest : Runs { db' with rounds := db'.rounds + 1 } n r) : Runs db (n + 1) r

/-- What a round does to a database, also one that fails. -/
theorem Sound.moves_round (hs : db.Sound) {e : Option CompileError}
    (hround : runAll fireAll db.advance db.advance.pending = (db', e)) :
    Moves db db' ∧ db'.reached = db.advance.reached := by
  have hfirings := firings_runAll_fireAll hs.advance db.advance.pending
  rw [hround] at hfirings
  exact ⟨(Relation.ReflTransGen.single .advance).trans hfirings.moves, hfirings.grows.reached_eq⟩

/-- With fuel for the room that is left, saturation does not end for want of fuel. -/
theorem runs_saturateUpTo {K : List Symbol} {fuel : Nat} (hs : db.Sound)
    (hheads : ∀ c ∈ db.plans.toList.map Plan.clause, ∀ d, .const d ∈ c.head.slots → d ∈ K)
    (hK : ∀ d, db.Mentions d → d ∈ K)
    (hfuel : room K db + (if db.rounds = 0 then 2 else 1) ≤ fuel + db.reached) :
    ∃ n, Runs db n (saturateUpTo fuel db) := by
  have hroom := reached_advance_le hs.wellFormed hK
  have hle := reached_le_advance hs.wellFormed
  induction fuel generalizing db with
  | zero => split_ifs at hfuel <;> omega
  | succ fuel ih =>
    rw [saturateUpTo]
    cases hpending : db.advance.pending with
    | nil => exact ⟨0, .done hpending⟩
    | cons rule rules =>
      have hne : db.advance.pending ≠ [] := by simp [hpending]
      rw [← hpending]
      simp only
      rcases hround : runAll fireAll db.advance db.advance.pending with ⟨db1, _ | e⟩
      · obtain ⟨hmoves1, hreached⟩ := hs.moves_round hround
        set db2 : Database := { db1 with rounds := db1.rounds + 1 }
        have hmoves : Moves db db2 := hmoves1.tail .count
        have hs2 := hmoves.sound hs
        obtain ⟨hschemas, -, hclauses⟩ := hmoves.keeps
        have hK2 := hmoves.over hs hheads hK
        have hreached2 : db2.reached = db.advance.reached := hreached
        have hfuel2 : room K db2 + (if db2.rounds = 0 then 2 else 1) ≤ fuel + db2.reached := by
          have hroom2 : room K db2 = room K db := by rw [room, room, hschemas]
          rw [hroom2, hreached2, if_neg (Nat.succ_ne_zero _)]
          split_ifs at hfuel with hrounds
          · omega
          · have hlt := reached_lt_advance hs.wellFormed hrounds hne
            omega
        obtain ⟨n, hn⟩ := ih hs2 (by rw [hclauses]; exact hheads) hK2 hfuel2
          (reached_advance_le hs2.wellFormed hK2) (reached_le_advance hs2.wellFormed)
        exact ⟨n + 1, .round hne hround hn⟩
      · exact ⟨1, .fails hne hround⟩

/-- Saturation does not end for want of fuel. -/
theorem runs_saturate (hs : db.Sound) : ∃ n, Runs db n db.saturate := by
  refine runs_saturateUpTo (K := db.constants) hs (fun c hc d hd => ?_) (fun d hd => ?_) ?_
  · obtain ⟨p, hp, rfl⟩ := List.mem_map.1 hc
    obtain ⟨k, hk⟩ := Array.mem_iff_getElem?.1 (Array.mem_toList_iff.1 hp)
    refine List.mem_append_right _ (List.mem_flatMap.2 ⟨p, hp, List.mem_filterMap.2 ⟨.const d, ?_, rfl⟩⟩)
    rw [(hs.wellFormed.plans hk).production]
    exact hd
  · obtain ⟨i, tuple, ⟨t, ht, htuple⟩, hd⟩ := hd
    refine List.mem_append_left _ (List.mem_flatMap.2 ⟨t, ?_, List.mem_flatten.2 ⟨tuple, htuple, hd⟩⟩)
    exact Array.mem_toList_iff.2 (Array.mem_of_getElem? ht)
  · rw [room_constants hs.wellFormed]
    split_ifs <;> omega

namespace Runs

variable {n : Nat} {r : Database × Option CompileError}

theorem moves (h : Runs db n r) (hs : db.Sound) : Moves db r.1 := by
  induction h with
  | done hpending => exact .single .advance
  | fails hpending hround => exact (hs.moves_round hround).1
  | round hpending hround hrest ih =>
    have hmoves := (hs.moves_round hround).1.tail .count
    exact hmoves.trans (ih (Moves.sound hmoves hs))

/-- A run that succeeds ends with everything found. -/
theorem complete (h : Runs db n r) (hr : r.2 = none) (hs : db.Sound) (hcov : db.Covered) : r.1.Complete := by
  induction h with
  | done hpending => exact hcov.complete hs.wellFormed hpending
  | fails hpending hround => cases hr
  | round hpending hround hrest ih =>
    exact ih hr (Moves.sound ((hs.moves_round hround).1.tail .count) hs) (hcov.round hs hround)

end Runs

/-- Saturation is a run of moves after which everything was found. -/
theorem saturate_spec (hs : db.Sound) (hcov : db.Covered) (hrun : db.saturate = (db', none)) :
    Moves db db' ∧ db'.Complete := by
  obtain ⟨n, hn⟩ := runs_saturate hs
  rw [hrun] at hn
  exact ⟨hn.moves hs, hn.complete rfl hs hcov⟩

end Database

end GameCircuit
