import GameCircuit.Grounding.Emission
import GameCircuit.Proofs.LeastModel

/-!
# The ground description says what the description says

The ground description consists of the ground facts and of the instances of the rules whose conditions
may hold (`Database.Saturated.mem_emit_iff`).  Instances that are left out never conclude anything from
atoms that hold in the database, so that both descriptions have the same immediate consequences there.
-/

namespace GameCircuit

namespace Plan

variable {p : Plan}

theorem Fits.instantiate_eq {schemas : OrderedSet Schema} (h : p.Fits schemas) (σ : Symbol → Symbol) :
    p.instantiate (p.vars.map σ) = p.clause.inst σ := by
  have hpairs : ∀ x ∈ p.vars,
      Term.ofPairs ((p.valuation (p.vars.map σ)).map fun q => (q.1, .const q.2)) x = .const (σ x) := by
    have hzip : p.valuation (p.vars.map σ) = p.vars.map fun x => (x, σ x) := by
      simpa [valuation] using List.zip_map' (f := id) (g := σ) (l := p.vars)
    intro x hx
    rw [hzip, List.map_map]
    refine Term.ofPairs_eq (List.mem_map.2 ⟨x, hx, rfl⟩) fun u hu => ?_
    obtain ⟨y, -, hy⟩ := List.mem_map.1 hu
    obtain ⟨rfl, rfl⟩ := Prod.mk.inj hy
    rfl
  have hhead := Atom.subst_congr fun x hx => hpairs x (h.mem_vars_iff.2 (.inl hx))
  have hbody : p.clause.body.map (Formula.subst (Term.ofPairs
      ((p.valuation (p.vars.map σ)).map fun q => (q.1, .const q.2)))) =
      p.clause.body.map (Formula.inst σ) :=
    List.map_congr_left fun φ hφ =>
      Formula.subst_congr fun x hx => hpairs x (h.mem_vars_iff.2 (.inr ⟨φ, hφ, hx⟩))
  rw [instantiate, Clause.subst, hhead, hbody, Clause.inst]
  simp only [List.isEmpty_iff, List.map_eq_nil_iff]
  rfl

/-- A rule is emitted as the instances that were found. -/
theorem mem_emit_iff {ψs : List (Formula Symbol)} (h : p.emit = .ok ψs) {ψ : Formula Symbol} :
    ψ ∈ ψs ↔ ∃ values ∈ p.found.toList, ψ = p.instantiate values := by
  rw [mem_of_collect h]
  refine exists_congr fun values => and_congr_right fun hvalues => ?_
  obtain ⟨cs, hcs⟩ := exists_ok_of_collect h hvalues
  simp only at hcs ⊢
  split at hcs
  · simp
  · simp at hcs

end Plan

namespace Database

variable {db : Database} {φs G : List (Formula Symbol)}

theorem emit_eq_ok (h : db.emit = .ok G) : ∃ ψs, collect Plan.emit db.plans.toList = .ok ψs ∧
    G = distinct (db.facts.toList.map .atom ++ ψs) := by
  unfold emit at h
  cases hcollect : collect Plan.emit db.plans.toList with
  | error e => simp [hcollect] at h
  | ok ψs =>
    rw [hcollect] at h
    exact ⟨ψs, rfl, (Except.ok.inj h).symm⟩

/-- Whatever was found can be emitted. -/
theorem Sound.exists_emit (h : db.Sound) : ∃ G, db.emit = .ok G := by
  have hplans : ∀ p ∈ db.plans.toList, ∃ ψs, p.emit = .ok ψs := by
    intro p hp
    obtain ⟨k, hk⟩ := Array.mem_iff_getElem?.1 (Array.mem_toList_iff.1 hp)
    refine exists_collect_ok fun values hvalues => ?_
    obtain ⟨σ, rfl, -, -⟩ := h.found hk values hvalues
    have hground := Clause.isGround_inst σ p.clause
    rw [← (h.wellFormed.plans hk).instantiate_eq σ] at hground
    simp only [List.isEmpty_iff.1 hground]
    exact ⟨_, rfl⟩
  obtain ⟨ψs, hψs⟩ := exists_collect_ok hplans
  rw [emit, hψs]
  exact ⟨_, rfl⟩

/-- What is emitted are the ground facts and the instances of the clauses that may fire. -/
theorem Exhausted.mem_emit_iff (h : Exhausted φs db) (hemit : db.emit = .ok G) {ψ : Formula Symbol} :
    ψ ∈ G ↔ (∃ a, .atom a ∈ φs ∧ a.isGround = true ∧ ψ = .atom a) ∨
      ∃ c ∈ φs.flatMap Formula.clauses, ∃ σ, c.MayFire {a | db.Holds a} σ ∧ ψ = c.inst σ := by
  obtain ⟨ψs, hcollect, rfl⟩ := emit_eq_ok hemit
  rw [mem_distinct, List.mem_append, List.mem_map]
  refine or_congr ?_ ⟨fun hψ => ?_, ?_⟩
  · refine exists_congr fun a => ?_
    rw [h.facts, and_assoc, eq_comm (a := Formula.atom a)]
  · obtain ⟨p, hp, ψs', hψs', hmem⟩ := (mem_of_collect hcollect).1 hψ
    obtain ⟨k, hk⟩ := Array.mem_iff_getElem?.1 (Array.mem_toList_iff.1 hp)
    have hfits := h.sound.wellFormed.plans hk
    obtain ⟨values, hvalues, rfl⟩ := (Plan.mem_emit_iff hψs').1 hmem
    obtain ⟨σ, rfl, hfires, -⟩ := h.sound.found hk values hvalues
    refine ⟨p.clause, ?_, σ, (plan_fires_iff hfits).1 hfires, hfits.instantiate_eq σ⟩
    rw [← h.clauses]
    exact List.mem_map_of_mem hp
  · rintro ⟨c, hc, σ, hmay, rfl⟩
    obtain ⟨-, p, hp, rfl, hfound⟩ := h.found_of_mayFire hc hmay
    obtain ⟨k, hk⟩ := Array.mem_iff_getElem?.1 (Array.mem_toList_iff.1 hp)
    obtain ⟨ψs', hψs'⟩ := exists_ok_of_collect hcollect hp
    refine (mem_of_collect hcollect).2 ⟨p, hp, ψs', hψs', (Plan.mem_emit_iff hψs').2 ⟨_, hfound, ?_⟩⟩
    exact ((h.sound.wellFormed.plans hk).instantiate_eq σ).symm

/-- The formulas were loaded into a fresh database, which was saturated and then emitted. -/
theorem ground_eq_ok {limit : Option Nat} (hφs : ∀ φ ∈ φs, φ.isSupported = true)
    (h : (empty limit).ground φs = (db, .ok G)) : Saturated φs db ∧ db.emit = .ok G := by
  unfold ground at h
  rcases hload : (empty limit).load φs with ⟨loaded, _ | e⟩
  · rw [hload] at h
    rcases hrun : loaded.saturate with ⟨saturated, _ | e⟩
    · simp only [hrun] at h
      obtain ⟨rfl, hemit⟩ := Prod.mk.inj h
      exact ⟨(loaded_of_load hφs hload).saturated hrun, hemit⟩
    · simp [hrun] at h
  · simp [hload] at h

namespace Saturated

variable (h : Saturated φs db)

include h

/-- The ground description consists of the ground facts and of the instances that may fire. -/
theorem mem_emit_iff (hemit : db.emit = .ok G) {ψ : Formula Symbol} :
    ψ ∈ G ↔ (∃ a, .atom a ∈ φs ∧ a.isGround = true ∧ ψ = .atom a) ∨
      ∃ head body choice σ, .rule head body ∈ φs ∧ Chooses body choice ∧
        (∀ φ ∈ choice, (φ.inst σ).MayHold {a | db.Holds a}) ∧
        ψ = Clause.inst σ ⟨head, schedule choice⟩ := by
  rw [h.toExhausted.mem_emit_iff hemit]
  refine or_congr_right ⟨?_, ?_⟩
  · rintro ⟨c, hc, σ, hfire, rfl⟩
    have hmay := h.mayHold_of_mayFire hc hfire
    obtain ⟨head, body, choice, hrule, hchoice, rfl⟩ := h.mem_clauses_iff.1 hc
    exact ⟨head, body, choice, σ, hrule, hchoice, fun φ hφ => hmay φ (mem_schedule.2 hφ), rfl⟩
  · rintro ⟨head, body, choice, σ, hrule, hchoice, hmay, rfl⟩
    exact ⟨_, h.mem_clauses_iff.2 ⟨head, body, choice, hrule, hchoice, rfl⟩, σ,
      fun φ hφ _ => hmay φ (mem_schedule.1 hφ), rfl⟩

theorem isGround_of_mem_emit (hemit : db.emit = .ok G) : ∀ ψ ∈ G, ψ.isGround = true := by
  intro ψ hψ
  rcases (h.mem_emit_iff hemit).1 hψ with ⟨a, -, ha, rfl⟩ | ⟨head, body, choice, σ, -, -, -, rfl⟩
  · exact Formula.isGround_iff.2 (by simpa using ha)
  · exact Clause.isGround_inst σ _

/-- What follows from atoms that hold in the database holds in it. -/
theorem holds_of_mem_consequences {I : Set (Atom Symbol)} (hI : ∀ a ∈ I, db.Holds a) {a : Atom Symbol}
    (ha : a ∈ consequences φs I) : db.Holds a := by
  obtain ⟨σ, ⟨b, hb, rfl⟩ | ⟨head, body, hrule, rfl, htrue⟩⟩ := ha
  · have hground := h.isGround_of_mem hb
    rw [Atom.inst_of_isGround hground]
    exact h.holds_fact b hb hground
  · obtain ⟨choice, hchoice, htrue'⟩ := forall_trueIn_iff_exists_choice.1 htrue
    exact h.holds_rule hrule hchoice fun φ hφ => (htrue' φ hφ).mayHold hI

/-- Among atoms that hold in the database, the ground description concludes what the description
does. -/
theorem consequences_eq (hemit : db.emit = .ok G) {I : Set (Atom Symbol)} (hI : ∀ a ∈ I, db.Holds a) :
    consequences φs I = consequences G I := by
  ext b
  rw [mem_consequences_iff_concludes (h.isGround_of_mem_emit hemit)]
  constructor
  · rintro ⟨σ, ⟨a, ha, rfl⟩ | ⟨head, body, hrule, rfl, htrue⟩⟩
    · have hground := h.isGround_of_mem ha
      rw [Atom.inst_of_isGround hground]
      exact .inl ((h.mem_emit_iff hemit).2 (.inl ⟨a, ha, hground, rfl⟩))
    · obtain ⟨choice, hchoice, htrue'⟩ := forall_trueIn_iff_exists_choice.1 htrue
      have hmem : Clause.inst σ ⟨head, schedule choice⟩ ∈ G :=
        (h.mem_emit_iff hemit).2 (.inr ⟨head, body, choice, σ, hrule, hchoice,
          fun φ hφ => (htrue' φ hφ).mayHold hI, rfl⟩)
      rw [Clause.inst] at hmem
      split_ifs at hmem
      · exact .inl hmem
      · refine .inr ⟨_, hmem, fun φ hφ => ?_⟩
        obtain ⟨ψ, hψ, rfl⟩ := List.mem_map.1 hφ
        exact htrue' ψ (mem_schedule.1 hψ)
  · -- the conditions of an emitted rule are those of a choice, and a fact has none
    have hinst : ∀ {head body choice σ}, .rule head body ∈ φs → Chooses body choice →
        (∀ φ ∈ (schedule choice).map (Formula.inst σ), φ.TrueIn I) →
        head.inst σ ∈ consequences φs I := by
      intro head body choice σ hrule hchoice htrue
      refine ⟨σ, .inr ⟨head, body, hrule, rfl, forall_trueIn_iff_exists_choice.2 ⟨choice, hchoice, ?_⟩⟩⟩
      exact fun φ hφ => htrue _ (List.mem_map_of_mem (mem_schedule.2 hφ))
    rintro (hfact | ⟨body, hrule, htrue⟩)
    · rcases (h.mem_emit_iff hemit).1 hfact with ⟨a, ha, hground, heq⟩ |
        ⟨head, body, choice, σ, hrule, hchoice, -, heq⟩
      · obtain rfl := Formula.atom.inj heq
        exact ⟨id, .inl ⟨b, ha, (Atom.inst_of_isGround hground).symm⟩⟩
      · rw [Clause.inst] at heq
        split_ifs at heq with hnil
        obtain rfl := Formula.atom.inj heq
        exact hinst hrule hchoice (by rw [show schedule choice = [] from hnil]; simp)
    · rcases (h.mem_emit_iff hemit).1 hrule with ⟨a, -, -, heq⟩ |
        ⟨head, body', choice, σ, hrule', hchoice, -, heq⟩
      · cases heq
      · rw [Clause.inst] at heq
        split_ifs at heq
        obtain ⟨rfl, rfl⟩ := Formula.rule.inj heq
        exact hinst hrule' hchoice htrue

end Saturated

theorem nodup_emit (hemit : db.emit = .ok G) : G.Nodup := by
  obtain ⟨ψs, -, rfl⟩ := emit_eq_ok hemit
  exact nodup_distinct _

/-- The ground description is exact: it holds the ground facts and the instances that may fire, each
once.  It is adequate: among atoms that hold in the database, it has the same immediate consequences,
and these hold in the database. -/
theorem ground_exact_and_adequate (hφs : ∀ φ ∈ φs, φ.isSupported = true)
    (hground : (Database.empty none).ground φs = (db, .ok G)) :
    G.Nodup ∧ (∀ ψ ∈ G, ψ.isGround = true) ∧
      (∀ ψ, ψ ∈ G ↔ (∃ a, .atom a ∈ φs ∧ a.isGround = true ∧ ψ = .atom a) ∨
        ∃ head body choice σ, .rule head body ∈ φs ∧ Chooses body choice ∧
          (∀ φ ∈ choice, (φ.inst σ).MayHold {a | db.Holds a}) ∧
          ψ = Clause.inst σ ⟨head, schedule choice⟩) ∧
      ∀ I : Set (Atom Symbol), (∀ a ∈ I, a.isGround = true ∧ db.Holds a) →
        consequences φs I = consequences G I ∧ ∀ a ∈ consequences φs I, db.Holds a := by
  obtain ⟨h, hemit⟩ := ground_eq_ok hφs hground
  refine ⟨nodup_emit hemit, h.isGround_of_mem_emit hemit, fun ψ => h.mem_emit_iff hemit, fun I hI => ?_⟩
  have hholds : ∀ a ∈ I, db.Holds a := fun a ha => (hI a ha).2
  exact ⟨h.consequences_eq hemit hholds, fun a ha => h.holds_of_mem_consequences hholds ha⟩

theorem ground_exact_and_adequate_paths :
    (∀ φ ∈ paths, φ.isSupported = true) ∧
      ∃ db G, (Database.empty none).ground paths = (db, .ok G) ∧ G.length = 5 ∧ G.Nodup ∧
        ∀ I : Set (Atom Symbol), (∀ a ∈ I, a.isGround = true ∧ db.Holds a) →
          consequences paths I = consequences G I := by
  have hpaths : ∀ φ ∈ paths, φ.isSupported = true := by decide
  have hlength : (((Database.empty none).ground paths).2.map List.length).toOption = some 5 := by
    decide +kernel
  refine ⟨hpaths, ?_⟩
  rcases hground : (Database.empty none).ground paths with ⟨db, e | G⟩
  · rw [hground] at hlength
    cases hlength
  · rw [hground] at hlength
    obtain ⟨hnodup, -, -, hadequate⟩ := ground_exact_and_adequate hpaths hground
    exact ⟨db, G, rfl, Option.some.inj hlength, hnodup, fun I hI => (hadequate I hI).1⟩

end Database

end GameCircuit
