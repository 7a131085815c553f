import GameCircuit.Proofs.Saturation
import Mathlib.Data.Fintype.EquivFin
import Mathlib.Order.Bounds.Basic

/-!
# Grounding computes the least model

Reading negated atoms as no obstacle, the rules of a description have a least model.  After loading a
description and saturating, just the ground atoms of that model have their tuples in the tables, up to
relations that share their tuples.
-/

namespace GameCircuit

/-- `M`, a set of atoms with canonical relations, holds the ground facts and what the rules conclude from it.
Each condition but a negated atom has to hold, for some choice among the alternatives. -/
structure IsClosed (φs : List (Formula Symbol)) (M : Set (Atom Symbol)) : Prop where
  /-- The ground facts are in the set. -/
  facts : ∀ a, .atom a ∈ φs → a.isGround = true → a.canonical ∈ M
  /-- The heads of rules whose conditions may hold are in the set. -/
  rules : ∀ head body, .rule head body ∈ φs → ∀ choice, Chooses body choice → ∀ σ,
    (∀ φ ∈ choice, (φ.inst σ).MayHold {a | a.canonical ∈ M}) → (head.inst σ).canonical ∈ M

/-- What all closed sets share. -/
def leastModel (φs : List (Formula Symbol)) : Set (Atom Symbol) :=
  {a | ∀ M, IsClosed φs M → a ∈ M}

theorem isLeast_leastModel (φs : List (Formula Symbol)) :
    IsLeast {M | IsClosed φs M} (leastModel φs) := by
  constructor
  · refine ⟨fun a ha hground M hM => hM.facts a ha hground, ?_⟩
    intro head body hrule choice hchoice σ hmay M hM
    exact hM.rules head body hrule choice hchoice σ fun φ hφ =>
      (hmay φ hφ).mono fun a (ha : a.canonical ∈ leastModel φs) => ha M hM
  · exact fun M hM a ha => ha M hM

namespace Database

variable {db db' : Database} {φs : List (Formula Symbol)}

/-- The formulas were loaded into the database, and their rules fired until nothing new was found. -/
structure Exhausted (φs : List (Formula Symbol)) (db : Database) : Prop where
  sound : db.Sound
  complete : db.Complete
  clauses : db.plans.toList.map Plan.clause = φs.flatMap Formula.clauses
  facts : ∀ a, a ∈ db.facts.toList ↔ .atom a ∈ φs ∧ a.isGround = true
  holds_fact : ∀ a, .atom a ∈ φs → a.isGround = true → db.Holds a
  -- nothing holds that does not have to
  least : ∀ M : Set (Atom Symbol), (∀ a, .atom a ∈ φs → a.isGround = true → a.canonical ∈ M) →
    (∀ c ∈ φs.flatMap Formula.clauses, c.Respects M) → ∀ a, db.Holds a → a.canonical ∈ M

theorem exhausted_empty (limit : Option Nat) : Exhausted [] (empty limit) where
  sound := ⟨wellFormed_empty limit, fun hp => by simp [empty] at hp⟩
  complete hp := by simp [empty] at hp
  clauses := rfl
  facts := by simp [empty]
  holds_fact := by simp
  least M _ _ a ha := by simp [Holds, tableOf?, empty, tableNumber?] at ha

/-- What was found is still what the rules conclude when rules are added and more holds. -/
theorem Sound.extend {db' : Database} (hs : db.Sound) (hwf : db'.WellFormed)
    (hplans : ∃ ps, db'.plans.toList = db.plans.toList ++ ps ∧ ∀ p ∈ ps, p.found = .empty)
    (hholds : ∀ a, db.Holds a → db'.Holds a) : db'.Sound where
  wellFormed := hwf
  found {k p} hp values hvalues := by
    obtain ⟨ps, hps, hempty⟩ := hplans
    have hmem : p ∈ db.plans.toList ++ ps := by
      rw [← hps]
      exact Array.mem_toList_iff.2 (Array.mem_of_getElem? hp)
    rcases List.mem_append.1 hmem with hold | hnew
    · obtain ⟨k', hk'⟩ := Array.mem_iff_getElem?.1 (Array.mem_toList_iff.1 hold)
      obtain ⟨σ, rfl, hfires, hconcluded⟩ := hs.found hk' values hvalues
      refine ⟨σ, rfl, (plan_fires_iff (hwf.plans hp)).2 ?_, hholds _ hconcluded⟩
      exact ((plan_fires_iff (hs.wellFormed.plans hk')).1 hfires).mono hholds
    · rw [hempty p hnew] at hvalues
      simp at hvalues

theorem Adds.sound {cs : List (Clause Symbol)} {db' : Database} (hadds : Adds db db' cs) (hs : db.Sound) :
    db'.Sound := by
  obtain ⟨ps, hps, -, hempty⟩ := hadds.plans
  exact hs.extend hadds.wellFormed ⟨ps, hps, hempty⟩ fun a => (hadds.holds a).2

theorem Loads.sound {ψs : List (Formula Symbol)} {loaded : Database} (hloads : Loads db ψs loaded)
    (hs : db.Sound) : loaded.Sound := by
  obtain ⟨ps, hps, -, hempty⟩ := hloads.plans
  refine hs.extend hloads.wellFormed ⟨ps, hps, hempty⟩ fun a ha => ?_
  exact (hloads.holds a (hs.wellFormed.isGround_of_holds ha)).2 (.inl ha)

section Extend

variable {ψs : List (Formula Symbol)} {loaded : Database} (h : Exhausted φs db) (hloads : Loads db ψs loaded)

include h hloads

/-- If saturation goes on from what was covered, it ends with everything found. -/
theorem Exhausted.saturate (hcov : loaded.Covered) (hrun : loaded.saturate = (db', none)) :
    Exhausted (φs ++ ψs) db' := by
  have hsound := hloads.sound h.sound
  obtain ⟨hmoves, hcomplete⟩ := saturate_spec hsound hcov hrun
  obtain ⟨-, hfacts, hkept⟩ := hmoves.keeps
  have hclauses : loaded.plans.toList.map Plan.clause = (φs ++ ψs).flatMap Formula.clauses := by
    obtain ⟨ps, hps, hclauses, -⟩ := hloads.plans
    rw [hps, List.map_append, h.clauses, hclauses, List.flatMap_append]
  refine ⟨hmoves.sound hsound, hcomplete, hkept.trans hclauses, fun a => ?_, fun a ha hground => ?_,
    fun M hM hrules => ?_⟩
  · rw [hfacts, hloads.facts, h.facts, List.mem_append, or_and_right]
  · refine hmoves.holds ((hloads.holds a hground).2 ?_)
    exact (List.mem_append.1 ha).imp (h.holds_fact a · hground) fun ha' => ⟨a, ha', hground, rfl⟩
  · refine hmoves.within hsound (by rw [hclauses]; exact hrules) fun a ha => ?_
    rcases (hloads.holds a (hsound.wellFormed.isGround_of_holds ha)).1 ha with hold | ⟨b, hb, hground, heq⟩
    · refine h.least M (fun b hb => hM b (List.mem_append_left _ hb)) (fun c hc => hrules c ?_) a hold
      rw [List.flatMap_append]
      exact List.mem_append_left _ hc
    · rw [← heq]
      exact hM b (List.mem_append_right _ hb) hground

end Extend

/-- The formulas, facts and rules over literals, were loaded into the database, and it was saturated. -/
structure Saturated (φs : List (Formula Symbol)) (db : Database) : Prop extends Exhausted φs db where
  supported : ∀ φ ∈ φs, φ.isSupported = true

theorem Loaded.saturated (h : Loaded φs db) (hrun : db.saturate = (db', none)) : Saturated φs db' := by
  obtain ⟨hsupported, limit, hloads⟩ := h
  exact ⟨(exhausted_empty limit).saturate hloads (fun hr => absurd hloads.rounds hr) hrun, hsupported⟩

/-- A clause with conditions that may hold was fired: its head holds, and the values were found. -/
theorem Exhausted.found_of_mayFire (h : Exhausted φs db) {c : Clause Symbol}
    (hc : c ∈ φs.flatMap Formula.clauses) {σ : Symbol → Symbol} (hmay : c.MayFire {a | db.Holds a} σ) :
    db.Holds (c.head.inst σ) ∧ ∃ p ∈ db.plans.toList, p.clause = c ∧ p.vars.map σ ∈ p.found.toList := by
  rw [← h.clauses] at hc
  obtain ⟨p, hp, rfl⟩ := List.mem_map.1 hc
  obtain ⟨k, hk⟩ := Array.mem_iff_getElem?.1 (Array.mem_toList_iff.1 hp)
  have hfits := h.sound.wellFormed.plans hk
  have hfound := h.complete hk σ ((plan_fires_iff hfits).2 hmay)
  obtain ⟨τ, hτ, -, hholds⟩ := h.sound.found hk _ hfound
  rw [hfits.head_inst_congr hτ]
  exact ⟨hholds, p, hp, rfl, hfound⟩

namespace Saturated

variable (h : Saturated φs db)

include h

/-- The conditions of a clause are literals. -/
theorem mayHold_of_mayFire {c : Clause Symbol} (hc : c ∈ φs.flatMap Formula.clauses)
    {D : Set (Atom Symbol)} {σ : Symbol → Symbol} (hmay : c.MayFire D σ) :
    ∀ φ ∈ c.body, (φ.inst σ).MayHold D := by
  obtain ⟨φ, hφ, hcφ⟩ := List.mem_flatMap.1 hc
  exact fun ψ hψ => hmay ψ hψ (Formula.simple_of_mem_clauses (h.supported φ hφ) hcφ ψ hψ)

/-- Saturation does not end with a fact that has infinitely many instances. -/
theorem isGround_of_mem {a : Atom Symbol} (ha : .atom a ∈ φs) : a.isGround = true := by
  by_contra hground
  have hclause : (⟨a, []⟩ : Clause Symbol) ∈ φs.flatMap Formula.clauses :=
    List.mem_flatMap.2 ⟨_, ha, by simp [Formula.clauses, hground]⟩
  -- one finite list of values would hold every constant
  have hall : ∀ c : Symbol, ∃ p ∈ db.plans.toList, c ∈ p.found.toList.flatten := by
    intro c
    obtain ⟨-, p, hp, hpc, hfound⟩ := h.found_of_mayFire hclause (σ := fun _ => c) (by simp [Clause.MayFire])
    obtain ⟨k, hk⟩ := Array.mem_iff_getElem?.1 (Array.mem_toList_iff.1 hp)
    have hvars : ∃ x, x ∈ p.vars := by
      obtain ⟨x, hx⟩ : ∃ x, x ∈ a.vars := List.exists_mem_of_ne_nil _ fun hnil => by
        simp [Atom.isGround, hnil] at hground
      refine ⟨x, (h.sound.wellFormed.plans hk).mem_vars_iff.2 (.inl ?_)⟩
      rw [hpc]
      exact hx
    obtain ⟨x, hx⟩ := hvars
    exact ⟨p, hp, List.mem_flatten.2 ⟨_, hfound, List.mem_map_of_mem hx⟩⟩
  have hinfinite : Infinite Symbol := Infinite.of_injective Symbol.mk fun _ _ => Symbol.mk.inj
  obtain ⟨c, hc⟩ := Infinite.exists_notMem_finset
    (db.plans.toList.flatMap fun p => p.found.toList.flatten).toFinset
  refine hc (List.mem_toFinset.2 (List.mem_flatMap.2 ?_))
  exact hall c

/-- All clauses come from rules, since facts are ground. -/
theorem mem_clauses_iff {c : Clause Symbol} : c ∈ φs.flatMap Formula.clauses ↔
    ∃ head body choice, .rule head body ∈ φs ∧ Chooses body choice ∧ c = ⟨head, schedule choice⟩ := by
  rw [List.mem_flatMap]
  constructor
  · rintro ⟨φ, hφ, hc⟩
    cases φ with
    | atom a => simp [Formula.clauses, h.isGround_of_mem hφ] at hc
    | rule head body =>
      obtain ⟨choice, hchoice, rfl⟩ := List.mem_map.1 hc
      exact ⟨head, body, choice, hφ, mem_splitDisjunctions_iff.1 hchoice, rfl⟩
    | neg φ => simp [Formula.clauses] at hc
    | disj ψs => simp [Formula.clauses] at hc
  · rintro ⟨head, body, choice, hrule, hchoice, rfl⟩
    exact ⟨_, hrule, List.mem_map.2 ⟨choice, mem_splitDisjunctions_iff.2 hchoice, rfl⟩⟩

theorem respects_of_isClosed {M : Set (Atom Symbol)} (hM : IsClosed φs M) :
    ∀ c ∈ φs.flatMap Formula.clauses, c.Respects M := by
  intro c hc σ hfire
  have hmay := h.mayHold_of_mayFire hc hfire
  obtain ⟨head, body, choice, hrule, hchoice, rfl⟩ := h.mem_clauses_iff.1 hc
  exact hM.rules head body hrule choice hchoice σ fun φ hφ => hmay φ (mem_schedule.2 hφ)

/-- What holds in the database is closed under the rules. -/
theorem holds_rule {head : Atom Symbol} {body choice : List (Formula Symbol)}
    (hrule : .rule head body ∈ φs) (hchoice : Chooses body choice) {σ : Symbol → Symbol}
    (hmay : ∀ φ ∈ choice, (φ.inst σ).MayHold {a | db.Holds a}) : db.Holds (head.inst σ) := by
  have hclause := h.mem_clauses_iff.2 ⟨head, body, choice, hrule, hchoice, rfl⟩
  exact (h.found_of_mayFire hclause fun φ hφ _ => hmay φ (mem_schedule.1 hφ)).1

theorem isClosed : IsClosed φs {a | db.Holds a} where
  facts a ha hground := holds_canonical.2 (h.holds_fact a ha hground)
  rules head body hrule choice hchoice σ hmay := by
    refine holds_canonical.2 (h.holds_rule hrule hchoice fun φ hφ => ?_)
    exact (hmay φ hφ).mono fun a ha => holds_canonical.1 ha

end Saturated

/-- After a description was loaded into a fresh database and saturated, the tuples in the tables are
those of the atoms in the least model. -/
theorem holds_iff_mem_leastModel (hφs : ∀ φ ∈ φs, φ.isSupported = true) {loaded saturated : Database}
    (hload : (Database.empty none).load φs = (loaded, none))
    (hrun : loaded.saturate = (saturated, none)) :
    IsLeast {M | IsClosed φs M} (leastModel φs) ∧
      ∀ a, a.isGround = true → (saturated.Holds a ↔ a.canonical ∈ leastModel φs) := by
  have h : Saturated φs saturated := (loaded_of_load hφs hload).saturated hrun
  refine ⟨isLeast_leastModel φs, fun a _ => ⟨fun ha M hM => ?_, fun ha => ?_⟩⟩
  · exact h.least M hM.facts (h.respects_of_isClosed hM) a ha
  · exact holds_canonical.1 (ha _ h.isClosed)

/-- A graph with two edges, the paths along them between different nodes, and a relation that would close a path. -/
def paths : List (Formula Symbol) :=
  let a : Term Symbol := .const ⟨14⟩
  let b : Term Symbol := .const ⟨15⟩
  let c : Term Symbol := .const ⟨16⟩
  let edge (s t : Term Symbol) : Formula Symbol := .atom ⟨⟨17⟩, [s, t]⟩
  let closed (s t : Term Symbol) : Formula Symbol := .atom ⟨⟨18⟩, [s, t]⟩
  let path (s t : Term Symbol) : Atom Symbol := ⟨⟨19⟩, [s, t]⟩
  let x := .var ⟨20⟩
  let y := .var ⟨21⟩
  let z := .var ⟨22⟩
  [edge a b, edge b c, .rule (path x y) [edge x y],
    .rule (path x z) [.neg (closed x z), .atom (path x y), .atom ⟨Keyword.distinct, [x, z]⟩,
      .disj [edge y z, closed y z]]]

theorem holds_iff_mem_leastModel_paths :
    (∀ φ ∈ paths, φ.isSupported = true) ∧
      ((empty none).load paths).2 = none ∧ ((empty none).load paths).1.saturate.2 = none ∧
      (⟨⟨19⟩, [.const ⟨14⟩, .const ⟨16⟩]⟩ : Atom Symbol) ∈ leastModel paths := by
  have hpaths : ∀ φ ∈ paths, φ.isSupported = true := by decide
  have hload : ((empty none).load paths).2 = none := by decide +kernel
  have hrun : ((empty none).load paths).1.saturate.2 = none := by decide +kernel
  refine ⟨hpaths, hload, hrun, ?_⟩
  have h := (holds_iff_mem_leastModel hpaths (eq_pair_of_snd hload) (eq_pair_of_snd hrun)).2
  exact (h ⟨⟨19⟩, [.const ⟨14⟩, .const ⟨16⟩]⟩ (by decide)).1 (by decide +kernel)

end Database

end GameCircuit
