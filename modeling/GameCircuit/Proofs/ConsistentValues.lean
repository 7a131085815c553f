import GameCircuit.Proofs.CircuitMeaning
import GameCircuit.Proofs.CoherentCircuits

/-!
# Consistent values

The components of a circuit say what their values have to be (`Circuit.Consistent`): parts of the state, moves and the
start have theirs from outside, and all others from their inputs.  These conditions lead in circles, through
transitions, but the machine of a circuit, from which any components were removed, computes values that satisfy all of
them, and there are no others (`Machine.values_consistent_and_unique`).
-/

namespace GameCircuit

/-- The value is that of the only input, or false if there is no input. -/
def Component.Passes (component : Component) (v : Nat → Bool) (value : Bool) : Prop :=
  (component.inputs = [] ∧ value = false) ∨ ∃ i, component.inputs = [i] ∧ value = v i

theorem Component.passes_iff {component : Component} (h : component.inputs.length ≤ 1) {v : Nat → Bool} {value : Bool} :
    component.Passes v value ↔ value = component.singleValue v := by
  unfold Passes singleValue singleInput?
  rcases hinputs : component.inputs with _ | ⟨i, _ | ⟨j, rest⟩⟩
  · simp
  · simp
  · rw [hinputs, List.length_cons, List.length_cons] at h
    omega

namespace Circuit

/-- The value of a component fits those of its inputs and what comes from outside. -/
def Fits (c : Circuit) (s : Stimulus) (v : Nat → Bool) (id : Nat) (component : Component) : Prop :=
  match component.kind with
  | .proposition _ _ =>
    (id ∈ c.base → (v id = true ↔ id ∈ s.state)) ∧
    (id ∈ c.inputs → (v id = true ↔ id ∈ s.moves)) ∧
    (c.start = some id → v id = s.starting) ∧
    (id ∉ c.base → id ∉ c.inputs → c.start ≠ some id → component.Passes v (v id))
  | .and => v id = true ↔ ∀ i ∈ component.inputs, v i = true
  | .or => v id = true ↔ ∃ i ∈ component.inputs, v i = true
  | .not => component.Passes v (!v id)
  | .constant value => v id = value
  | .transition => component.Passes v (v id)

/-- The values of all components fit. -/
def Consistent (c : Circuit) (s : Stimulus) (v : Nat → Bool) : Prop :=
  ∀ id component, c.component? id = some component → c.Fits s v id component

variable {c : Circuit}

namespace Coherent

variable (h : c.Coherent)

include h

/-- For a proposition it does not matter in which order the sources of its value are asked for. -/
theorem fits_proposition_iff {s : Stimulus} {v : Nat → Bool} {id : Nat} {component : Component} {name : Atom Symbol}
    {underlying : Option (Atom Symbol)} (hid : c.component? id = some component)
    (hkind : component.kind = .proposition name underlying) :
    c.Fits s v id component ↔ v id = c.settle s v id component := by
  have hprop : component.isProposition = true := by
    rw [Component.isProposition, hkind]
    rfl
  have hpasses : component.Passes v (v id) ↔ v id = component.singleValue v :=
    Component.passes_iff (h.single hid (.inl hprop))
  have hcontains : ∀ ids : List Nat, v id = ids.contains id ↔ (v id = true ↔ id ∈ ids) := by
    intro ids
    rw [Bool.eq_iff_iff, List.contains_iff_mem]
  have hsettle : c.settle s v id component =
      if id ∈ c.base then s.state.contains id
      else if id ∈ c.inputs then s.moves.contains id
      else if c.start = some id then s.starting else component.singleValue v := by
    simp only [settle, Component.value, hkind, surface, List.contains_iff_mem, decide_eq_true_eq]
  simp only [Fits, hkind]
  rw [hsettle]
  by_cases hbase : id ∈ c.base
  · obtain ⟨hinput, hstart⟩ := h.state id hbase
    rw [if_pos hbase, hcontains]
    simp [hbase, hinput, hstart]
  · by_cases hinput : id ∈ c.inputs
    · have hstart := h.moves id hinput
      rw [if_neg hbase, if_pos hinput, hcontains]
      simp [hbase, hinput, hstart]
    · by_cases hstart : c.start = some id
      · simp [hbase, hinput, hstart]
      · simp [hbase, hinput, hstart, hpasses]

theorem fits_iff_settle {s : Stimulus} {v : Nat → Bool} {id : Nat} {component : Component}
    (hid : c.component? id = some component) : c.Fits s v id component ↔ v id = c.settle s v id component := by
  cases hkind : component.kind with
  | proposition name underlying => exact h.fits_proposition_iff hid hkind
  | and =>
    simp only [Fits, settle, Component.value, hkind]
    rw [← List.all_eq_true]
    exact Bool.eq_iff_iff.symm
  | or =>
    simp only [Fits, settle, Component.value, hkind]
    rw [← List.any_eq_true]
    exact Bool.eq_iff_iff.symm
  | not =>
    simp only [Fits, settle, Component.value, hkind]
    rw [Component.passes_iff (h.single hid (.inr (.inl hkind))), Bool.not_eq_eq_eq_not]
  | constant value => simp only [Fits, settle, Component.value, hkind]
  | transition =>
    simp only [Fits, settle, Component.value, hkind]
    exact Component.passes_iff (h.single hid (.inr (.inr hkind)))

/-- Values are consistent just if they solve the equations along which a circuit is evaluated. -/
theorem consistent_iff_solves {s : Stimulus} {v : Nat → Bool} : c.Consistent s v ↔ c.Solves (c.settle s) v :=
  forall₃_congr fun _ _ hid => h.fits_iff_settle hid

end Coherent

theorem size_evaluate (c : Circuit) (order : List Nat) (s : Stimulus) : (c.evaluate order s).size = c.capacity := by
  have hone : ∀ (v : Valuation) (id : Nat), (c.evaluateOne (c.layout s) v id).size = v.size := by
    intro v id
    unfold evaluateOne
    split <;> simp
  have hfold : ∀ (order : List Nat) (v : Valuation), (order.foldl (c.evaluateOne (c.layout s)) v).size = v.size := by
    intro order
    induction order with
    | nil => exact fun v => rfl
    | cons id order ih =>
      intro v
      rw [List.foldl_cons, ih, hone]
  rw [evaluate, hfold, Array.size_replicate]

end Circuit

/-- A machine has a value for every component, the values are consistent, and there are no other consistent values of
the components. -/
theorem Machine.values_consistent_and_unique {l : Lexicon} {roles : List Symbol} {φs : List (Formula Symbol)}
    {c : Circuit} {ids : List Nat} {m : Machine} (hbuild : Circuit.build l roles φs = .ok c)
    (hm : Machine.ofCircuit (c.removeEach ids) = .ok m) (s : Stimulus) :
    (m.values s).size = (c.removeEach ids).capacity ∧
    (c.removeEach ids).Consistent s (m.values s).get ∧
    ∀ v, (c.removeEach ids).Consistent s v →
      ∀ id, (c.removeEach ids).component? id ≠ none → v id = (m.values s).get id := by
  have hcoherent := Circuit.coherent_removeEach hbuild ids
  obtain ⟨hcircuit, horder⟩ := Machine.isOrder hcoherent.wired hm
  have hsolves := Machine.solves_values hcoherent.wired hm s
  refine ⟨?_, hcoherent.consistent_iff_solves.2 hsolves, fun v hv id hid => ?_⟩
  · rw [Machine.values, Circuit.size_evaluate, hcircuit]
  · exact horder.solution_unique (hcoherent.wired.isLocal_settle s) (hcoherent.consistent_iff_solves.1 hv) hsolves
      (Option.isSome_iff_ne_none.2 hid)

/-- The latch without the transition of the first lamp, 4, and without the move: the lamp is no part of the state any
more, and is off although the state says that it is lit; the negation of the move, 6, has no input, and holds. -/
theorem Machine.values_consistent_and_unique_latch :
    ∃ c m, Circuit.build Lexicon.initial [⟨14⟩] latch = .ok c ∧ Machine.ofCircuit (c.removeEach [9, 2, 5]) = .ok m ∧
      (c.removeEach [9, 2, 5]).Consistent ⟨[4, 11], [], false⟩ (m.values ⟨[4, 11], [], false⟩).get ∧
      ∀ v, (c.removeEach [9, 2, 5]).Consistent ⟨[4, 11], [], false⟩ v → v 4 = false ∧ v 6 = true := by
  have hrun : (match Circuit.build Lexicon.initial [⟨14⟩] latch with
      | .ok c =>
        match Machine.ofCircuit (c.removeEach [9, 2, 5]) with
        | .ok m => decide ((c.removeEach [9, 2, 5]).component? 4 ≠ none ∧ (c.removeEach [9, 2, 5]).component? 6 ≠ none ∧
            (m.values ⟨[4, 11], [], false⟩).get 4 = false ∧ (m.values ⟨[4, 11], [], false⟩).get 6 = true)
        | .error _ => false
      | .error _ => false) = true := by decide +kernel
  split at hrun
  · rename_i c hc
    split at hrun
    · rename_i m hm
      obtain ⟨hlamp, hnegation, hoff, hholds⟩ := of_decide_eq_true hrun
      obtain ⟨-, hconsistent, hunique⟩ := Machine.values_consistent_and_unique hc hm ⟨[4, 11], [], false⟩
      refine ⟨c, m, hc, hm, hconsistent, fun v hv => ⟨?_, ?_⟩⟩
      · rw [hunique v hv 4 hlamp, hoff]
      · rw [hunique v hv 6 hnegation, hholds]
    · cases hrun
  · cases hrun

end GameCircuit
