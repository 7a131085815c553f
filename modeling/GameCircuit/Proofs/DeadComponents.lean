import GameCircuit.Proofs.AcyclicCircuits
import GameCircuit.Proofs.JointMoves
import Mathlib.Data.List.Find

/-!
# Dead components

A component is dead (`Circuit.IsDead`) if nothing reads it: it has no outputs, and no index that play looks at has it.
The values of the other components solve the same equations without it, and equations along an order have one solution,
so that a machine computes the same values for them, though it may do so in another order.  Whatever play observes, it
observes in these values.
-/

namespace GameCircuit

/-- Looking up a key skips what is left out under other keys. -/
theorem lookup_filter {α β : Type} [BEq α] [LawfulBEq α] {p : α × β → Bool} {xs : List (α × β)} {k : α}
    (h : ∀ v, (k, v) ∈ xs → p (k, v) = true) : (xs.filter p).lookup k = xs.lookup k := by
  induction xs with
  | nil => rfl
  | cons x xs ih =>
    obtain ⟨a, b⟩ := x
    have hrest := ih fun v hv => h v (List.mem_cons_of_mem _ hv)
    by_cases hk : k = a
    · subst hk
      rw [List.filter_cons_of_pos (h b List.mem_cons_self), List.lookup_cons_self, List.lookup_cons_self]
    · have hne : (k == a) = false := beq_false_of_ne hk
      rw [List.lookup_cons, hne, ← hrest, List.filter_cons]
      split_ifs
      · rw [List.lookup_cons, hne]
      · rfl

namespace Circuit

variable {c : Circuit} {id i j : Nat}

/-- No component and no index of play depends on this component. -/
structure IsDead (c : Circuit) (id : Nat) : Prop where
  /-- It is there, and nothing reads it. -/
  outputs : ∃ component, c.component? id = some component ∧ component.outputs = []
  /-- It is neither the start nor the terminal proposition. -/
  unprotected : ¬ c.IsProtected id
  /-- It is no part of the state. -/
  base : id ∉ c.base
  /-- It is no move. -/
  inputs : id ∉ c.inputs
  /-- It is no legal move of any player. -/
  legal : ∀ role, (role, id) ∉ c.legal
  /-- It is no goal of any player. -/
  goals : ∀ role, (role, id) ∉ c.goals

/-! ## Circuits that lost components -/

theorem Sound.without_eq_restrict (h : c.Sound) (id : Nat) : c.without id = c.restrict [id] := by
  rw [← h.without_restrict [] id, restrict_nil]

/-- What is made when a legal move is made is a move. -/
theorem mem_inputs_of_mem_legalInputs {l : Lexicon} {roles : List Symbol} {φs : List (Formula Symbol)}
    (h : Circuit.build l roles φs = .ok c) {ids : List Nat} {pair : Nat × Nat}
    (hpair : pair ∈ (c.removeEach ids).legalInputs) : pair.2 ∈ (c.removeEach ids).inputs := by
  rw [removeEach_eq_restrict h] at hpair ⊢
  obtain ⟨hmem, -, hinput⟩ := mem_legalInputs_restrict.1 hpair
  refine List.mem_filter.2 ⟨?_, decide_eq_true hinput⟩
  obtain ⟨origins, A, F, hexplained, rfl⟩ := exists_explained_of_build h
  obtain ⟨a, -, -, -, hnamed⟩ := hexplained.mem_pairs_iff.1 hmem
  exact hexplained.mem_inputs_iff.2 ⟨a.args, hnamed⟩

/-! ## Circuits without a dead component -/

namespace IsDead

variable (h : c.IsDead id)

include h

theorem legalOf_ne {role : Symbol} (hj : j ∈ c.legalOf role) : j ≠ id := by
  rintro rfl
  exact h.legal role (mem_legalOf.1 hj)

theorem goalsOf_ne {role : Symbol} (hj : j ∈ c.goalsOf role) : j ≠ id := by
  rintro rfl
  obtain ⟨⟨role', j⟩, hmem, rfl⟩ := List.mem_map.1 hj
  exact h.goals role' (List.mem_filter.1 hmem).1

theorem inputs_without : (c.without id).inputs = c.inputs := by
  refine List.filter_eq_self.2 fun j hj => decide_eq_true ?_
  rintro rfl
  exact h.inputs hj

theorem legal_without : (c.without id).legal = c.legal := by
  refine List.filter_eq_self.2 fun move hmove => decide_eq_true ?_
  rintro rfl
  exact h.legal move.1 hmove

theorem goals_without : (c.without id).goals = c.goals := by
  refine List.filter_eq_self.2 fun goal hgoal => decide_eq_true ?_
  rintro rfl
  exact h.goals goal.1 hgoal

theorem legalOf_without (role : Symbol) : (c.without id).legalOf role = c.legalOf role := by
  rw [legalOf, legalOf, h.legal_without]

theorem goalsOf_without (role : Symbol) : (c.without id).goalsOf role = c.goalsOf role := by
  rw [goalsOf, goalsOf, h.goals_without]

omit h in
theorem score?_without (hj : j ≠ id) : (c.without id).score? j = c.score? j :=
  lookup_filter fun _ _ => decide_eq_true hj

theorem inputOf?_without (hpairs : ∀ pair ∈ c.legalInputs, pair.2 ∈ c.inputs) (hj : j ≠ id) :
    (c.without id).inputOf? j = c.inputOf? j := by
  refine lookup_filter fun input hinput => ?_
  have hne : input ≠ id := by
    rintro rfl
    exact h.inputs (hpairs _ hinput)
  simp [hj, hne]

section Coherent

variable (hc : c.Coherent)

include hc

theorem not_mem_inputs {component : Component} (hj : c.component? j = some component) : id ∉ component.inputs := by
  intro hid
  obtain ⟨source, hsource, hout⟩ := (hc.linked id j).2 ⟨component, hj, hid⟩
  obtain ⟨dead, hdead, houtputs⟩ := h.outputs
  obtain rfl : source = dead := Option.some.inj (hsource.symm.trans hdead)
  rw [houtputs] at hout
  cases hout

/-- The other components keep their kinds and inputs. -/
theorem component?_without_eq_some {component' : Component} (hj : (c.without id).component? j = some component') :
    j ≠ id ∧ ∃ component, c.component? j = some component ∧ component' = component.without id ∧
      component'.inputs = component.inputs := by
  rw [component?_without] at hj
  split_ifs at hj with hid
  obtain ⟨component, hcomponent, rfl⟩ := Option.map_eq_some_iff.1 hj
  refine ⟨hid, component, hcomponent, rfl, List.filter_eq_self.2 fun i hi => decide_eq_true ?_⟩
  rintro rfl
  exact h.not_mem_inputs hc hcomponent hi

/-- What is part of the state stays fed by the same transition. -/
theorem exists_fed_of_mem_base (hi : i ∈ c.base) : ∃ component, c.component? i = some component ∧
    (c.without id).component? i = some (component.without id) ∧ ∃ t, t ≠ id ∧ component.inputs = [t] ∧
      (component.without id).inputs = [t] ∧
        isFedByTransition (c.without id).components (component.without id) = true := by
  obtain ⟨component, t, source, hcomponent, hprop, hinputs, hsource, htransition⟩ := hc.base i hi
  have hne : i ≠ id := by
    rintro rfl
    exact h.base hi
  have htne : t ≠ id := by
    rintro rfl
    exact h.not_mem_inputs hc hcomponent (hinputs ▸ List.mem_singleton_self t)
  have hinputs' : (component.without id).inputs = [t] := by simp [Component.without, hinputs, htne]
  refine ⟨component, hcomponent, ?_, t, htne, hinputs, hinputs', ?_⟩
  · rw [component?_without, if_neg hne, hcomponent]
    rfl
  · refine isFedByTransition_iff.2 ⟨hprop, t, source.without id, hinputs', ?_, htransition⟩
    rw [component?_without, if_neg htne, hsource]
    rfl

theorem base_without : (c.without id).base = c.base := by
  refine List.filter_eq_self.2 fun i hi => ?_
  obtain ⟨component, -, hkept, t, -, -, -, hfed⟩ := h.exists_fed_of_mem_base hc hi
  show (c.without id).isBase i = true
  rw [isBase, hkept]
  exact hfed

theorem leads_of_without (hij : (c.without id).Leads i j) : c.Leads i j := by
  obtain ⟨source', target', hsource', htarget', hkind, hj⟩ := hij
  obtain ⟨-, source, hsource, rfl, -⟩ := h.component?_without_eq_some hc hsource'
  obtain ⟨-, target, htarget, -⟩ := h.component?_without_eq_some hc htarget'
  exact ⟨source, target, hsource, htarget, hkind, (List.mem_filter.1 hj).1⟩

/-- Values that solve the equations of the circuit also solve those without the dead component. -/
theorem solves_without {s : Stimulus} {v : Nat → Bool} (hv : c.Solves (c.settle s) v) :
    (c.without id).Solves ((c.without id).settle s) v := by
  intro j component' hj
  obtain ⟨-, component, hcomponent, rfl, hinputs⟩ := h.component?_without_eq_some hc hj
  have hsurface : (c.without id).surface s = c.surface s := by
    rw [surface, surface, h.base_without hc, h.inputs_without]
    rfl
  have hvalue : (component.without id).value (c.surface s) v j = component.value (c.surface s) v j := by
    unfold Component.value Component.singleValue Component.singleInput?
    rw [hinputs]
    rfl
  rw [hv hcomponent, settle, settle, hsurface, hvalue]

end Coherent

end IsDead

/-- What is not there has no value. -/
theorem get_evaluate_of_none (order : List Nat) (s : Stimulus) (hj : c.component? j = none) :
    (c.evaluate order s).get j = false := by
  rw [get_evaluate, run]
  refine List.foldlRecOn (motive := fun v : Nat → Bool => v j = false) order _ rfl fun v hv i _ => ?_
  cases hi : c.component? i with
  | none => exact hv
  | some component =>
    have hne : j ≠ i := by
      rintro rfl
      cases hj.symm.trans hi
    exact (if_neg hne).trans hv

end Circuit

namespace Machine

variable {c : Circuit} {id : Nat} {m m' : Machine}

open Circuit

/-- Without a dead component a circuit still has a machine. -/
theorem exists_ofCircuit_without (h : c.IsDead id) (hc : c.Coherent) (hm : ofCircuit c = .ok m) :
    ∃ m', ofCircuit (c.without id) = .ok m' := by
  have hc' : (c.without id).Coherent := by
    rw [hc.without_eq_restrict]
    exact hc.restrict [id]
  cases horder : (c.without id).evaluationOrder with
  | ok order => exact ⟨⟨c.without id, order⟩, by rw [ofCircuit, horder]⟩
  | error e =>
    -- a circle without the component is a circle with it
    obtain ⟨i, hi⟩ := exists_circle_of_error hc'.wired.leadsToLive horder
    have hacyclic := (isOrder hc.wired hm).2.acyclic hc.wired.leadsToLive
    have hle : (c.without id).Leads ≤ c.Leads := fun _ _ => h.leads_of_without hc
    exact absurd (Relation.TransGen.mono hle i i hi) (hacyclic i)

section Dead

variable (h : c.IsDead id) (hc : c.Coherent) (hm : ofCircuit c = .ok m)
  (hm' : ofCircuit (c.without id) = .ok m')

include hc hm hm'

theorem circuits_eq :
    m.circuit = c ∧ m'.circuit = c.without id ∧ (c.without id).Wired ∧ (c.without id).IsOrder m'.order := by
  have hwired : (c.without id).Wired := by
    rw [hc.without_eq_restrict]
    exact (hc.restrict [id]).wired
  exact ⟨(isOrder hc.wired hm).1, (isOrder hwired hm').1, hwired, (isOrder hwired hm').2⟩

include h

/-- The values of the other components are the same. -/
theorem get_values_without (s : Stimulus) {j : Nat} (hj : j ≠ id) : (m'.values s).get j = (m.values s).get j := by
  obtain ⟨hcircuit, hcircuit', hwired, horder⟩ := circuits_eq hc hm hm'
  cases hcomponent : c.component? j with
  | none =>
    rw [values, values, hcircuit, hcircuit', get_evaluate_of_none _ s hcomponent]
    refine get_evaluate_of_none _ s ?_
    rw [component?_without, if_neg hj, hcomponent]
    rfl
  | some component =>
    refine horder.solution_unique (hwired.isLocal_settle s) (solves_values hwired hm' s)
      (h.solves_without hc (solves_values hc.wired hm s)) ?_
    rw [component?_without, if_neg hj, hcomponent]
    rfl

theorem advance_without (s : Stimulus) : m'.advance (m'.values s) = m.advance (m.values s) := by
  obtain ⟨hcircuit, hcircuit', -, -⟩ := circuits_eq hc hm hm'
  rw [advance, advance, hcircuit, hcircuit', h.base_without hc]
  refine congrArg GameState.mk (List.filter_congr fun i hi => ?_)
  obtain ⟨component, hcomponent, hkept, t, htne, hinputs, hinputs', -⟩ := h.exists_fed_of_mem_base hc hi
  rw [hcomponent, hkept]
  simp only [Component.singleValue, Component.singleInput?, hinputs, hinputs']
  exact get_values_without h hc hm hm' s htne

theorem legalMoves_without (s : GameState) (role : Symbol) : m'.legalMoves s role = m.legalMoves s role := by
  obtain ⟨hcircuit, hcircuit', -, -⟩ := circuits_eq hc hm hm'
  rw [legalMoves, legalMoves, hcircuit, hcircuit', h.legalOf_without]
  exact List.filter_congr fun j hj => get_values_without h hc hm hm' _ (h.legalOf_ne hj)

theorem isTerminal_without (s : GameState) : m'.isTerminal s = m.isTerminal s := by
  obtain ⟨hcircuit, hcircuit', -, -⟩ := circuits_eq hc hm hm'
  rw [isTerminal, isTerminal, hcircuit, hcircuit', show (c.without id).terminal = c.terminal from rfl]
  cases hterminal : c.terminal with
  | none => rfl
  | some j =>
    refine get_values_without h hc hm hm' _ ?_
    rintro rfl
    exact h.unprotected (.inr hterminal)

theorem goal?_without (s : GameState) (role : Symbol) : m'.goal? s role = m.goal? s role := by
  obtain ⟨hcircuit, hcircuit', -, -⟩ := circuits_eq hc hm hm'
  have hfind : (c.goalsOf role).find? (m'.idleValues s).get = (c.goalsOf role).find? (m.idleValues s).get :=
    List.find?_congr fun j hj => get_values_without h hc hm hm' _ (h.goalsOf_ne hj)
  rw [goal?, goal?, hcircuit, hcircuit', h.goalsOf_without, hfind]
  cases hgoal : (c.goalsOf role).find? (m.idleValues s).get with
  | none => rfl
  | some j => exact IsDead.score?_without (h.goalsOf_ne (List.mem_of_find?_eq_some hgoal))

variable (hpairs : ∀ pair ∈ c.legalInputs, pair.2 ∈ c.inputs)

include hpairs

theorem inputFor_without (s : Stimulus) (moves : List Nat) (role : Symbol) :
    m'.inputFor (m'.values s) moves role = m.inputFor (m.values s) moves role := by
  obtain ⟨hcircuit, hcircuit', -, -⟩ := circuits_eq hc hm hm'
  unfold inputFor
  rw [hcircuit, hcircuit', h.legalOf_without]
  rcases hmoves : moves.filter ((c.legalOf role).contains ·) with _ | ⟨move, _ | ⟨other, rest⟩⟩
  · rfl
  · have hmem : move ∈ moves.filter ((c.legalOf role).contains ·) := hmoves ▸ List.mem_singleton_self move
    have hne : move ≠ id := h.legalOf_ne (by simpa using (List.mem_filter.1 hmem).2)
    simp only [get_values_without h hc hm hm' s hne, h.inputOf?_without hpairs hne]
  · rfl

theorem nextState_without (s : GameState) (moves : List Nat) : m'.nextState s moves = m.nextState s moves := by
  obtain ⟨hcircuit, hcircuit', -, -⟩ := circuits_eq hc hm hm'
  have hmove : m'.isMove = m.isMove := by
    funext move
    rw [isMove, isMove, hcircuit, hcircuit']
    simp only [h.legalOf_without]
    rfl
  have hroles : m'.circuit.roles = m.circuit.roles := by
    rw [hcircuit, hcircuit']
    rfl
  simp only [nextState, idleValues, hmove, hroles, inputFor_without h hc hm hm' hpairs, advance_without h hc hm hm']

end Dead

/-- A machine goes on playing the same game when a dead component is removed from its circuit. -/
theorem plays_same_without_dead {l : Lexicon} {roles : List Symbol} {φs : List (Formula Symbol)} {c : Circuit}
    {ids : List Nat} {m : Machine} {id : Nat} (hbuild : Circuit.build l roles φs = .ok c)
    (hm : ofCircuit (c.removeEach ids) = .ok m) (hdead : (c.removeEach ids).IsDead id) :
    ∃ component c' m', (c.removeEach ids).remove id = .ok (component, c') ∧ ofCircuit c' = .ok m' ∧
      m'.initialState = m.initialState ∧ ∀ s,
        (∀ role, m'.legalMoves s role = m.legalMoves s role) ∧ m'.isTerminal s = m.isTerminal s ∧
        (∀ role, m'.goal? s role = m.goal? s role) ∧ ∀ moves, m'.nextState s moves = m.nextState s moves := by
  have hc := coherent_removeEach hbuild ids
  obtain ⟨component, hcomponent, -⟩ := hdead.outputs
  obtain ⟨m', hm'⟩ := exists_ofCircuit_without hdead hc hm
  refine ⟨component, _, m', ?_, hm', advance_without hdead hc hm hm' _, fun s => ⟨?_, ?_, ?_, ?_⟩⟩
  · rw [remove_of_live hdead.unprotected hcomponent, hc.detach_eq_without hcomponent]
  · exact legalMoves_without hdead hc hm hm' s
  · exact isTerminal_without hdead hc hm hm' s
  · exact goal?_without hdead hc hm hm' s
  · exact nextState_without hdead hc hm hm' (fun _ => mem_inputs_of_mem_legalInputs hbuild) s

/-- In the latch without the transition of the first lamp, 9, nothing reads the proposition, 8, that the lamp is lit
next. -/
theorem plays_same_without_dead_latch :
    ∃ c m c' m' component, Circuit.build Lexicon.initial [⟨14⟩] latch = .ok c ∧ ofCircuit (c.removeEach [9]) = .ok m ∧
      (c.removeEach [9]).IsDead 8 ∧ (c.removeEach [9]).remove 8 = .ok (component, c') ∧ ofCircuit c' = .ok m' ∧
      ∀ s moves, m'.nextState s moves = m.nextState s moves := by
  have hrun : (match Circuit.build Lexicon.initial [⟨14⟩] latch with
      | .ok c =>
        match ofCircuit (c.removeEach [9]) with
        | .ok _ => decide (((c.removeEach [9]).component? 8).map Component.outputs = some [] ∧
            (c.removeEach [9]).start ≠ some 8 ∧ (c.removeEach [9]).terminal ≠ some 8 ∧ 8 ∉ (c.removeEach [9]).base ∧
            8 ∉ (c.removeEach [9]).inputs ∧ 8 ∉ (c.removeEach [9]).legal.map Prod.snd ∧
            8 ∉ (c.removeEach [9]).goals.map Prod.snd)
        | .error _ => false
      | .error _ => false) = true := by decide +kernel
  split at hrun
  · rename_i c hc
    split at hrun
    · rename_i m hm
      obtain ⟨houtputs, hstart, hterminal, hbase, hinputs, hlegal, hgoals⟩ := of_decide_eq_true hrun
      have hdead : (c.removeEach [9]).IsDead 8 := by
        refine ⟨Option.map_eq_some_iff.1 houtputs, not_or.2 ⟨hstart, hterminal⟩, hbase, hinputs, ?_, ?_⟩
        · exact fun role hmem => hlegal (List.mem_map_of_mem hmem)
        · exact fun role hmem => hgoals (List.mem_map_of_mem hmem)
      obtain ⟨component, c', m', hremove, hm', -, hplay⟩ := plays_same_without_dead hc hm hdead
      exact ⟨c, m, c', m', component, hc, hm, hdead, hremove, hm', fun s => (hplay s).2.2.2⟩
    · cases hrun
  · cases hrun

end Machine

end GameCircuit
