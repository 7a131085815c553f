import GameCircuit.Proofs.AcyclicCircuits

/-!
# Blocked components

Which component is reported when a circuit cannot be evaluated.  A component is blocked if a circle leads to it: it
lies on the circle or behind it.  The ordering gets to all components but the blocked ones
(`Circuit.Ordering.missing_iff_blocked`), and the first of these is reported
(`Circuit.combinationalCycle_iff_isLeast_blocked`), which need not lie on a circle
(`Circuit.combinationalCycle_detour_off_circle`).
-/

namespace GameCircuit

namespace Circuit

open Relation

variable {c : Circuit} {i j : Nat}

/-- A circle, on which no link comes out of a transition, leads to the component. -/
def Blocked (c : Circuit) (j : Nat) : Prop :=
  ∃ i, TransGen c.Leads i i ∧ ReflTransGen c.Leads i j

theorem blocked_of_circle (h : TransGen c.Leads i i) : c.Blocked i :=
  ⟨i, h, .refl⟩

/-- A blocked component has a blocked input, from which the links go on. -/
theorem Blocked.exists_leads (h : c.Blocked j) : ∃ i, c.Leads i j ∧ c.Blocked i := by
  obtain ⟨k, hcircle, hpath⟩ := h
  rcases ReflTransGen.cases_tail hpath with rfl | ⟨i, hki, hij⟩
  · obtain ⟨i, hki, hik⟩ := TransGen.tail'_iff.1 hcircle
    exact ⟨i, hik, j, hcircle, hki⟩
  · exact ⟨i, hij, k, hcircle, hki⟩

theorem Blocked.isSome (h : c.Blocked j) : (c.component? j).isSome = true := by
  obtain ⟨i, ⟨_, target, _, htarget, _⟩, -⟩ := h.exists_leads
  rw [htarget]
  rfl

/-- What is behind a circle does not get into a list in which each component stands behind those that it waits for. -/
theorem Blocked.not_mem (hlive : c.LeadsToLive) {order : List Nat}
    (hclosed : ∀ {n j : Nat}, order[n]? = some j → ∀ i, j ∈ c.dependents i → i ∈ order.take n) (h : c.Blocked j) :
    j ∉ order := by
  intro hj
  obtain ⟨n, hn⟩ := List.mem_iff_getElem?.1 hj
  -- by induction on the place in the list, as a blocked input would stand further ahead
  induction n using Nat.strongRecOn generalizing j with
  | ind n ih =>
    obtain ⟨i, hij, hi⟩ := h.exists_leads
    obtain ⟨m, hlt, hm⟩ := exists_getElem?_of_mem_take (hclosed hn i ((leads_iff_mem_dependents hlive).1 hij))
    exact ih m hlt hi (List.mem_of_getElem? hm) hm

theorem Ordering.missing_iff_blocked (hlive : c.LeadsToLive) {order counts : Array Nat}
    (h : c.Ordering ((c.live.map Prod.fst).filter (· ∉ order.toList)) [] order counts) :
    ((c.component? j).isSome = true ∧ j ∉ order.toList) ↔ c.Blocked j := by
  constructor
  · rintro ⟨hj, hmissing⟩
    exact h.exists_circle_of_missing hlive hj hmissing
  · intro hj
    exact ⟨hj.isSome, hj.not_mem hlive h.closed⟩

/-- The ordering fails at the first blocked component. -/
theorem evaluationOrder_eq_error_iff (hlive : c.LeadsToLive) {id : Nat} :
    c.evaluationOrder = .error (.combinationalCycle id) ↔ IsLeast {j | c.Blocked j} id := by
  obtain ⟨order, counts, hend, ⟨hok, hall⟩ | ⟨first, herror, hfirst, hmissing, hleast⟩⟩ := evaluationOrder_cases hlive
  · -- no component is blocked
    have hnone : ∀ j, ¬ c.Blocked j := by
      intro j hj
      obtain ⟨hlivej, hmissing⟩ := (hend.missing_iff_blocked hlive).2 hj
      exact hmissing (hall j hlivej)
    rw [hok]
    constructor
    · intro h
      cases h
    · intro h
      exact absurd h.1 (hnone id)
  · have hisLeast : IsLeast {j | c.Blocked j} first := by
      refine ⟨(hend.missing_iff_blocked hlive).1 ⟨hfirst, hmissing⟩, fun j hj => ?_⟩
      obtain ⟨hlivej, hmissingj⟩ := (hend.missing_iff_blocked hlive).2 hj
      exact hleast j hlivej hmissingj
    rw [herror]
    constructor
    · intro h
      cases h
      exact hisLeast
    · intro h
      rw [hisLeast.unique h]

theorem ofCircuit_eq_error_iff {e : CircuitError} :
    Machine.ofCircuit c = .error e ↔ c.evaluationOrder = .error e := by
  unfold Machine.ofCircuit
  cases c.evaluationOrder with
  | ok order => simp
  | error e' => simp

/-- The first blocked component lies on a circle unless all circles have higher numbers only. -/
theorem circle_iff_of_isLeast {id : Nat} (h : IsLeast {j | c.Blocked j} id) :
    TransGen c.Leads id id ↔ ∀ j, c.Blocked j → ∃ k ≤ j, TransGen c.Leads k k := by
  constructor
  · intro hcircle j hj
    exact ⟨id, h.2 hj, hcircle⟩
  · intro hall
    obtain ⟨k, hle, hcircle⟩ := hall id h.1
    have hge : id ≤ k := h.2 (blocked_of_circle hcircle)
    rwa [Nat.le_antisymm hge hle]

/-- If a circuit, from which any components were removed, has no machine, the component that is reported is the first
one to which a circle leads that has no link out of a transition.  It lies on such a circle just if no component with
a number below those on all circles is blocked. -/
theorem combinationalCycle_iff_isLeast_blocked {l : Lexicon} {roles : List Symbol} {φs : List (Formula Symbol)}
    (hbuild : Circuit.build l roles φs = .ok c) (ids : List Nat) (id : Nat) :
    (Machine.ofCircuit (c.removeEach ids) = .error (.combinationalCycle id) ↔
      IsLeast {j | (c.removeEach ids).Blocked j} id) ∧
    (Machine.ofCircuit (c.removeEach ids) = .error (.combinationalCycle id) →
      (TransGen (c.removeEach ids).Leads id id ↔
        ∀ j, (c.removeEach ids).Blocked j → ∃ k ≤ j, TransGen (c.removeEach ids).Leads k k)) := by
  have hlive := (coherent_removeEach hbuild ids).wired.leadsToLive
  have hiff : Machine.ofCircuit (c.removeEach ids) = .error (.combinationalCycle id) ↔
      IsLeast {j | (c.removeEach ids).Blocked j} id :=
    ofCircuit_eq_error_iff.trans (evaluationOrder_eq_error_iff hlive)
  exact ⟨hiff, fun h => circle_iff_of_isLeast (hiff.1 h)⟩

/-- The bell rings if the alarm is on, which comes first; and the alarm is on just if the siren is. -/
def detour : List (Formula Symbol) :=
  let bell : Atom Symbol := ⟨⟨14⟩, []⟩
  let alarm : Atom Symbol := ⟨⟨15⟩, []⟩
  let siren : Atom Symbol := ⟨⟨16⟩, []⟩
  [.rule bell [.atom alarm], .rule alarm [.atom siren], .rule siren [.atom alarm]]

/-- The first blocked component is 3, the body of the first rule, and 4 once that is removed. -/
theorem combinationalCycle_iff_isLeast_blocked_detour : ∃ c, Circuit.build Lexicon.initial [] detour = .ok c ∧
    IsLeast {j | (c.removeEach []).Blocked j} 3 ∧ IsLeast {j | (c.removeEach [3]).Blocked j} 4 := by
  have hrun : (match Circuit.build Lexicon.initial [] detour with
      | .ok c => decide ((c.removeEach []).evaluationOrder = .error (.combinationalCycle 3)) &&
          decide ((c.removeEach [3]).evaluationOrder = .error (.combinationalCycle 4))
      | .error _ => false) = true := by decide +kernel
  split at hrun
  · rename_i c hc
    obtain ⟨hwhole, hpart⟩ := Bool.and_eq_true_iff.1 hrun
    refine ⟨c, hc, (combinationalCycle_iff_isLeast_blocked hc [] 3).1.1 ?_,
      (combinationalCycle_iff_isLeast_blocked hc [3] 4).1.1 ?_⟩
    · exact ofCircuit_eq_error_iff.2 (of_decide_eq_true hwhole)
    · exact ofCircuit_eq_error_iff.2 (of_decide_eq_true hpart)
  · cases hrun

/-- The component that is reported need not lie on a circle: from the first rule the links lead to its head, 5, and
end there. -/
theorem combinationalCycle_detour_off_circle : ∃ c, Circuit.build Lexicon.initial [] detour = .ok c ∧
    Machine.ofCircuit (c.removeEach []) = .error (.combinationalCycle 3) ∧ ¬ TransGen (c.removeEach []).Leads 3 3 := by
  have hrun : (match Circuit.build Lexicon.initial [] detour with
      | .ok c => decide ((c.removeEach []).evaluationOrder = .error (.combinationalCycle 3)) &&
          (decide ((c.removeEach []).dependents 3 = [5]) && decide ((c.removeEach []).dependents 5 = []))
      | .error _ => false) = true := by decide +kernel
  split at hrun
  · rename_i c hc
    obtain ⟨hreport, hlinks⟩ := Bool.and_eq_true_iff.1 hrun
    obtain ⟨hthree, hfive⟩ := Bool.and_eq_true_iff.1 hlinks
    have hlive := (coherent_removeEach hc []).wired.leadsToLive
    refine ⟨c, hc, ofCircuit_eq_error_iff.2 (of_decide_eq_true hreport), fun hcircle => ?_⟩
    obtain ⟨j, hfirst, hrest⟩ := TransGen.head'_iff.1 hcircle
    rw [leads_iff_mem_dependents hlive, of_decide_eq_true hthree, List.mem_singleton] at hfirst
    subst hfirst
    rcases ReflTransGen.cases_head hrest with hsame | ⟨k, hsecond, -⟩
    · omega
    · rw [leads_iff_mem_dependents hlive, of_decide_eq_true hfive] at hsecond
      cases hsecond
  · cases hrun

end Circuit

end GameCircuit
