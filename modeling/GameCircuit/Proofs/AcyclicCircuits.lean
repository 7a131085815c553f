import GameCircuit.Proofs.CircuitMeaning
import GameCircuit.Proofs.CoherentCircuits
import Mathlib.Data.Fintype.Card
import Mathlib.Data.Set.Finite.List
import Mathlib.Logic.Relation
import Mathlib.Order.WellFounded

/-!
# Circuits that can be evaluated

A circuit has a machine just if its links, those out of transitions apart, lead in no circle
(`Circuit.exists_machine_iff_acyclic`).  While the order of evaluation is found, no component is released more often
than it waits for inputs: a count that refuses to go below zero gives the same order (`evaluationOrderChecked_eq`).
-/

namespace GameCircuit

open Relation

/-- Where each of finitely many elements has a predecessor among them, there is a circle. -/
theorem exists_transGen_self {α : Type} {r : α → α → Prop} {as : List α} {a : α} (ha : a ∈ as)
    (h : ∀ b ∈ as, ∃ b' ∈ as, r b' b) : ∃ b ∈ as, TransGen r b b := by
  by_contra hnone
  have hfinite : Finite {b // b ∈ as} := (List.finite_toSet as).to_subtype
  have htrans : IsTrans {b // b ∈ as} fun b b' => TransGen r b.1 b'.1 := ⟨fun _ _ _ => TransGen.trans⟩
  have hirrefl : Std.Irrefl fun b b' : {b // b ∈ as} => TransGen r b.1 b'.1 :=
    ⟨fun b hb => hnone ⟨b.1, b.2, hb⟩⟩
  have hwf : WellFounded fun b b' : {b // b ∈ as} => TransGen r b.1 b'.1 :=
    Finite.wellFounded_of_trans_of_irrefl _
  obtain ⟨least, -, hleast⟩ := hwf.has_min Set.univ ⟨⟨a, ha⟩, trivial⟩
  obtain ⟨b, hb, hr⟩ := h least.1 least.2
  exact hleast ⟨b, hb⟩ trivial (.single hr)

/-- Where each of finitely many elements has a predecessor among them, a circle leads to each of them. -/
theorem exists_circle_before {α : Type} {r : α → α → Prop} {as : List α} {a : α} (ha : a ∈ as)
    (h : ∀ b ∈ as, ∃ b' ∈ as, r b' b) : ∃ b, TransGen r b b ∧ ReflTransGen r b a := by
  classical
  -- the elements that lead to it are as many, and have their predecessors among them
  have hbefore : ∀ b ∈ as.filter (ReflTransGen r · a), ∃ b' ∈ as.filter (ReflTransGen r · a), r b' b := by
    intro b hb
    obtain ⟨hbas, hba⟩ := List.mem_filter.1 hb
    obtain ⟨b', hb', hr⟩ := h b hbas
    exact ⟨b', List.mem_filter.2 ⟨hb', decide_eq_true (.head hr (of_decide_eq_true hba))⟩, hr⟩
  obtain ⟨b, hb, hcircle⟩ := exists_transGen_self (List.mem_filter.2 ⟨ha, decide_eq_true .refl⟩) hbefore
  exact ⟨b, hcircle, of_decide_eq_true (List.mem_filter.1 hb).2⟩

namespace Circuit

/-- There is a link between two components, and it does not lead out of a transition. -/
def Leads (c : Circuit) (i j : Nat) : Prop :=
  ∃ source target, c.component? i = some source ∧ c.component? j = some target ∧ source.kind ≠ .transition ∧
    j ∈ source.outputs

/-- The links, those out of transitions apart, lead in no circle. -/
def Acyclic (c : Circuit) : Prop := ∀ i, ¬ TransGen c.Leads i i

variable {c : Circuit} {i j : Nat}

theorem leads_iff_mem_dependents (hlive : c.LeadsToLive) : c.Leads i j ↔ j ∈ c.dependents i := by
  constructor
  · rintro ⟨source, target, hsource, -, hkind, hj⟩
    exact mem_dependents_iff.2 ⟨source, hsource, decide_eq_false hkind, hj⟩
  · intro hj
    obtain ⟨target, htarget⟩ := Option.isSome_iff_exists.1 (hlive i j hj)
    obtain ⟨source, hsource, hkind, hout⟩ := mem_dependents_iff.1 hj
    exact ⟨source, target, hsource, htarget, of_decide_eq_false hkind, hout⟩

/-! ## Orders and circles -/

/-- In a list in which each component stands behind those that it waits for, what leads to a component stands before
it. -/
theorem exists_before_of_transGen (hlive : c.LeadsToLive) {order : List Nat}
    (hclosed : ∀ {n j : Nat}, order[n]? = some j → ∀ i, j ∈ c.dependents i → i ∈ order.take n) {n : Nat}
    (hij : TransGen c.Leads i j) (hn : order[n]? = some j) : ∃ m, m < n ∧ order[m]? = some i := by
  have hstep : ∀ {i j n : Nat}, c.Leads i j → order[n]? = some j → ∃ m, m < n ∧ order[m]? = some i :=
    fun hij hn => exists_getElem?_of_mem_take (hclosed hn _ ((leads_iff_mem_dependents hlive).1 hij))
  induction hij generalizing n with
  | single hlast => exact hstep hlast hn
  | tail _ hlast ih =>
    obtain ⟨k, hk, hmiddle⟩ := hstep hlast hn
    obtain ⟨m, hm, hi⟩ := ih hmiddle
    exact ⟨m, Nat.lt_trans hm hk, hi⟩

/-- No component of such a list lies on a circle. -/
theorem not_transGen_of_mem (hlive : c.LeadsToLive) {order : List Nat} (hnodup : order.Nodup)
    (hclosed : ∀ {n j : Nat}, order[n]? = some j → ∀ i, j ∈ c.dependents i → i ∈ order.take n) (hi : i ∈ order) :
    ¬ TransGen c.Leads i i := by
  intro hcircle
  obtain ⟨n, hn⟩ := List.mem_iff_getElem?.1 hi
  obtain ⟨m, hlt, hm⟩ := exists_before_of_transGen hlive hclosed hcircle hn
  have hlen : n < order.length := (List.getElem?_eq_some_iff.1 hn).1
  have heq := (List.getElem?_inj hlen hnodup).1 (hn.trans hm.symm)
  omega

theorem isSome_of_leads (h : c.Leads i j) : (c.component? i).isSome = true := by
  obtain ⟨source, -, hsource, -⟩ := h
  rw [hsource]
  rfl

theorem isSome_of_transGen (h : TransGen c.Leads i j) : (c.component? i).isSome = true := by
  obtain ⟨_, hfirst, -⟩ := TransGen.head'_iff.1 h
  exact isSome_of_leads hfirst

/-- Links along which a circuit can be ordered lead in no circle. -/
theorem IsOrder.acyclic (hlive : c.LeadsToLive) {order : List Nat} (h : c.IsOrder order) : c.Acyclic :=
  fun i hi => not_transGen_of_mem hlive h.nodup h.closed ((h.mem_iff i).2 (isSome_of_transGen hi)) hi

/-- A circle leads to each component that is missing from the order in the end. -/
theorem Ordering.exists_circle_of_missing (hlive : c.LeadsToLive) {order counts : Array Nat}
    (h : c.Ordering ((c.live.map Prod.fst).filter (· ∉ order.toList)) [] order counts)
    (hj : (c.component? j).isSome = true) (hmissing : j ∉ order.toList) :
    ∃ i, TransGen c.Leads i i ∧ ReflTransGen c.Leads i j := by
  set missing := (c.live.map Prod.fst).filter (· ∉ order.toList) with hdef
  have hmem : ∀ {k}, k ∈ missing ↔ (c.component? k).isSome = true ∧ k ∉ order.toList := by
    intro k
    rw [hdef, List.mem_filter, mem_live_map_fst_iff, decide_eq_true_iff]
  -- a missing component waits for another one
  have hwaits : ∀ k ∈ missing, ∃ k' ∈ missing, c.Leads k' k := by
    intro k hk
    obtain ⟨hlivek, hnot⟩ := hmem.1 hk
    have hpending : k ∈ missing.flatMap c.dependents := by
      by_contra hnone
      exact hnot (h.mem_iff.2 ⟨hlivek, by simpa using hnone⟩)
    obtain ⟨k', hk', hdepends⟩ := List.mem_flatMap.1 hpending
    exact ⟨k', hk', (leads_iff_mem_dependents hlive).2 hdepends⟩
  exact exists_circle_before (hmem.2 ⟨hj, hmissing⟩) hwaits

/-- If no order is found, the links lead in a circle. -/
theorem exists_circle_of_error (hlive : c.LeadsToLive) {e : CircuitError} (h : c.evaluationOrder = .error e) :
    ∃ i, TransGen c.Leads i i := by
  obtain ⟨order, counts, hend, ⟨hok, -⟩ | ⟨id, -, hid, hmissing, -⟩⟩ := evaluationOrder_cases hlive
  · cases h.symm.trans hok
  · obtain ⟨i, hcircle, -⟩ := hend.exists_circle_of_missing hlive hid hmissing
    exact ⟨i, hcircle⟩

/-! ## Counting with a check -/

/-- Marks one input of a component as done, unless the component waits for none. -/
def releaseChecked (progress : Array Nat × Array Nat) (id : Nat) : Option (Array Nat × Array Nat) :=
  if 0 < progress.2[id]?.getD 0 then some (release progress id) else none

/-- Evaluates components as `orderFrom` does, unless one is released that waits for none. -/
def orderFromChecked (c : Circuit) : (fuel i : Nat) → (order counts : Array Nat) → Option (Array Nat × Array Nat)
  | 0, _, order, counts => some (order, counts)
  | fuel + 1, i, order, counts =>
    match order[i]? with
    | none => some (order, counts)
    | some id =>
      match (c.dependents id).foldlM releaseChecked (order, counts) with
      | none => none
      | some progress => c.orderFromChecked fuel (i + 1) progress.1 progress.2

/-- The components in an order as in `evaluationOrder`, unless one is released that waits for none. -/
def evaluationOrderChecked (c : Circuit) : Option (Except CircuitError (List Nat)) :=
  (c.orderFromChecked c.capacity 0 c.ready.toArray c.waitCounts).map fun progress =>
    match (c.live.map Prod.fst).find? fun id => 0 < progress.2[id]?.getD 0 with
    | some id => .error (.combinationalCycle id)
    | none => .ok progress.1.toList

/-- What is to be released waits. -/
theorem Ordering.releaseChecked {rest pending : List Nat} {order counts : Array Nat} {t : Nat}
    (ht : (c.component? t).isSome = true) (h : c.Ordering rest (t :: pending) order counts) :
    Circuit.releaseChecked (order, counts) t = some (Circuit.release (order, counts) t) := by
  refine if_pos ?_
  show 0 < counts[t]?.getD 0
  rw [h.counts ht, List.cons_append, List.count_cons_self]
  exact Nat.succ_pos _

theorem Ordering.foldlM_releaseChecked (hlive : c.LeadsToLive) {rest pending : List Nat} {order counts : Array Nat}
    (hpending : ∀ t ∈ pending, t ∈ c.dependents i) (h : c.Ordering rest pending order counts) :
    pending.foldlM Circuit.releaseChecked (order, counts) = some (pending.foldl Circuit.release (order, counts)) := by
  induction pending generalizing order counts with
  | nil => rfl
  | cons t pending ih =>
    obtain ⟨ht, hpending'⟩ := List.forall_mem_cons.1 hpending
    rw [List.foldlM_cons, h.releaseChecked (hlive i t ht)]
    exact ih hpending' (h.release hlive ht)

theorem Ordering.orderFromChecked (hlive : c.LeadsToLive) {fuel n : Nat} {order counts : Array Nat}
    (h : c.Ordering (c.unseen n order) [] order counts) :
    c.orderFromChecked fuel n order counts = some (c.orderFrom fuel n order counts) := by
  induction fuel generalizing n order counts with
  | zero => rfl
  | succ fuel ih =>
    rw [Circuit.orderFromChecked, Circuit.orderFrom]
    cases hid : order[n]? with
    | none => rfl
    | some id =>
      simp only [(h.begin hid).foldlM_releaseChecked hlive fun t ht => ht]
      exact ih (h.look hlive hid)

/-- No count goes below zero. -/
theorem evaluationOrderChecked_eq (hlive : c.LeadsToLive) : c.evaluationOrderChecked = some c.evaluationOrder := by
  rw [evaluationOrderChecked, c.ordering_ready.orderFromChecked hlive]
  rfl

/-! ## Circuits with a machine -/

/-- The order lists each component behind its inputs, transitions apart. -/
theorem Coherent.mem_before (h : c.Coherent) {order before after : List Nat} (horder : c.IsOrder order)
    (hsplit : order = before ++ j :: after) {component : Component} (hj : c.component? j = some component)
    (hi : i ∈ component.inputs) (hkind : ∀ source, c.component? i = some source → source.kind ≠ .transition) :
    i ∈ before := by
  obtain ⟨source, hsource, hout⟩ := (h.linked i j).2 ⟨component, hj, hi⟩
  have hdepends : j ∈ c.dependents i :=
    (leads_iff_mem_dependents h.wired.leadsToLive).1 ⟨source, component, hsource, hj, hkind source hsource, hout⟩
  have hplace : order[before.length]? = some j := by
    rw [hsplit]
    simp
  have hmem := horder.closed hplace i hdepends
  rwa [hsplit, List.take_left] at hmem

/-- A circuit, from which any components were removed, has a machine just if its links, those out of transitions
apart, lead in no circle.  The machine has each component once in its order, behind the inputs that are no transitions,
and while the order is found, no count of inputs goes below zero. -/
theorem exists_machine_iff_acyclic {l : Lexicon} {roles : List Symbol} {φs : List (Formula Symbol)}
    (hbuild : Circuit.build l roles φs = .ok c) (ids : List Nat) :
    ((∃ m, Machine.ofCircuit (c.removeEach ids) = .ok m) ↔ (c.removeEach ids).Acyclic) ∧
    (∀ m, Machine.ofCircuit (c.removeEach ids) = .ok m →
      m.order.Nodup ∧ (∀ id, id ∈ m.order ↔ (c.removeEach ids).component? id ≠ none) ∧
      ∀ before id after component, m.order = before ++ id :: after →
        (c.removeEach ids).component? id = some component → ∀ i ∈ component.inputs,
        (∀ source, (c.removeEach ids).component? i = some source → source.kind ≠ .transition) → i ∈ before) ∧
    (c.removeEach ids).evaluationOrderChecked = some (c.removeEach ids).evaluationOrder := by
  have hcoherent := coherent_removeEach hbuild ids
  have hlive := hcoherent.wired.leadsToLive
  refine ⟨⟨?_, fun hacyclic => ?_⟩, fun m hm => ?_, evaluationOrderChecked_eq hlive⟩
  · rintro ⟨m, hm⟩
    exact (Machine.isOrder hcoherent.wired hm).2.acyclic hlive
  · cases horder : (c.removeEach ids).evaluationOrder with
    | error e =>
      obtain ⟨i, hi⟩ := exists_circle_of_error hlive horder
      exact absurd hi (hacyclic i)
    | ok order => exact ⟨⟨c.removeEach ids, order⟩, by rw [Machine.ofCircuit, horder]⟩
  · have horder := (Machine.isOrder hcoherent.wired hm).2
    refine ⟨horder.nodup, fun id => ?_, fun before id after component hsplit hid i hi hkind => ?_⟩
    · rw [horder.mem_iff, Option.isSome_iff_ne_none]
    · exact hcoherent.mem_before horder hsplit hid hi hkind

/-- It is quiet unless it is loud, and loud if it is quiet and the lamp is lit, which it is if it was loud before. -/
def ring : List (Formula Symbol) :=
  let quiet : Atom Symbol := ⟨⟨14⟩, []⟩
  let loud : Atom Symbol := ⟨⟨15⟩, []⟩
  let lamp : Term Symbol := .const ⟨16⟩
  [.rule quiet [.neg (.atom loud)], .rule loud [.atom quiet, .atom ⟨Keyword.holds, [lamp]⟩],
    .rule ⟨Keyword.next, [lamp]⟩ [.atom loud]]

/-- The ring cannot be evaluated.  Without the negation, 5, it can, as the other circle leads through a transition. -/
theorem exists_machine_iff_acyclic_ring : ∃ c, Circuit.build Lexicon.initial [] ring = .ok c ∧
    ¬ (c.removeEach []).Acyclic ∧ (c.removeEach [5]).Acyclic := by
  have hrun : (match Circuit.build Lexicon.initial [] ring with
      | .ok c => !(Machine.ofCircuit (c.removeEach [])).toBool && (Machine.ofCircuit (c.removeEach [5])).toBool
      | .error _ => false) = true := by decide +kernel
  split at hrun
  · rename_i c hc
    obtain ⟨hwhole, hpart⟩ := Bool.and_eq_true_iff.1 hrun
    refine ⟨c, hc, fun hacyclic => ?_, ?_⟩
    · obtain ⟨m, hm⟩ := (exists_machine_iff_acyclic hc []).1.2 hacyclic
      rw [hm] at hwhole
      cases hwhole
    · refine (exists_machine_iff_acyclic hc [5]).1.1 ?_
      cases hm : Machine.ofCircuit (c.removeEach [5]) with
      | ok m => exact ⟨m, rfl⟩
      | error e =>
        rw [hm] at hpart
        cases hpart
  · cases hrun

end Circuit

end GameCircuit
