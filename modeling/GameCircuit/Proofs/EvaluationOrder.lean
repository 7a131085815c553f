import GameCircuit.Play.Valuation
import GameCircuit.Proofs.Sequences
import Mathlib.Data.List.Count
import Mathlib.Tactic.Set
import Mathlib.Tactic.SplitIfs

/-!
# The order of evaluation is one

In the order that `Circuit.evaluationOrder` returns, each component stands once, and behind the ones that
it waits for (`Circuit.IsOrder`).  Along such an order, equations that give each component a value from
what it waits for have just one solution (`IsOrder.solution_unique`), which is computed one component
after the other (`IsOrder.solution_run`).
-/

namespace GameCircuit

namespace Circuit

variable {c : Circuit}

theorem mem_live_iff {id : Nat} {component : Component} :
    (id, component) ∈ c.live ↔ c.component? id = some component := by
  simp only [live, List.mem_filterMap, Prod.exists, List.mem_zipIdx_iff_getElem?, Array.getElem?_toList,
    component?]
  constructor
  · rintro ⟨component?, i, hi, h⟩
    obtain ⟨component', rfl, heq⟩ := Option.map_eq_some_iff.1 h
    obtain ⟨rfl, rfl⟩ := Prod.mk.inj heq
    rw [hi]
    rfl
  · intro h
    cases hi : c.components[id]? with
    | none => simp [hi] at h
    | some component? =>
      obtain rfl : component? = some component := by simpa [hi] using h
      exact ⟨some component, id, hi, rfl⟩

theorem mem_live_map_fst_iff {id : Nat} : id ∈ c.live.map Prod.fst ↔ (c.component? id).isSome = true := by
  rw [List.mem_map, Option.isSome_iff_exists]
  constructor
  · rintro ⟨⟨id, component⟩, h, rfl⟩
    exact ⟨component, mem_live_iff.1 h⟩
  · rintro ⟨component, h⟩
    exact ⟨(id, component), mem_live_iff.2 h, rfl⟩

theorem pairwise_live_map_fst (c : Circuit) : (c.live.map Prod.fst).Pairwise (· < ·) := by
  refine pairwise_filterMap_zipIdx (fun {component? i q} hq => ?_) _
  obtain ⟨component, -, rfl⟩ := Option.map_eq_some_iff.1 hq
  rfl

theorem nodup_live_map_fst (c : Circuit) : (c.live.map Prod.fst).Nodup :=
  (pairwise_live_map_fst c).imp Nat.ne_of_lt

/-- Links lead to components that are there. -/
def LeadsToLive (c : Circuit) : Prop := ∀ i, ∀ j ∈ c.dependents i, (c.component? j).isSome = true

/-- Each component stands once in the list, and behind those that it waits for. -/
structure IsOrder (c : Circuit) (order : List Nat) : Prop where
  nodup : order.Nodup
  mem_iff : ∀ id, id ∈ order ↔ (c.component? id).isSome = true
  closed : ∀ {n j : Nat}, order[n]? = some j → ∀ i, j ∈ c.dependents i → i ∈ order.take n

/-- The links out of a component are waited for, unless it is a transition. -/
theorem mem_dependents_iff {i j : Nat} : j ∈ c.dependents i ↔
    ∃ source, c.component? i = some source ∧ source.isTransition = false ∧ j ∈ source.outputs := by
  unfold dependents
  cases c.component? i with
  | none => simp
  | some source =>
    cases htransition : source.isTransition with
    | false => simp [htransition]
    | true => simp [htransition]

theorem isSome_of_mem_dependents {i j : Nat} (h : j ∈ c.dependents i) :
    (c.component? i).isSome = true := by
  obtain ⟨source, hsource, -⟩ := mem_dependents_iff.1 h
  exact Option.isSome_iff_exists.2 ⟨source, hsource⟩

/-! ## Releasing components -/

/-- The state of the ordering when the releases in `pending` are still to come, those of the components
in `rest` last. -/
structure Ordering (c : Circuit) (rest pending : List Nat) (order counts : Array Nat) : Prop where
  size : counts.size = c.capacity
  -- a component is counted once for each release to come
  counts : ∀ {j}, (c.component? j).isSome = true →
    counts[j]?.getD 0 = (pending ++ rest.flatMap c.dependents).count j
  mem_iff : ∀ {j}, j ∈ order.toList ↔
    (c.component? j).isSome = true ∧ j ∉ pending ++ rest.flatMap c.dependents
  -- components whose releases are not to come last are in the order
  cover : ∀ {i}, (c.component? i).isSome = true → i ∈ rest ∨ i ∈ order.toList
  nodup : order.toList.Nodup
  closed : ∀ {n j : Nat}, order.toList[n]? = some j → ∀ i, j ∈ c.dependents i → i ∈ order.toList.take n

theorem closed_push {order : List Nat} {t : Nat}
    (h : ∀ {n j : Nat}, order[n]? = some j → ∀ i, j ∈ c.dependents i → i ∈ order.take n)
    (ht : ∀ i, t ∈ c.dependents i → i ∈ order) {n j : Nat} (hn : (order ++ [t])[n]? = some j) (i : Nat)
    (hi : j ∈ c.dependents i) : i ∈ (order ++ [t]).take n := by
  rw [List.take_append]
  refine List.mem_append_left _ ?_
  by_cases hlt : n < order.length
  · rw [List.getElem?_append_left hlt] at hn
    exact h hn i hi
  · rw [List.getElem?_append_right (by omega), List.getElem?_singleton] at hn
    split_ifs at hn
    obtain rfl := Option.some.inj hn
    rw [List.take_of_length_le (by omega)]
    exact ht i hi

/-- One release. -/
theorem Ordering.release (hlive : c.LeadsToLive) {rest pending : List Nat} {order counts : Array Nat}
    {i t : Nat} (ht : t ∈ c.dependents i) (h : c.Ordering rest (t :: pending) order counts) :
    c.Ordering rest pending (release (order, counts) t).1 (release (order, counts) t).2 := by
  have htlive := hlive i t ht
  have hlt : t < counts.size := by
    obtain ⟨component, hcomponent⟩ := Option.isSome_iff_exists.1 htlive
    rw [h.size]
    exact component?_eq_some_lt hcomponent
  have hcount := h.counts htlive
  rw [List.cons_append, List.count_cons_self] at hcount
  set later := pending ++ rest.flatMap c.dependents
  have hnot : t ∉ order.toList := fun hmem => (h.mem_iff.1 hmem).2 (by simp)
  have hzero : counts[t]?.getD 0 - 1 = 0 ↔ t ∉ later := by
    rw [hcount, Nat.add_sub_cancel, List.count_eq_zero]
  refine ⟨?_, fun {j} hj => ?_, fun {j} => ?_, fun {k} hk => ?_, ?_, ?_⟩
  · simpa [Circuit.release] using h.size
  · simp only [Circuit.release, Array.getElem?_setIfInBounds]
    by_cases hjt : t = j
    · subst hjt
      rw [if_pos rfl, if_pos hlt, Option.getD_some, hcount, Nat.add_sub_cancel]
    · rw [if_neg hjt, h.counts hj, List.cons_append, List.count_cons_of_ne hjt]
  · simp only [Circuit.release]
    by_cases hjt : j = t
    · subst hjt
      split_ifs with h0
      · rw [Array.toList_push, List.mem_append]
        exact iff_of_true (.inr (by simp)) ⟨htlive, hzero.1 h0⟩
      · exact iff_of_false hnot fun hand => h0 (hzero.2 hand.2)
    · have hold : j ∈ order.toList ↔ (c.component? j).isSome = true ∧ j ∉ later := by
        rw [h.mem_iff, List.cons_append, List.mem_cons, not_or]
        exact and_congr_right fun _ => and_iff_right hjt
      split_ifs with h0
      · rw [Array.toList_push, List.mem_append, List.mem_singleton, or_iff_left hjt, hold]
      · exact hold
  · rcases h.cover hk with hrest | horder
    · exact .inl hrest
    · refine .inr ?_
      simp only [Circuit.release]
      split_ifs
      · simp [Array.mem_toList_iff.1 horder]
      · exact horder
  · simp only [Circuit.release]
    split_ifs with h0
    · rw [Array.toList_push, List.nodup_append]
      refine ⟨h.nodup, by simp, ?_⟩
      rintro a ha b hb rfl
      exact hnot (List.mem_singleton.1 hb ▸ ha)
    · exact h.nodup
  · simp only [Circuit.release]
    split_ifs with h0
    · rw [Array.toList_push]
      refine closed_push h.closed fun k hk => ?_
      refine (h.cover (isSome_of_mem_dependents hk)).resolve_left fun hrest => ?_
      exact hzero.1 h0 (List.mem_append_right _ (List.mem_flatMap.2 ⟨k, hrest, hk⟩))
    · exact h.closed

theorem Ordering.foldl_release (hlive : c.LeadsToLive) {rest pending : List Nat} {order counts : Array Nat}
    {i : Nat} (hpending : ∀ t ∈ pending, t ∈ c.dependents i) (h : c.Ordering rest pending order counts) :
    c.Ordering rest [] (pending.foldl Circuit.release (order, counts)).1
        (pending.foldl Circuit.release (order, counts)).2 ∧
      order.toList <+: (pending.foldl Circuit.release (order, counts)).1.toList := by
  induction pending generalizing order counts with
  | nil => exact ⟨h, List.prefix_refl _⟩
  | cons t pending ih =>
    obtain ⟨ht, hpending'⟩ := List.forall_mem_cons.1 hpending
    obtain ⟨h', hprefix⟩ := ih hpending' (h.release hlive ht)
    refine ⟨h', List.IsPrefix.trans ?_ hprefix⟩
    simp only [Circuit.release]
    split_ifs
    · rw [Array.toList_push]
      exact List.prefix_append _ _
    · exact List.prefix_refl _

/-! ## The whole order -/

theorem getElem?_waitCounts {j : Nat} (hj : (c.component? j).isSome = true) :
    c.waitCounts[j]?.getD 0 = ((c.live.map Prod.fst).flatMap c.dependents).count j := by
  have hlt : j < c.capacity := by
    obtain ⟨component, hcomponent⟩ := Option.isSome_iff_exists.1 hj
    exact component?_eq_some_lt hcomponent
  have hfold : ∀ (ids : List Nat) (counts : Array Nat), j < counts.size →
      (ids.foldl (fun counts id => counts.modify id (· + 1)) counts)[j]?.getD 0 =
        counts[j]?.getD 0 + ids.count j := by
    intro ids
    induction ids with
    | nil => simp
    | cons id ids ih =>
      intro counts hsize
      rw [List.foldl_cons, ih _ (by simpa using hsize), Array.getElem?_modify]
      by_cases hid : id = j
      · subst hid
        simp only [if_true, Array.getElem?_eq_getElem hsize, Option.map_some, Option.getD_some,
          List.count_cons_self]
        omega
      · rw [if_neg hid, List.count_cons_of_ne hid]
  rw [waitCounts, hfold _ _ (by simpa using hlt), List.flatMap_map]
  simp [hlt]

theorem size_waitCounts (c : Circuit) : c.waitCounts.size = c.capacity := by
  have hfold : ∀ (ids : List Nat) (counts : Array Nat),
      (ids.foldl (fun counts id => counts.modify id (· + 1)) counts).size = counts.size := by
    intro ids
    induction ids with
    | nil => simp
    | cons id ids ih =>
      intro counts
      rw [List.foldl_cons, ih, Array.size_modify]
  rw [waitCounts, hfold, Array.size_replicate]

theorem size_le_capacity {rest pending : List Nat} {order counts : Array Nat}
    (h : c.Ordering rest pending order counts) : order.size ≤ c.capacity := by
  have hsub : order.toList ⊆ List.range c.capacity := by
    intro j hj
    obtain ⟨component, hcomponent⟩ := Option.isSome_iff_exists.1 (h.mem_iff.1 hj).1
    exact List.mem_range.2 (component?_eq_some_lt hcomponent)
  simpa using h.nodup.length_le_of_subset hsub

/-- The components that were not looked at. -/
def unseen (c : Circuit) (i : Nat) (order : Array Nat) : List Nat :=
  (c.live.map Prod.fst).filter fun k => k ∉ order.toList.take i

/-- The next component is taken up: its dependents are to be released now, and those of what is behind it last. -/
theorem Ordering.begin {i id : Nat} {order counts : Array Nat} (h : c.Ordering (c.unseen i order) [] order counts)
    (hid : order[i]? = some id) : c.Ordering (c.unseen (i + 1) order) (c.dependents id) order counts := by
  have hid' : order.toList[i]? = some id := by simpa using hid
  have htake : order.toList.take (i + 1) = order.toList.take i ++ [id] := by
    rw [List.take_add_one, hid', Option.toList_some]
  have hfresh : id ∉ order.toList.take i := by
    have hnodup := h.nodup.sublist (List.take_sublist (i + 1) order.toList)
    rw [htake, List.nodup_append] at hnodup
    exact fun hmem => hnodup.2.2 id hmem id (by simp) rfl
  have hidlive : (c.component? id).isSome = true :=
    (h.mem_iff.1 (List.mem_of_getElem? hid')).1
  have hperm : (c.unseen i order).Perm (id :: c.unseen (i + 1) order) := by
    refine (List.perm_ext_iff_of_nodup ((nodup_live_map_fst c).filter _) ?_).2 fun k => ?_
    · refine List.nodup_cons.2 ⟨?_, (nodup_live_map_fst c).filter _⟩
      simp [unseen, htake]
    · simp only [unseen, htake, List.mem_cons, List.mem_filter, List.mem_append, decide_eq_true_eq,
        List.not_mem_nil, or_false, not_or]
      constructor
      · rintro ⟨hk, hnot⟩
        by_cases hkid : k = id
        · exact .inl hkid
        · exact .inr ⟨hk, hnot, hkid⟩
      · rintro (rfl | ⟨hk, hnot, -⟩)
        · exact ⟨mem_live_map_fst_iff.2 hidlive, hfresh⟩
        · exact ⟨hk, hnot⟩
  have hlater : ((c.unseen i order).flatMap c.dependents).Perm
      (c.dependents id ++ (c.unseen (i + 1) order).flatMap c.dependents) :=
    hperm.flatMap_right _
  refine ⟨h.size, fun hj => ?_, fun {j} => ?_, fun hk => ?_, h.nodup, h.closed⟩
  · rw [h.counts hj, List.nil_append]
    exact hlater.count_eq _
  · rw [h.mem_iff, List.nil_append, hlater.mem_iff]
  · rcases h.cover hk with hrest | horder
    · rcases List.mem_cons.1 (hperm.mem_iff.1 hrest) with rfl | hrest'
      · exact .inr (List.mem_of_getElem? hid')
      · exact .inl hrest'
    · exact .inr horder

/-- Looking at the next component. -/
theorem Ordering.look (hlive : c.LeadsToLive) {i id : Nat} {order counts : Array Nat}
    (h : c.Ordering (c.unseen i order) [] order counts) (hid : order[i]? = some id) :
    c.Ordering (c.unseen (i + 1) ((c.dependents id).foldl Circuit.release (order, counts)).1) []
      ((c.dependents id).foldl Circuit.release (order, counts)).1
      ((c.dependents id).foldl Circuit.release (order, counts)).2 := by
  have hi : i < order.toList.length := by simpa using (Array.getElem?_eq_some_iff.1 hid).1
  obtain ⟨hend, hprefix⟩ := (h.begin hid).foldl_release hlive fun t ht => ht
  have hunseen : c.unseen (i + 1) ((c.dependents id).foldl Circuit.release (order, counts)).1 =
      c.unseen (i + 1) order := by
    obtain ⟨more, hmore⟩ := hprefix
    rw [unseen, unseen, ← hmore, List.take_append_of_le_length (by omega)]
  rw [hunseen]
  exact hend

/-- With fuel for the components that are left, all that come into the order are looked at. -/
theorem Ordering.orderFrom (hlive : c.LeadsToLive) {fuel i : Nat} {order counts : Array Nat}
    (h : c.Ordering (c.unseen i order) [] order counts) (hfuel : c.capacity ≤ fuel + i) :
    ∃ n, (c.orderFrom fuel i order counts).1.size ≤ n ∧
      c.Ordering (c.unseen n (c.orderFrom fuel i order counts).1) []
        (c.orderFrom fuel i order counts).1 (c.orderFrom fuel i order counts).2 := by
  induction fuel generalizing i order counts with
  | zero => exact ⟨i, Nat.le_trans (size_le_capacity h) (by omega), h⟩
  | succ fuel ih =>
    rw [Circuit.orderFrom]
    cases hid : order[i]? with
    | none => exact ⟨i, Array.getElem?_eq_none_iff.1 hid, h⟩
    | some id => exact ih (h.look hlive hid) (by omega)

/-- The components that wait for nothing. -/
def ready (c : Circuit) : List Nat := (c.live.map Prod.fst).filter fun id => c.waitCounts[id]?.getD 0 == 0

/-- Before the first component is looked at. -/
theorem ordering_ready (c : Circuit) : c.Ordering (c.unseen 0 c.ready.toArray) [] c.ready.toArray c.waitCounts := by
  have hready : ∀ j, j ∈ c.ready ↔
      (c.component? j).isSome = true ∧ j ∉ (c.live.map Prod.fst).flatMap c.dependents := by
    intro j
    rw [ready, List.mem_filter, mem_live_map_fst_iff, beq_iff_eq]
    refine and_congr_right fun hj => ?_
    rw [getElem?_waitCounts hj, List.count_eq_zero]
  have hunseen : c.unseen 0 c.ready.toArray = c.live.map Prod.fst := by simp [unseen]
  rw [hunseen]
  refine ⟨size_waitCounts c, getElem?_waitCounts, hready _, fun hi => ?_, ?_, ?_⟩
  · exact .inl (mem_live_map_fst_iff.2 hi)
  · exact (nodup_live_map_fst c).filter _
  · intro n j hj i hi
    refine absurd ?_ ((hready _).1 (List.mem_of_getElem? hj)).2
    exact List.mem_flatMap.2 ⟨i, mem_live_map_fst_iff.2 (isSome_of_mem_dependents hi), hi⟩

/-- In the end all components in the order were looked at.  Either these are all, or some component waits for one that
is not among them, and the first of these is reported. -/
theorem evaluationOrder_cases (hlive : c.LeadsToLive) : ∃ order counts : Array Nat,
    c.Ordering ((c.live.map Prod.fst).filter (· ∉ order.toList)) [] order counts ∧
      ((c.evaluationOrder = .ok order.toList ∧ ∀ id, (c.component? id).isSome = true → id ∈ order.toList) ∨
        ∃ id, c.evaluationOrder = .error (.combinationalCycle id) ∧ (c.component? id).isSome = true ∧
          id ∉ order.toList ∧ ∀ j, (c.component? j).isSome = true → j ∉ order.toList → id ≤ j) := by
  obtain ⟨n, hn, hend⟩ := c.ordering_ready.orderFrom hlive (show c.capacity ≤ c.capacity + 0 from Nat.le_refl _)
  rcases hfinal : c.orderFrom c.capacity 0 c.ready.toArray c.waitCounts with ⟨order, counts⟩
  rw [hfinal] at hn hend
  have hunseen : c.unseen n order = (c.live.map Prod.fst).filter (· ∉ order.toList) := by
    rw [unseen, List.take_of_length_le (by simpa using hn)]
  rw [hunseen] at hend
  refine ⟨order, counts, hend, ?_⟩
  -- a component is missing if it still waits
  have hmem : ∀ {id}, (c.component? id).isSome = true → (id ∈ order.toList ↔ counts[id]?.getD 0 = 0) := by
    intro id hid
    rw [hend.mem_iff, and_iff_right hid, hend.counts hid, List.count_eq_zero]
  rw [ready] at hfinal
  cases hfind : (c.live.map Prod.fst).find? fun id => 0 < counts[id]?.getD 0 with
  | some id =>
    have hid := mem_live_map_fst_iff.1 (List.mem_of_find?_eq_some hfind)
    have hpos : 0 < counts[id]?.getD 0 := by simpa using List.find?_some hfind
    refine .inr ⟨id, by simp only [evaluationOrder, hfinal, hfind], hid, fun hin => ?_, fun j hj hmissing => ?_⟩
    · have hzero := (hmem hid).1 hin
      omega
    · -- the components are looked through in the order of their numbers
      obtain ⟨-, before, after, hsplit, hbefore⟩ := List.find?_eq_some_iff_append.1 hfind
      have hjlive := mem_live_map_fst_iff.2 hj
      have hascending := pairwise_live_map_fst c
      rw [hsplit] at hjlive hascending
      rcases List.mem_append.1 hjlive with hearlier | hlater
      · have hzero := hbefore j hearlier
        exact absurd ((hmem hj).2 (by simpa using hzero)) hmissing
      · rcases List.mem_cons.1 hlater with rfl | hlater
        · exact Nat.le_refl j
        · have hsorted := (List.pairwise_append.1 hascending).2.1
          exact Nat.le_of_lt ((List.pairwise_cons.1 hsorted).1 j hlater)
  | none =>
    refine .inl ⟨by simp only [evaluationOrder, hfinal, hfind], fun id hid => (hmem hid).2 ?_⟩
    have hnot := List.find?_eq_none.1 hfind id (mem_live_map_fst_iff.2 hid)
    simpa using hnot

/-- The evaluation order is an order. -/
theorem isOrder_of_evaluationOrder (hlive : c.LeadsToLive) {order : List Nat}
    (h : c.evaluationOrder = .ok order) : c.IsOrder order := by
  obtain ⟨final, counts, hend, ⟨hok, hall⟩ | ⟨id, herror, -⟩⟩ := evaluationOrder_cases hlive
  · obtain rfl := Except.ok.inj (hok.symm.trans h)
    exact ⟨hend.nodup, fun id => ⟨fun hid => (hend.mem_iff.1 hid).1, hall id⟩, hend.closed⟩
  · cases herror.symm.trans h

/-! ## Equations along an order -/

/-- The right side of a component's equation depends only on what the component waits for. -/
def IsLocal (c : Circuit) (f : (Nat → Bool) → Nat → Component → Bool) : Prop :=
  ∀ ⦃id component⦄, c.component? id = some component → ∀ ⦃v v' : Nat → Bool⦄,
    (∀ i, id ∈ c.dependents i → v i = v' i) → f v id component = f v' id component

/-- The values `v` satisfy the equations of all components. -/
def Solves (c : Circuit) (f : (Nat → Bool) → Nat → Component → Bool) (v : Nat → Bool) : Prop :=
  ∀ ⦃id component⦄, c.component? id = some component → v id = f v id component

/-- Gives the components in the list their values, one after the other. -/
def run (c : Circuit) (f : (Nat → Bool) → Nat → Component → Bool) (order : List Nat) : Nat → Bool :=
  order.foldl (fun v id =>
    match c.component? id with
    | some component => fun i => if i = id then f v id component else v i
    | none => v) fun _ => false

theorem exists_getElem?_of_mem_take {order : List Nat} {i n : Nat} (h : i ∈ order.take n) :
    ∃ m, m < n ∧ order[m]? = some i := by
  obtain ⟨m, hm⟩ := List.mem_iff_getElem?.1 h
  rw [List.getElem?_take] at hm
  split_ifs at hm with hlt
  exact ⟨m, hlt, hm⟩

namespace IsOrder

variable {order : List Nat} {f : (Nat → Bool) → Nat → Component → Bool}

/-- The equations have no two solutions. -/
theorem solution_unique (h : c.IsOrder order) (hf : c.IsLocal f) {v v' : Nat → Bool}
    (hv : c.Solves f v) (hv' : c.Solves f v') {id : Nat} (hid : (c.component? id).isSome = true) :
    v id = v' id := by
  -- by induction on the place of the component in the order
  obtain ⟨n, hn⟩ := List.mem_iff_getElem?.1 ((h.mem_iff id).2 hid)
  induction n using Nat.strongRecOn generalizing id with
  | ind n ih =>
    obtain ⟨component, hcomponent⟩ := Option.isSome_iff_exists.1 hid
    rw [hv hcomponent, hv' hcomponent]
    refine hf hcomponent fun i hi => ?_
    obtain ⟨m, hlt, hm⟩ := exists_getElem?_of_mem_take (h.closed hn i hi)
    exact ih m hlt (isSome_of_mem_dependents hi) hm

/-- What is computed along the order solves the equations. -/
theorem solves_run (h : c.IsOrder order) (hf : c.IsLocal f) : c.Solves f (c.run f order) := by
  -- each component keeps its value, since what comes later is not among what it waits for
  have hprefix : ∀ n ≤ order.length, ∀ id component, id ∈ order.take n →
      c.component? id = some component →
      c.run f (order.take n) id = f (c.run f (order.take n)) id component := by
    intro n
    induction n with
    | zero => simp
    | succ n ih =>
      intro hn id component hid hcomponent
      obtain ⟨j, hj⟩ : ∃ j, order[n]? = some j := ⟨order[n], List.getElem?_eq_getElem hn⟩
      have htake : order.take (n + 1) = order.take n ++ [j] := by
        rw [List.take_add_one, hj, Option.toList_some]
      have hfresh : j ∉ order.take n := by
        have hnodup := h.nodup.sublist (List.take_sublist (n + 1) order)
        rw [htake, List.nodup_append] at hnodup
        exact fun hmem => hnodup.2.2 j hmem j (by simp) rfl
      obtain ⟨cj, hcj⟩ := Option.isSome_iff_exists.1 ((h.mem_iff j).1 (List.mem_of_getElem? hj))
      set v := c.run f (order.take n)
      have hrun : c.run f (order.take (n + 1)) = fun i => if i = j then f v j cj else v i := by
        rw [htake, run, List.foldl_append, List.foldl_cons, List.foldl_nil, hcj]
        rfl
      -- what a component of the list waits for stands before the last one
      have hsame : ∀ {k m}, m ≤ n → order[m]? = some k → ∀ i, k ∈ c.dependents i →
          v i = c.run f (order.take (n + 1)) i := by
        intro k m hm hk i hi
        have hmem : i ∈ order.take n := by
          refine List.take_subset_take_left order hm ?_
          exact h.closed hk i hi
        have hij : i ≠ j := fun heq => hfresh (heq ▸ hmem)
        rw [hrun]
        simp [hij]
      by_cases hidj : id = j
      · subst hidj
        obtain rfl : cj = component := Option.some.inj (hcj.symm.trans hcomponent)
        rw [← hf hcomponent (hsame (Nat.le_refl n) hj), hrun]
        simp
      · have hmem : id ∈ order.take n := by
          rw [htake, List.mem_append, List.mem_singleton] at hid
          exact hid.resolve_right hidj
        obtain ⟨m, hm⟩ := List.mem_iff_getElem?.1 hmem
        rw [List.getElem?_take] at hm
        split_ifs at hm with hlt
        rw [← hf hcomponent (hsame (Nat.le_of_lt hlt) hm), ← ih (by omega) id component hmem hcomponent, hrun]
        simp [hidj]
  intro id component hcomponent
  have hid : id ∈ order := (h.mem_iff id).2 (by rw [hcomponent]; rfl)
  have hall := hprefix order.length (Nat.le_refl _) id component
  rw [List.take_length] at hall
  exact hall hid hcomponent

end IsOrder

/-! ## The values of a circuit -/

/-- The links of the components fit together, and only parts of the state are fed by transitions. -/
structure Wired (c : Circuit) : Prop where
  input : ∀ {id component}, c.component? id = some component → ∀ i ∈ component.inputs,
    ∃ source, c.component? i = some source ∧ id ∈ source.outputs
  output : ∀ {i source}, c.component? i = some source → ∀ j ∈ source.outputs,
    (c.component? j).isSome = true
  transition : ∀ {id component}, c.component? id = some component → ∀ i ∈ component.inputs,
    ∀ {source}, c.component? i = some source → source.isTransition = true →
      component.isProposition = true ∧ id ∈ c.base

namespace Wired

variable (h : c.Wired)

include h

theorem leadsToLive : c.LeadsToLive := by
  intro i j hj
  obtain ⟨source, hsource, -, hout⟩ := mem_dependents_iff.1 hj
  exact h.output hsource j hout

/-- What a component reads it waits for, unless it is part of the state. -/
theorem mem_dependents {id : Nat} {component : Component} (hid : c.component? id = some component)
    (hbase : component.isProposition = true → id ∉ c.base) {i : Nat} (hi : i ∈ component.inputs) :
    id ∈ c.dependents i := by
  obtain ⟨source, hsource, hout⟩ := h.input hid i hi
  refine mem_dependents_iff.2 ⟨source, hsource, ?_, hout⟩
  rw [← Bool.not_eq_true]
  intro htransition
  obtain ⟨hprop, hmem⟩ := h.transition hid i hi hsource htransition
  exact hbase hprop hmem

/-- The value of a component depends on what the component waits for. -/
theorem isLocal_settle (s : Stimulus) : c.IsLocal (c.settle s) := by
  intro id component hid v v' hv
  have hinputs : (component.isProposition = true → id ∉ c.base) →
      ∀ i ∈ component.inputs, v i = v' i := fun hbase i hi => hv i (h.mem_dependents hid hbase hi)
  have hsingle : (component.isProposition = true → id ∉ c.base) →
      component.singleValue v = component.singleValue v' := by
    intro hbase
    unfold Component.singleValue Component.singleInput?
    rcases hlist : component.inputs with _ | ⟨i, _ | ⟨j, rest⟩⟩
    · rfl
    · exact hinputs hbase i (by rw [hlist]; simp)
    · rfl
  have hgate : component.kind.isProposition = false → component.isProposition = true → id ∉ c.base := by
    intro hkind hprop
    rw [Component.isProposition, hkind] at hprop
    cases hprop
  unfold settle Component.value
  cases hkind : component.kind with
  | proposition name underlying =>
    by_cases hbase : id ∈ c.base
    · simp [surface, hbase]
    · dsimp only
      rw [hsingle fun _ => hbase]
  | and =>
    have hsame := hinputs (hgate (by rw [hkind]; rfl))
    rw [Bool.eq_iff_iff, List.all_eq_true, List.all_eq_true]
    exact forall₂_congr fun i hi => by rw [hsame i hi]
  | or =>
    have hsame := hinputs (hgate (by rw [hkind]; rfl))
    rw [Bool.eq_iff_iff, List.any_eq_true, List.any_eq_true]
    exact exists_congr fun i => and_congr_right fun hi => by rw [hsame i hi]
  | not => exact congrArg (!·) (hsingle (hgate (by rw [hkind]; rfl)))
  | constant value => rfl
  | transition => exact hsingle (hgate (by rw [hkind]; rfl))

end Wired

theorem get_evaluate (c : Circuit) (order : List Nat) (s : Stimulus) :
    (c.evaluate order s).get = c.run (c.settle s) order := by
  have hfold : ∀ (order : List Nat) (v : Valuation) (u : Nat → Bool), v.size = c.capacity → v.get = u →
      (order.foldl (c.evaluateOne (c.layout s)) v).get = order.foldl (fun v id =>
        match c.component? id with
        | some component => fun i => if i = id then c.settle s v id component else v i
        | none => v) u := by
    intro order
    induction order with
    | nil => exact fun v u _ h => h
    | cons id order ih =>
      rintro v _ hsize rfl
      rw [List.foldl_cons, List.foldl_cons]
      cases hid : c.component? id with
      | none => exact ih _ _ (by simp [evaluateOne, hid, hsize]) (by simp [evaluateOne, hid])
      | some component =>
        refine ih _ _ (by simp [evaluateOne, hid, hsize]) (funext fun i => ?_)
        have hlt : id < v.size := hsize ▸ component?_eq_some_lt hid
        simp only [evaluateOne, hid, value_layout hid]
        by_cases hi : i = id
        · subst hi
          simp [Valuation.get, hlt]
        · simp [Valuation.get, hi, Ne.symm hi]
  refine hfold order _ _ (by simp) (funext fun i => ?_)
  rw [Valuation.get, Array.getElem?_replicate]
  split_ifs <;> rfl

/-- The values that are computed satisfy the equations of the components. -/
theorem IsOrder.solves_evaluate {order : List Nat} (h : c.IsOrder order) (hc : c.Wired) (s : Stimulus) :
    c.Solves (c.settle s) (c.evaluate order s).get := by
  rw [get_evaluate]
  exact h.solves_run (hc.isLocal_settle s)

end Circuit

end GameCircuit
