import GameCircuit.Proofs.Detaching

/-!
# Removing components

Components can be removed one after the other in any order.  `Circuit.restrict` says in one go what is left:
the components that were not removed, without their links to those that were, and the indices without them.
A restricted circuit is as sound as the whole (`Circuit.Sound.restrict`), so that removing one more component from it
leaves that one out, and restricts the circuit further (`Circuit.Sound.without_restrict`).  Only the set of removed
components counts.
-/

namespace GameCircuit

/-- The component without its links to the given ones. -/
def Component.apartFrom (gone : List Nat) (c : Component) : Component :=
  { c with inputs := c.inputs.filter (· ∉ gone), outputs := c.outputs.filter (· ∉ gone) }

namespace Circuit

/-- The transitions that feed a component. -/
def transitionsInto (c : Circuit) (id : Nat) : List Nat :=
  ((c.component? id).elim [] Component.inputs).filter fun i => (c.component? i).any Component.isTransition

/-- The circuit restricted to the components other than the given ones. -/
def restrict (c : Circuit) (gone : List Nat) : Circuit :=
  { c with
    components := c.components.mapIdx fun id component? =>
      if id ∈ gone then none else component?.map (Component.apartFrom gone)
    names := c.names.filter (·.2 ∉ gone)
    base := c.base.filter fun p => p ∉ gone ∧ ∀ t ∈ c.transitionsInto p, t ∉ gone
    inputs := c.inputs.filter (· ∉ gone)
    legal := c.legal.filter (·.2 ∉ gone)
    goals := c.goals.filter (·.2 ∉ gone)
    scores := c.scores.filter (·.1 ∉ gone)
    legalInputs := c.legalInputs.filter fun pair => pair.1 ∉ gone ∧ pair.2 ∉ gone
    inputLegals := c.inputLegals.filter fun pair => pair.1 ∉ gone ∧ pair.2 ∉ gone }

/-- Tries to remove a component: the circuit afterwards, and what went wrong, if anything did. -/
def tryRemove (c : Circuit) (id : Nat) : Circuit × Option CircuitError :=
  match c.remove id with
  | .ok (_, c') => (c', none)
  | .error e => (c, some e)

/-- The circuit after one component after the other was tried to be removed. -/
def removeEach (c : Circuit) (ids : List Nat) : Circuit := ids.foldl (fun c id => (c.tryRemove id).1) c

/-- The components that are removed when one after the other is tried. -/
def removedBy (c : Circuit) : List Nat → List Nat
  | [] => []
  | id :: ids =>
    if (c.tryRemove id).2.isNone then id :: (c.tryRemove id).1.removedBy ids
    else (c.tryRemove id).1.removedBy ids

/-- The component is the start or the terminal proposition. -/
def IsProtected (c : Circuit) (id : Nat) : Prop := c.start = some id ∨ c.terminal = some id

variable {c : Circuit} {gone gone' ids ids' : List Nat} {id : Nat}

/-! ## One removal -/

theorem tryRemove_of_protected (h : c.IsProtected id) : c.tryRemove id = (c, some (.protectedComponent id)) := by
  have hremove : c.remove id = .error (.protectedComponent id) := if_pos h
  rw [tryRemove, hremove]

theorem tryRemove_of_unknown (h : ¬ c.IsProtected id) (hid : c.component? id = none) :
    c.tryRemove id = (c, some (.unknownComponent id)) := by
  have hremove : c.remove id = .error (.unknownComponent id) := (if_neg h).trans (by rw [hid])
  rw [tryRemove, hremove]

theorem remove_of_live {component : Component} (h : ¬ c.IsProtected id) (hid : c.component? id = some component) :
    c.remove id = .ok (component, c.detach id component) := (if_neg h).trans (by rw [hid])

theorem tryRemove_of_live {component : Component} (h : ¬ c.IsProtected id) (hid : c.component? id = some component) :
    c.tryRemove id = (c.detach id component, none) := by
  rw [tryRemove, remove_of_live h hid]

theorem tryRemove_eq_error_iff {e : CircuitError} : (c.tryRemove id).2 = some e ↔
    (c.IsProtected id ∧ e = .protectedComponent id) ∨
      (¬ c.IsProtected id ∧ c.component? id = none ∧ e = .unknownComponent id) := by
  by_cases hprotected : c.IsProtected id
  · simp [tryRemove_of_protected hprotected, hprotected, eq_comm]
  · cases hid : c.component? id with
    | none => simp [tryRemove_of_unknown hprotected hid, hprotected, eq_comm]
    | some component => simp [tryRemove_of_live hprotected hid, hprotected]

/-- A removal that fails leaves the circuit as it is. -/
theorem tryRemove_unchanged (h : (c.tryRemove id).2 ≠ none) : (c.tryRemove id).1 = c := by
  unfold tryRemove at h ⊢
  split at h
  · exact absurd rfl h
  · rfl

/-! ## Restrictions -/

theorem component?_restrict (c : Circuit) (gone : List Nat) (id : Nat) : (c.restrict gone).component? id =
    if id ∈ gone then none else (c.component? id).map (Component.apartFrom gone) := by
  rw [component?, component?, restrict, Array.getElem?_mapIdx]
  cases c.components[id]? with
  | none => simp
  | some component? =>
    simp only [Option.map_some, Option.join_some]

theorem component?_restrict_eq_none :
    (c.restrict gone).component? id = none ↔ id ∈ gone ∨ c.component? id = none := by
  rw [component?_restrict]
  split_ifs with hgone
  · exact iff_of_true rfl (.inl hgone)
  · rw [Option.map_eq_none_iff, or_iff_right hgone]

theorem component?_restrict_eq_some {component' : Component} : (c.restrict gone).component? id = some component' ↔
    id ∉ gone ∧ ∃ component, c.component? id = some component ∧ component' = component.apartFrom gone := by
  rw [component?_restrict]
  split_ifs with hgone
  · exact iff_of_false (by simp) fun h => h.1 hgone
  · rw [and_iff_right hgone, Option.map_eq_some_iff]
    exact exists_congr fun component => and_congr_right fun _ => eq_comm

theorem mem_base_restrict :
    id ∈ (c.restrict gone).base ↔ id ∈ c.base ∧ id ∉ gone ∧ ∀ t ∈ c.transitionsInto id, t ∉ gone := by
  rw [restrict, List.mem_filter, decide_eq_true_iff]

theorem mem_names_restrict {a : Atom Symbol} : (a, id) ∈ (c.restrict gone).names ↔ (a, id) ∈ c.names ∧ id ∉ gone := by
  rw [restrict, List.mem_filter, decide_eq_true_iff]

theorem mem_legalInputs_restrict {pair : Nat × Nat} :
    pair ∈ (c.restrict gone).legalInputs ↔ pair ∈ c.legalInputs ∧ pair.1 ∉ gone ∧ pair.2 ∉ gone := by
  rw [restrict, List.mem_filter, decide_eq_true_iff]

theorem mem_inputLegals_restrict {pair : Nat × Nat} :
    pair ∈ (c.restrict gone).inputLegals ↔ pair ∈ c.inputLegals ∧ pair.1 ∉ gone ∧ pair.2 ∉ gone := by
  rw [restrict, List.mem_filter, decide_eq_true_iff]

theorem restrict_congr (h : ∀ id, id ∈ gone ↔ id ∈ gone') : c.restrict gone = c.restrict gone' := by
  have hapart : Component.apartFrom gone = Component.apartFrom gone' := by
    funext component
    simp only [Component.apartFrom, h]
  simp only [restrict, hapart, h]

theorem restrict_nil (c : Circuit) : c.restrict [] = c := by
  have hapart : Component.apartFrom [] = id := by
    funext component
    simp [Component.apartFrom]
  have hcomponents : (c.restrict []).components = c.components := by
    refine Array.ext_getElem? fun i => ?_
    simp [restrict, hapart]
  refine Circuit.ext rfl hcomponents ?_ ?_ ?_ ?_ ?_ ?_ rfl rfl ?_ ?_ <;>
    simp [restrict]

/-- Taking one more number out of what is left. -/
theorem filter_not_mem_cons {α : Type} (f : α → Nat) (xs : List α) :
    (xs.filter fun a => f a ∉ gone).filter (fun a => f a ≠ id) = xs.filter fun a => f a ∉ id :: gone := by
  rw [List.filter_filter]
  refine List.filter_congr fun a _ => ?_
  simp [not_or]

namespace Sound

variable (h : c.Sound)

include h

/-- A part of the state is fed by a transition after a restriction if both are still there. -/
theorem isFedByTransition_restrict {p : Nat} (hp : p ∈ c.base) (gone : List Nat) :
    ((c.restrict gone).component? p).any (isFedByTransition (c.restrict gone).components) =
      decide (p ∉ gone ∧ ∀ t ∈ c.transitionsInto p, t ∉ gone) := by
  obtain ⟨component, t, source, hcomponent, hprop, hinputs, hsource, htransition⟩ := h.base p hp
  have hinto : c.transitionsInto p = [t] := by
    simp [transitionsInto, hcomponent, hinputs, hsource, htransition]
  rw [hinto, component?_restrict, hcomponent]
  by_cases hgone : p ∈ gone
  · simp [hgone]
  · have hprop' : (component.apartFrom gone).isProposition = true := hprop
    rw [if_neg hgone, Bool.eq_iff_iff, Option.map_some, Option.any_some, isFedByTransition_iff, decide_eq_true_iff,
      List.forall_mem_singleton, and_iff_right hgone, and_iff_right hprop']
    by_cases ht : t ∈ gone
    · simp [Component.apartFrom, hinputs, ht]
    · simp [Component.apartFrom, hinputs, ht, component?_restrict, hsource]
      exact htransition

/-- A sound circuit stays sound when components are left out. -/
theorem restrict (gone : List Nat) : (c.restrict gone).Sound where
  linked i j := by
    constructor
    · rintro ⟨source', hsource', hj⟩
      obtain ⟨hi, source, hsource, rfl⟩ := component?_restrict_eq_some.1 hsource'
      obtain ⟨hj, hjgone⟩ := List.mem_filter.1 hj
      obtain ⟨target, htarget, hmem⟩ := (h.linked i j).1 ⟨source, hsource, hj⟩
      exact ⟨_, component?_restrict_eq_some.2 ⟨by simpa using hjgone, target, htarget, rfl⟩,
        List.mem_filter.2 ⟨hmem, by simpa using hi⟩⟩
    · rintro ⟨target', htarget', hi⟩
      obtain ⟨hj, target, htarget, rfl⟩ := component?_restrict_eq_some.1 htarget'
      obtain ⟨hi, higone⟩ := List.mem_filter.1 hi
      obtain ⟨source, hsource, hmem⟩ := (h.linked i j).2 ⟨target, htarget, hi⟩
      exact ⟨_, component?_restrict_eq_some.2 ⟨by simpa using higone, source, hsource, rfl⟩,
        List.mem_filter.2 ⟨hmem, by simpa using hj⟩⟩
  nodup hid := by
    obtain ⟨-, component, hcomponent, rfl⟩ := component?_restrict_eq_some.1 hid
    exact ⟨(h.nodup hcomponent).1.filter _, (h.nodup hcomponent).2.filter _⟩
  name ha ha' := h.name (mem_names_restrict.1 ha).1 (mem_names_restrict.1 ha').1
  named ha := by
    obtain ⟨hmem, hgone⟩ := mem_names_restrict.1 ha
    obtain ⟨component, hcomponent, hname⟩ := h.named hmem
    exact ⟨_, component?_restrict_eq_some.2 ⟨hgone, component, hcomponent, rfl⟩, hname⟩
  base p hp := by
    obtain ⟨hbase, hkept⟩ := mem_base_restrict.1 hp
    have hfed := (h.isFedByTransition_restrict hbase gone).trans (decide_eq_true hkept)
    obtain ⟨component, hcomponent, hfed⟩ := (Option.any_eq_true _ _).1 hfed
    obtain ⟨hprop, t, source, hinputs, hsource, htransition⟩ := isFedByTransition_iff.1 hfed
    exact ⟨component, t, source, hcomponent, hprop, hinputs, hsource, htransition⟩
  nodup_base := h.nodup_base.filter _
  nodup_inputs := h.nodup_inputs.filter _
  input hpair hpair' := h.input (mem_legalInputs_restrict.1 hpair).1 (mem_legalInputs_restrict.1 hpair').1
  legal hpair hpair' := h.legal (mem_legalInputs_restrict.1 hpair).1 (mem_legalInputs_restrict.1 hpair').1
  live hpair := by
    obtain ⟨hmem, hlegal, hinput⟩ := mem_legalInputs_restrict.1 hpair
    rw [ne_eq, ne_eq, component?_restrict_eq_none, component?_restrict_eq_none]
    exact ⟨fun hgone => hgone.elim hlegal (h.live hmem).1, fun hgone => hgone.elim hinput (h.live hmem).2⟩
  inverse := by
    intro legal input
    rw [mem_legalInputs_restrict, mem_inputLegals_restrict, h.inverse, and_comm (a := legal ∉ gone)]

theorem without_restrict (gone : List Nat) (id : Nat) : (c.restrict gone).without id = c.restrict (id :: gone) := by
  have hlinks : ∀ component : Component, (component.apartFrom gone).without id = component.apartFrom (id :: gone) := by
    intro component
    simp only [Component.apartFrom, Component.without]
    rw [filter_not_mem_cons fun i => i, filter_not_mem_cons fun i => i]
  have hpairs : ∀ pairs : List (Nat × Nat),
      (pairs.filter fun pair => pair.1 ∉ gone ∧ pair.2 ∉ gone).filter (fun pair => pair.1 ≠ id ∧ pair.2 ≠ id) =
        pairs.filter fun pair => pair.1 ∉ id :: gone ∧ pair.2 ∉ id :: gone := by
    intro pairs
    refine (List.filter_filter ..).trans (List.filter_congr fun pair _ => ?_)
    rw [Bool.eq_iff_iff]
    simp only [Bool.and_eq_true, decide_eq_true_iff, List.mem_cons, not_or, ne_eq]
    exact and_and_and_comm
  have hcomponents : ((c.restrict gone).without id).components = (c.restrict (id :: gone)).components := by
    refine Array.ext_getElem? fun i => ?_
    rw [without, Circuit.restrict, Circuit.restrict]
    simp only [Array.getElem?_mapIdx, List.mem_cons]
    cases c.components[i]? with
    | none => rfl
    | some component? =>
      by_cases hi : i = id
      · simp [hi]
      · by_cases hgone : i ∈ gone
        · simp [hi, hgone]
        · simp only [Option.map_some, hi, hgone, or_self, if_false, Option.map_map]
          exact congrArg (fun f => some (component?.map f)) (funext hlinks)
  refine Circuit.ext rfl hcomponents (filter_not_mem_cons Prod.snd _) ?_ (filter_not_mem_cons (fun i => i) _)
    (filter_not_mem_cons Prod.snd _) (filter_not_mem_cons Prod.snd _) (filter_not_mem_cons Prod.fst _) rfl rfl ?_ ?_
  · have hcomponent? : ∀ p, ((c.restrict gone).without id).component? p = (c.restrict (id :: gone)).component? p :=
      fun p => by rw [component?, component?, hcomponents]
    refine (List.filter_filter ..).trans (List.filter_congr fun p hp => ?_)
    have hfed := h.isFedByTransition_restrict hp (id :: gone)
    rw [← hcomponents, ← hcomponent?] at hfed
    have hbase : ((c.restrict gone).without id).isBase p = _ := hfed
    show (((c.restrict gone).without id).isBase p && _) = _
    rw [hbase, Bool.eq_iff_iff]
    simp only [Bool.and_eq_true, decide_eq_true_iff, List.mem_cons, not_or]
    exact and_iff_left_of_imp fun hkept => ⟨hkept.1.2, fun t ht => (hkept.2 t ht).2⟩
  · exact hpairs _
  · exact hpairs _

/-! ## One removal after the other -/

theorem tryRemove_restrict (hid : ¬ c.IsProtected id) (hgone : id ∉ gone) (hlive : c.component? id ≠ none) :
    (c.restrict gone).tryRemove id = (c.restrict (id :: gone), none) := by
  obtain ⟨component, hcomponent⟩ := Option.ne_none_iff_exists'.1 hlive
  have hlive' := component?_restrict_eq_some.2 ⟨hgone, component, hcomponent, rfl⟩
  rw [tryRemove_of_live (c := c.restrict gone) hid hlive', (h.restrict gone).detach_eq_without hlive',
    h.without_restrict]

omit h in
/-- What cannot be removed leaves the circuit as it is. -/
theorem tryRemove_fails (hid : ¬ (¬ c.IsProtected id ∧ id ∉ gone ∧ c.component? id ≠ none)) :
    ∃ e, (c.restrict gone).tryRemove id = (c.restrict gone, some e) := by
  by_cases hprotected : c.IsProtected id
  · exact ⟨_, tryRemove_of_protected (c := c.restrict gone) hprotected⟩
  · refine ⟨_, tryRemove_of_unknown (c := c.restrict gone) hprotected (component?_restrict_eq_none.2 ?_)⟩
    by_contra hnot
    exact hid ⟨hprotected, not_or.1 hnot⟩

/-- What is removed, one component after the other, is what is restricted in the end. -/
theorem removeEach_restrict (ids gone : List Nat) :
    (c.restrict gone).removeEach ids = c.restrict ((c.restrict gone).removedBy ids ++ gone) := by
  induction ids generalizing gone with
  | nil => rfl
  | cons id ids ih =>
    rw [removeEach, List.foldl_cons, ← removeEach, removedBy]
    by_cases hid : ¬ c.IsProtected id ∧ id ∉ gone ∧ c.component? id ≠ none
    · rw [h.tryRemove_restrict hid.1 hid.2.1 hid.2.2, if_pos Option.isNone_none, ih]
      refine restrict_congr fun i => ?_
      simp [or_left_comm]
    · obtain ⟨e, he⟩ := tryRemove_fails hid
      rw [he, if_neg (by simp), ih]

/-- What can be removed is removed when its turn comes. -/
theorem mem_removedBy_restrict (ids gone : List Nat) : id ∈ (c.restrict gone).removedBy ids ↔
    id ∈ ids ∧ ¬ c.IsProtected id ∧ id ∉ gone ∧ c.component? id ≠ none := by
  induction ids generalizing gone with
  | nil => simp [removedBy]
  | cons i ids ih =>
    rw [removedBy]
    by_cases hi : ¬ c.IsProtected i ∧ i ∉ gone ∧ c.component? i ≠ none
    · rw [h.tryRemove_restrict hi.1 hi.2.1 hi.2.2, if_pos Option.isNone_none, List.mem_cons, ih, List.mem_cons]
      by_cases heq : id = i
      · subst heq
        simp [hi]
      · simp [heq]
    · obtain ⟨e, he⟩ := tryRemove_fails hi
      rw [he, if_neg (by simp), ih, List.mem_cons]
      by_cases heq : id = i
      · subst heq
        exact iff_of_false (fun hmem => hi hmem.2) fun hmem => hi hmem.2
      · rw [or_iff_right heq]

/-! ## Moves -/

/-- A restriction keeps the pairs of moves of which both are still there. -/
theorem inputOf?_restrict {legal input : Nat} : (c.restrict gone).inputOf? legal = some input ↔
    c.inputOf? legal = some input ∧ (c.restrict gone).component? legal ≠ none ∧
      (c.restrict gone).component? input ≠ none := by
  rw [inputOf?, inputOf?, lookup_iff_mem (h.restrict gone).input, lookup_iff_mem h.input, mem_legalInputs_restrict]
  refine and_congr_right fun hpair => ?_
  obtain ⟨hlegal, hinput⟩ := h.live hpair
  rw [ne_eq, ne_eq, component?_restrict_eq_none, component?_restrict_eq_none, or_iff_left hlegal, or_iff_left hinput]

/-- The moves of a sound circuit are paired one to one. -/
theorem legalOf?_eq_some_iff {legal input : Nat} : c.legalOf? input = some legal ↔ c.inputOf? legal = some input := by
  rw [legalOf?, inputOf?, lookup_iff_mem h.input, h.inverse]
  exact lookup_iff_mem fun hpair hpair' => h.legal (h.inverse.2 hpair) (h.inverse.2 hpair')

end Sound

end Circuit

/-- What is built is sound. -/
theorem Assembly.Explained.sound {origins : List (Formula Symbol × Nat)} {A F : Assembly} {l : Lexicon}
    {roles : List Symbol} (h : Explained origins A F) : (F.toCircuit l roles).Sound := by
  have hwell : (F.toCircuit l roles).WellFormed (origins.map Prod.fst) := h.wellFormed
  have hnames : ∀ {a id}, (a, id) ∈ (F.toCircuit l roles).names ↔ F.Named a id := OrderedMap.mem_toList_iff
  have hown : (F.ownNames.map Prod.fst).Nodup := by
    refine nodup_filterMap_zipIdx (fun {kind id p} hp => ?_) _
    obtain ⟨a, -, rfl⟩ := Option.map_eq_some_iff.1 hp
    rfl
  exact
    { linked := hwell.linked
      nodup := hwell.nodup
      name := fun ha ha' => (hnames.1 ha).eq (hnames.1 ha')
      named := fun ha => ⟨_, component?_of_kind (h.completes.named_kind (hnames.1 ha)), rfl⟩
      base := fun p hp => by
        obtain ⟨component, hcomponent, hprop, t, hinputs, inputs, outputs, ht⟩ := (hwell.base p).1 hp
        exact ⟨component, t, _, hcomponent, hprop, hinputs, ht, decide_eq_true rfl⟩
      nodup_base := hown.filter _
      nodup_inputs := hown.sublist (List.filter_sublist.map Prod.fst)
      input := h.eq_of_mem_pairs
      legal := h.eq_of_mem_pairs_input
      live := fun hpair => by
        obtain ⟨args, hlegal, hinput⟩ := hwell.sameArguments (h.inputOf?_iff.2 hpair)
        obtain ⟨_, _, hlegal'⟩ := hwell.named hlegal
        obtain ⟨_, _, hinput'⟩ := hwell.named hinput
        rw [hlegal', hinput']
        exact ⟨Option.some_ne_none _, Option.some_ne_none _⟩
      inverse := Built.mem_inputLegals.symm }

namespace Circuit

variable {c : Circuit}

theorem exists_explained_of_build {l : Lexicon} {roles : List Symbol} {φs : List (Formula Symbol)}
    (h : Circuit.build l roles φs = .ok c) :
    ∃ origins A F, Assembly.Explained origins A F ∧ c = F.toCircuit l roles := by
  obtain ⟨F, hF, rfl⟩ := Circuit.build_ok h
  obtain ⟨origins, A, -, hexplained⟩ := Assembly.exists_explained hF
  exact ⟨origins, A, F, hexplained, rfl⟩

theorem sound_of_build {l : Lexicon} {roles : List Symbol} {φs : List (Formula Symbol)}
    (h : Circuit.build l roles φs = .ok c) : c.Sound := by
  obtain ⟨origins, A, F, hexplained, rfl⟩ := exists_explained_of_build h
  exact hexplained.sound

/-- Removing is exact and atomic, and its order makes no difference.  In a circuit that was built and from which
components were removed, protected propositions and components that are not there cannot be removed, which
leaves the circuit as it is; all others can.  What is left is the circuit restricted to the components that were
not removed, so that it depends on the set of these only. -/
theorem removeEach_exact {l : Lexicon} {roles : List Symbol} {φs : List (Formula Symbol)}
    (h : Circuit.build l roles φs = .ok c) (ids : List Nat) :
    (∀ id e, ((c.removeEach ids).tryRemove id).2 = some e ↔
      (c.IsProtected id ∧ e = .protectedComponent id) ∨
        (¬ c.IsProtected id ∧ (c.removeEach ids).component? id = none ∧ e = .unknownComponent id)) ∧
    (∀ id, ((c.removeEach ids).tryRemove id).2 ≠ none → ((c.removeEach ids).tryRemove id).1 = c.removeEach ids) ∧
    (∀ id, id ∈ c.removedBy ids ↔ id ∈ ids ∧ ¬ c.IsProtected id ∧ c.component? id ≠ none) ∧
    c.removeEach ids = c.restrict (c.removedBy ids) ∧
    (∀ legal input, (c.removeEach ids).inputOf? legal = some input ↔ c.inputOf? legal = some input ∧
      (c.removeEach ids).component? legal ≠ none ∧ (c.removeEach ids).component? input ≠ none) ∧
    (∀ legal input, (c.removeEach ids).legalOf? input = some legal ↔
      (c.removeEach ids).inputOf? legal = some input) ∧
    ∀ ids', (∀ id, id ∈ c.removedBy ids ↔ id ∈ c.removedBy ids') → c.removeEach ids = c.removeEach ids' := by
  have hsound := sound_of_build h
  have hrestrict : ∀ ids, c.removeEach ids = c.restrict (c.removedBy ids) := by
    intro ids
    have hrun := hsound.removeEach_restrict ids []
    rwa [restrict_nil, List.append_nil] at hrun
  refine ⟨fun id e => ?_, fun id hfails => ?_, fun id => ?_, hrestrict ids, fun legal input => ?_, fun legal input => ?_,
    fun ids' hsame => ?_⟩
  · have hprotected : (c.removeEach ids).IsProtected id ↔ c.IsProtected id := by
      rw [hrestrict]
      exact Iff.rfl
    rw [tryRemove_eq_error_iff, hprotected]
  · exact tryRemove_unchanged hfails
  · have hmem : id ∈ (c.restrict []).removedBy ids ↔ _ := hsound.mem_removedBy_restrict ids []
    rw [restrict_nil] at hmem
    simpa using hmem
  · rw [hrestrict]
    exact hsound.inputOf?_restrict
  · rw [hrestrict]
    exact (hsound.restrict _).legalOf?_eq_some_iff
  · rw [hrestrict, hrestrict, restrict_congr hsame]

/-- The latch with numbers of components tried in turn: the transition of the first lamp, the start, which is
protected, the gate of the lamp, a component that is not there, the transition once more, and the move. -/
theorem removeEach_exact_latch : ∃ c, Circuit.build Lexicon.initial [⟨14⟩] latch = .ok c ∧
    c.removedBy [9, 2, 18, 99, 9, 5] = [9, 18, 5] ∧ c.base = [4, 11] ∧
    c.legalInputs = [(15, 5)] ∧ c.inputLegals = [(5, 15)] ∧
    c.removeEach [9, 2, 18, 99, 9, 5] = c.restrict [9, 18, 5] ∧ (c.restrict [9, 18, 5]).base = [11] ∧
    (c.restrict [9, 18, 5]).legalInputs = [] ∧ (c.restrict [9, 18, 5]).inputLegals = [] := by
  have hrun : (Circuit.build Lexicon.initial [⟨14⟩] latch).toOption.any (fun c =>
      decide (c.removedBy [9, 2, 18, 99, 9, 5] = [9, 18, 5] ∧ c.base = [4, 11] ∧
        (c.legalInputs = [(15, 5)] ∧ c.inputLegals = [(5, 15)]) ∧ (c.restrict [9, 18, 5]).base = [11] ∧
        (c.restrict [9, 18, 5]).legalInputs = [] ∧ (c.restrict [9, 18, 5]).inputLegals = [])) = true := by
    decide +kernel
  rcases hbuild : Circuit.build Lexicon.initial [⟨14⟩] latch with e | c
  · rw [hbuild] at hrun
    cases hrun
  · rw [hbuild] at hrun
    obtain ⟨hremoved, hbase, ⟨hinputs, hlegals⟩, hleft⟩ := of_decide_eq_true hrun
    refine ⟨c, rfl, hremoved, hbase, hinputs, hlegals, ?_, hleft⟩
    rw [← hremoved]
    exact (removeEach_exact hbuild _).2.2.2.1

end Circuit

end GameCircuit
