import GameCircuit.Circuit.Removal
import GameCircuit.Proofs.WellFormedCircuits

/-!
# Removing one component

Removing a component walks over its links and mends one index after the other.  `Circuit.without` leaves the
component out of everything in one go.  If links go both ways, and the indices belong to the components
(`Circuit.Sound`), the two are the same (`Circuit.Sound.detach_eq_without`): whoever is linked to the component is
found by its links, the parts of the state among its outputs have no input left, and each map of moves has what the
other has.
-/

namespace GameCircuit

/-! ## What lists lose -/

theorem erase_eq_filter {as : List Nat} (h : as.Nodup) (a : Nat) : as.erase a = as.filter (· ≠ a) := by
  rw [h.erase_eq_filter]
  refine List.filter_congr fun b _ => Bool.eq_iff_iff.2 ?_
  simp

/-- Nothing is left out if nothing is to be. -/
theorem filter_ne_eq_self {α β : Type} [DecidableEq β] {f : α → β} {b : β} {as : List α} (h : ∀ a ∈ as, f a ≠ b) :
    as.filter (f · ≠ b) = as :=
  List.filter_eq_self.2 fun a ha => decide_eq_true (h a ha)

namespace Component

variable {c : Component} {id : Nat}

/-- The component without its links to another one. -/
def without (id : Nat) (c : Component) : Component :=
  { c with inputs := c.inputs.filter (· ≠ id), outputs := c.outputs.filter (· ≠ id) }

theorem dropInput_of_not_mem (h : id ∉ c.inputs) : c.dropInput id = c := by
  rw [dropInput, List.erase_of_not_mem h]

theorem dropOutput_of_not_mem (h : id ∉ c.outputs) : c.dropOutput id = c := by
  rw [dropOutput, List.erase_of_not_mem h]

/-- If no link is there twice, dropping the links on both sides leaves none. -/
theorem dropInput_dropOutput (hinputs : c.inputs.Nodup) (houtputs : c.outputs.Nodup) :
    (c.dropOutput id).dropInput id = c.without id := by
  simp [without, dropInput, dropOutput, erase_eq_filter hinputs, erase_eq_filter houtputs]

end Component

attribute [ext] Circuit

namespace Circuit

/-- The circuit with a component left out of everything. -/
def without (c : Circuit) (id : Nat) : Circuit :=
  let left : Circuit := { c with
    components := c.components.mapIdx fun i component? =>
      if i = id then none else component?.map (Component.without id) }
  { left with
    names := c.names.filter (·.2 ≠ id)
    base := c.base.filter left.isBase
    inputs := c.inputs.filter (· ≠ id)
    legal := c.legal.filter (·.2 ≠ id)
    goals := c.goals.filter (·.2 ≠ id)
    scores := c.scores.filter (·.1 ≠ id)
    legalInputs := c.legalInputs.filter fun pair => pair.1 ≠ id ∧ pair.2 ≠ id
    inputLegals := c.inputLegals.filter fun pair => pair.1 ≠ id ∧ pair.2 ≠ id }

variable {c : Circuit} {id i j : Nat} {component : Component}

theorem component?_without (c : Circuit) (id j : Nat) : (c.without id).component? j =
    if j = id then none else (c.component? j).map (Component.without id) := by
  rw [component?, component?, without, Array.getElem?_mapIdx]
  cases c.components[j]? with
  | none => simp
  | some component? => simp only [Option.map_some, Option.join_some]

theorem component?_modify (c : Circuit) (f : Component → Component) (i j : Nat) :
    (c.modify i f).component? j = if i = j then (c.component? j).map f else c.component? j := by
  rw [component?, component?, modify, Array.getElem?_modify]
  split_ifs
  · cases c.components[j]? with
    | none => rfl
    | some component? => rfl
  · rfl

/-- What the links and indices of a circuit have to do with its components. -/
structure Sound (c : Circuit) : Prop where
  /-- Links go both ways. -/
  linked : ∀ i j, (∃ source, c.component? i = some source ∧ j ∈ source.outputs) ↔
    ∃ target, c.component? j = some target ∧ i ∈ target.inputs
  /-- No two components are linked twice. -/
  nodup : ∀ {id component}, c.component? id = some component → component.inputs.Nodup ∧ component.outputs.Nodup
  /-- A name is the name of one component. -/
  name : ∀ {a i j}, (a, i) ∈ c.names → (a, j) ∈ c.names → i = j
  /-- The component is there and has that name. -/
  named : ∀ {a id}, (a, id) ∈ c.names → ∃ component, c.component? id = some component ∧ component.name? = some a
  /-- What makes up a state is fed by one transition. -/
  base : ∀ p ∈ c.base, ∃ component t source, c.component? p = some component ∧ component.isProposition = true ∧
    component.inputs = [t] ∧ c.component? t = some source ∧ source.isTransition = true
  /-- What makes up a state is listed once. -/
  nodup_base : c.base.Nodup
  /-- Moves are listed once. -/
  nodup_inputs : c.inputs.Nodup
  /-- A legal move goes with one move. -/
  input : ∀ {legal input input'}, (legal, input) ∈ c.legalInputs → (legal, input') ∈ c.legalInputs → input = input'
  /-- A move goes with one legal move. -/
  legal : ∀ {legal legal' input}, (legal, input) ∈ c.legalInputs → (legal', input) ∈ c.legalInputs → legal = legal'
  /-- Both are there. -/
  live : ∀ {legal input}, (legal, input) ∈ c.legalInputs → c.component? legal ≠ none ∧ c.component? input ≠ none
  /-- Each map of moves is the other one backwards. -/
  inverse : ∀ {legal input}, (legal, input) ∈ c.legalInputs ↔ (input, legal) ∈ c.inputLegals

/-! ## The links of the neighbours -/

/-- Changing the elements at some places, one after the other. -/
theorem getElem?_foldl_modify {α : Type} (f : α → α) {as : List Nat} (h : as.Nodup) (xs : Array α) (i : Nat) :
    (as.foldl (fun xs a => xs.modify a f) xs)[i]? = if i ∈ as then xs[i]?.map f else xs[i]? := by
  induction as generalizing xs with
  | nil => simp
  | cons a as ih =>
    obtain ⟨ha, has⟩ := List.nodup_cons.1 h
    rw [List.foldl_cons, ih has, Array.getElem?_modify]
    by_cases hi : a = i
    · subst hi
      simp [ha]
    · simp [hi, Ne.symm hi]

/-- It is enough to change the elements that the change makes any difference to. -/
theorem foldl_modify_eq_map {α : Type} {f : α → α} {as : List Nat} {xs : Array α} (h : as.Nodup)
    (hkept : ∀ i x, i ∉ as → xs[i]? = some x → f x = x) : as.foldl (fun xs a => xs.modify a f) xs = xs.map f := by
  refine Array.ext_getElem? fun i => ?_
  rw [getElem?_foldl_modify f h, Array.getElem?_map]
  split_ifs with hi
  · rfl
  · cases hx : xs[i]? with
    | none => rfl
    | some x => rw [Option.map_some, hkept i x hi hx]

theorem foldl_unlinkInput (c : Circuit) (inputs : List Nat) : inputs.foldl (unlinkInput id) c =
    { c with components := inputs.foldl (fun xs i => xs.modify i (Option.map (.dropOutput id))) c.components } := by
  induction inputs generalizing c with
  | nil => rfl
  | cons input inputs ih =>
    rw [List.foldl_cons, ih]
    rfl

/-- A part of the state whose only input was the component is one no longer. -/
theorem unlinkOutput_eq (hnodup : c.base.Nodup) {output : Nat}
    (honly : output ∈ c.base → ∀ component, c.component? output = some component → component.inputs = [id]) :
    c.unlinkOutput id output = { c.modify output (.dropInput id) with base := c.base.filter (· ≠ output) } := by
  rw [unlinkOutput]
  by_cases houtput : output ∈ c.base
  · have hleft : (c.modify output (.dropInput id)).isBase output = false := by
      rw [isBase, component?_modify, if_pos rfl]
      cases hcomponent : c.component? output with
      | none => rfl
      | some component =>
        simp [Component.dropInput, honly houtput component hcomponent, isFedByTransition, Component.singleInput?]
    have hcontains : (c.modify output (.dropInput id)).base.contains output = true := List.contains_iff_mem.2 houtput
    simp only [hcontains, hleft, Bool.not_false, Bool.and_self, if_true]
    rw [← erase_eq_filter hnodup]
    rfl
  · have hcontains : (c.modify output (.dropInput id)).base.contains output = false := by
      rw [← Bool.not_eq_true, List.contains_iff_mem]
      exact houtput
    have hfilter : c.base.filter (· ≠ output) = c.base :=
      filter_ne_eq_self (f := fun i => i) fun i hi heq => houtput (heq ▸ hi)
    simp only [hcontains, Bool.false_and, Bool.false_eq_true, if_false]
    rw [hfilter]
    rfl

theorem foldl_unlinkOutput {outputs : List Nat} (houtputs : outputs.Nodup) (hnodup : c.base.Nodup)
    (honly : ∀ output ∈ outputs, output ∈ c.base → ∀ component, c.component? output = some component →
      component.inputs = [id]) :
    outputs.foldl (unlinkOutput id) c =
      { c with
        components := outputs.foldl (fun xs i => xs.modify i (Option.map (.dropInput id))) c.components
        base := c.base.filter (· ∉ outputs) } := by
  induction outputs generalizing c with
  | nil => simp
  | cons output outputs ih =>
    obtain ⟨hnot, houtputs'⟩ := List.nodup_cons.1 houtputs
    have hstep := unlinkOutput_eq hnodup (honly output List.mem_cons_self)
    rw [List.foldl_cons, hstep, ih houtputs' (hnodup.filter _)]
    · refine Circuit.ext rfl rfl rfl ?_ rfl rfl rfl rfl rfl rfl rfl rfl
      show (c.base.filter _).filter _ = c.base.filter _
      rw [List.filter_filter]
      refine List.filter_congr fun i _ => ?_
      simp [not_or, Bool.and_comm]
    · -- the outputs that are to come have not been touched yet
      intro output' houtput' hbase component hcomponent
      have hne : output ≠ output' := fun heq => hnot (heq ▸ houtput')
      have hcomponent' : (c.modify output (.dropInput id)).component? output' = some component := hcomponent
      rw [component?_modify, if_neg hne] at hcomponent'
      exact honly output' (List.mem_cons_of_mem _ houtput') (List.mem_filter.1 hbase).1 component hcomponent'

/-! ## The indices -/

/-- The name of a component is taken away if it is the component's, and there is no other name of it. -/
theorem unname_eq (hname : ∀ {a i j}, (a, i) ∈ c.names → (a, j) ∈ c.names → i = j)
    (hnamed : ∀ {a}, (a, id) ∈ c.names → component.name? = some a) :
    c.unname id component = { c with names := c.names.filter (·.2 ≠ id) } := by
  have hkept : (∀ a, (a, id) ∉ c.names) → c = { c with names := c.names.filter (·.2 ≠ id) } := by
    intro hnone
    rw [filter_ne_eq_self fun p hp heq => hnone p.1 (heq ▸ hp)]
  rw [unname]
  split
  · rename_i a ha
    have hlookup : c.proposition? a = some id ↔ (a, id) ∈ c.names := lookup_iff_mem hname
    split_ifs with hfound
    · have hmem := hlookup.1 hfound
      have hfilter : eraseKey c.names a = c.names.filter (·.2 ≠ id) := by
        refine List.filter_congr fun p hp => decide_eq_decide.2 (not_congr ⟨?_, ?_⟩)
        · rintro rfl
          exact hname hp hmem
        · rintro rfl
          exact Option.some.inj ((hnamed hp).symm.trans ha)
      rw [hfilter]
    · refine hkept fun a' ha' => hfound (hlookup.2 ?_)
      rwa [Option.some.inj (ha.symm.trans (hnamed ha'))]
  · rename_i hnone
    exact hkept fun a ha => Option.some_ne_none a ((hnamed ha).symm.trans hnone)

/-- What the first map has for a key is what the second has that key for. -/
theorem erasePair_eq {m back : List (Nat × Nat)} (hvalue : ∀ {a b b'}, (a, b) ∈ m → (a, b') ∈ m → b = b')
    (hkey : ∀ {a a' b}, (a, b) ∈ m → (a', b) ∈ m → a = a') (hback : ∀ {a b}, (a, b) ∈ m ↔ (b, a) ∈ back) (a : Nat) :
    erasePair m back a = (m.filter (·.1 ≠ a), back.filter (·.2 ≠ a)) := by
  rw [erasePair]
  cases hlookup : m.lookup a with
  | none =>
    have hnone : ∀ b, (a, b) ∉ m := fun b hb => by
      simpa using List.lookup_eq_none_iff.1 hlookup _ hb
    rw [filter_ne_eq_self fun p hp heq => hnone p.2 (heq ▸ hp),
      filter_ne_eq_self fun p hp heq => hnone p.1 (hback.2 (heq ▸ hp))]
  | some b =>
    have hb := (lookup_iff_mem hvalue).1 hlookup
    refine Prod.ext rfl (List.filter_congr fun p hp => decide_eq_decide.2 (not_congr ⟨?_, ?_⟩))
    · rintro rfl
      exact hkey (hback.2 hp) hb
    · rintro rfl
      exact hvalue (hback.2 hp) hb

theorem unpair_eq
    (hinput : ∀ {legal input input'}, (legal, input) ∈ c.legalInputs → (legal, input') ∈ c.legalInputs → input = input')
    (hlegal : ∀ {legal legal' input}, (legal, input) ∈ c.legalInputs → (legal', input) ∈ c.legalInputs → legal = legal')
    (hinverse : ∀ {legal input}, (legal, input) ∈ c.legalInputs ↔ (input, legal) ∈ c.inputLegals) :
    c.unpair id = { c with
      legalInputs := c.legalInputs.filter fun pair => pair.1 ≠ id ∧ pair.2 ≠ id
      inputLegals := c.inputLegals.filter fun pair => pair.1 ≠ id ∧ pair.2 ≠ id } := by
  have hfirst := erasePair_eq hinput hlegal hinverse id
  have hsecond : erasePair (c.inputLegals.filter (·.2 ≠ id)) (c.legalInputs.filter (·.1 ≠ id)) id =
      ((c.inputLegals.filter (·.2 ≠ id)).filter (·.1 ≠ id), (c.legalInputs.filter (·.1 ≠ id)).filter (·.2 ≠ id)) :=
    erasePair_eq
      (fun h h' => hlegal (hinverse.2 (List.mem_filter.1 h).1) (hinverse.2 (List.mem_filter.1 h').1))
      (fun h h' => hinput (hinverse.2 (List.mem_filter.1 h).1) (hinverse.2 (List.mem_filter.1 h').1))
      (by simp [List.mem_filter, hinverse]) id
  rw [unpair, hfirst]
  dsimp only
  rw [hsecond, List.filter_filter, List.filter_filter]
  simp only [Bool.decide_and, Bool.and_comm]

/-- Who is there when the component is out of its place was there before. -/
theorem component?_of_getElem?_setIfInBounds (h : (c.components.setIfInBounds id none)[i]? = some (some component)) :
    c.component? i = some component := by
  rw [Array.getElem?_setIfInBounds] at h
  split_ifs at h
  · cases Option.some.inj h
  · exact Option.join_eq_some_iff.2 h

namespace Sound

variable (h : c.Sound)

include h

/-! ## The whole walk -/

/-- The component feeds just those that it has for outputs. -/
theorem mem_outputs_iff (hid : c.component? id = some component) {target : Component}
    (hi : c.component? i = some target) : i ∈ component.outputs ↔ id ∈ target.inputs := by
  have hlinked := h.linked id i
  rw [hid, hi] at hlinked
  simpa using hlinked

theorem mem_inputs_iff (hid : c.component? id = some component) {source : Component}
    (hi : c.component? i = some source) : i ∈ component.inputs ↔ id ∈ source.outputs := by
  have hlinked := h.linked i id
  rw [hid, hi] at hlinked
  simpa using hlinked.symm

/-- A part of the state stays one if it is not the component, and the component not its transition. -/
theorem isBase_without (hid : c.component? id = some component) {p : Nat} (hp : p ∈ c.base) :
    (c.without id).isBase p = true ↔ p ∉ component.outputs ∧ p ≠ id := by
  obtain ⟨part, t, source, hpart, hprop, hinputs, hsource, htransition⟩ := h.base p hp
  have hprop' : (part.without id).isProposition = true := hprop
  have htransition' : (source.without id).isTransition = true := htransition
  rw [isBase, component?_without, h.mem_outputs_iff hid hpart, hinputs, List.mem_singleton]
  by_cases hpid : p = id
  · simp [hpid]
  · rw [if_neg hpid, hpart, Option.map_some, Option.any_some, isFedByTransition_iff, and_iff_left hpid,
      and_iff_right hprop']
    by_cases ht : t = id
    · simp [Component.without, hinputs, ht]
    · have hinputs' : (part.without id).inputs = [t] := by simp [Component.without, hinputs, ht]
      refine iff_of_true ⟨t, source.without id, hinputs', ?_, htransition'⟩ (Ne.symm ht)
      rw [component?_without, if_neg ht, hsource]
      rfl

/-- Whoever feeds the component is found by its inputs. -/
theorem foldl_unlinkInput_eq (hid : c.component? id = some component) :
    component.inputs.foldl (unlinkInput id) { c with components := c.components.setIfInBounds id none } =
      { c with components := (c.components.setIfInBounds id none).map (Option.map (.dropOutput id)) } := by
  rw [foldl_unlinkInput, foldl_modify_eq_map (h.nodup hid).1]
  intro i source? hi hsource
  cases source? with
  | none => rfl
  | some source =>
    rw [h.mem_inputs_iff hid (component?_of_getElem?_setIfInBounds hsource)] at hi
    rw [Option.map_some, Component.dropOutput_of_not_mem hi]

/-- Whoever the component feeds is found by its outputs, and then all links to it are gone. -/
theorem foldl_unlinkOutput_eq (hid : c.component? id = some component) :
    component.outputs.foldl (unlinkOutput id)
        { c with components := (c.components.setIfInBounds id none).map (Option.map (.dropOutput id)) } =
      { c with
        components := (c.without id).components
        base := c.base.filter (· ∉ component.outputs) } := by
  have hfound : ∀ {i target'}, ((c.components.setIfInBounds id none).map (Option.map (.dropOutput id)))[i]? =
      some (some target') → ∃ target, c.component? i = some target ∧ target' = target.dropOutput id := by
    intro i target' htarget
    rw [Array.getElem?_map] at htarget
    obtain ⟨target?, htarget?, hmap⟩ := Option.map_eq_some_iff.1 htarget
    obtain ⟨target, rfl, rfl⟩ := Option.map_eq_some_iff.1 hmap
    exact ⟨target, component?_of_getElem?_setIfInBounds htarget?, rfl⟩
  rw [foldl_unlinkOutput (h.nodup hid).2, foldl_modify_eq_map (h.nodup hid).2]
  · refine Circuit.ext rfl (Array.ext_getElem? fun i => ?_) rfl rfl rfl rfl rfl rfl rfl rfl rfl rfl
    show _ = (c.without id).components[i]?
    rw [Array.getElem?_map, Array.getElem?_map, Array.getElem?_setIfInBounds, without, Array.getElem?_mapIdx]
    by_cases hi : id = i
    · subst hi
      simp [(Array.getElem?_eq_some_iff.1 (Option.join_eq_some_iff.1 hid)).1]
    · rw [if_neg hi]
      cases htarget : c.components[i]? with
      | none => rfl
      | some target? =>
        cases target? with
        | none => simp
        | some target =>
          obtain ⟨hinputs, houtputs⟩ := h.nodup (Option.join_eq_some_iff.2 htarget)
          simp [Ne.symm hi, Component.dropInput_dropOutput hinputs houtputs]
  · -- who is not fed by the component has no link to it among its inputs
    intro i target? hi htarget
    cases target? with
    | none => rfl
    | some target' =>
      obtain ⟨target, hbefore, rfl⟩ := hfound htarget
      rw [h.mem_outputs_iff hid hbefore] at hi
      have hkept : id ∉ (target.dropOutput id).inputs := hi
      rw [Option.map_some, Component.dropInput_of_not_mem hkept]
  · exact h.nodup_base
  · -- a part of the state that the component feeds has no other input
    intro output houtput hbase target' htarget
    obtain ⟨target, hbefore, rfl⟩ := hfound (Option.join_eq_some_iff.1 htarget)
    obtain ⟨part, t, -, hpart, -, hinputs, -⟩ := h.base output hbase
    obtain rfl := Option.some.inj (hbefore.symm.trans hpart)
    rw [h.mem_outputs_iff hid hbefore, hinputs, List.mem_singleton] at houtput
    exact hinputs.trans (by rw [houtput])

/-- The walk leaves the component out of everything. -/
theorem detach_eq_without (hid : c.component? id = some component) : c.detach id component = c.without id := by
  have hnamed : ∀ {a}, (a, id) ∈ c.names → component.name? = some a := by
    intro a ha
    obtain ⟨component', hcomponent', hname⟩ := h.named ha
    rwa [Option.some.inj (hid.symm.trans hcomponent')]
  simp only [detach]
  rw [h.foldl_unlinkInput_eq hid, h.foldl_unlinkOutput_eq hid, unname_eq, unlist, unpair_eq]
  · refine Circuit.ext rfl rfl rfl ?_ (erase_eq_filter h.nodup_inputs id) rfl rfl rfl rfl rfl rfl rfl
    show (c.base.filter _).erase id = c.base.filter (c.without id).isBase
    rw [erase_eq_filter (h.nodup_base.filter _), List.filter_filter]
    refine List.filter_congr fun p hp => Bool.eq_iff_iff.2 ?_
    rw [h.isBase_without hid hp]
    simp [and_comm]
  · exact h.input
  · exact h.legal
  · exact h.inverse
  · exact h.name
  · exact hnamed

end Sound

end Circuit

end GameCircuit
