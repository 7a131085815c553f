import GameCircuit.Circuit.Build
import GameCircuit.Proofs.EvaluationOrder
import GameCircuit.Proofs.SeveralInputs

/-!
# The circuit of an assembly

The components of a circuit are those of its assembly, each with what feeds it and what it feeds, and the
indices of the circuit list just the named propositions that they should (`Assembly.Built`).
-/

namespace GameCircuit

namespace Component

/-- If there are no two inputs, the value of the only input is true if one is. -/
theorem singleValue_iff {c : Component} {v : Nat → Bool} (hnodup : c.inputs.Nodup)
    (hunique : ∀ i ∈ c.inputs, ∀ j ∈ c.inputs, i = j) :
    c.singleValue v = true ↔ ∃ i ∈ c.inputs, v i = true := by
  unfold singleValue singleInput?
  match hinputs : c.inputs with
  | [] => simp
  | [i] => simp
  | i :: j :: rest =>
    rw [hinputs] at hnodup hunique
    have heq := hunique i (by simp) j (by simp)
    simp [heq] at hnodup

end Component

theorem isFedByTransition_iff {c : Circuit} {component : Component} :
    isFedByTransition c.components component = true ↔ component.isProposition = true ∧
      ∃ t source, component.inputs = [t] ∧ c.component? t = some source ∧ source.isTransition = true := by
  unfold isFedByTransition Component.singleInput?
  rw [Bool.and_eq_true]
  refine and_congr_right fun _ => ?_
  match component.inputs with
  | [] => simp
  | [t] =>
    cases ht : (c.components[t]?).join with
    | none => simp [Circuit.component?, ht]
    | some source => simp [Circuit.component?, ht]
  | t :: t' :: rest => simp

namespace Assembly

variable {A F : Assembly} {φs : List (Formula Symbol)} {l : Lexicon} {roles : List Symbol} {a : Atom Symbol}
  {i j id : Nat} {kind : Kind}

/-! ## Components and names -/

theorem component?_toCircuit : (F.toCircuit l roles).component? id =
    F.kinds[id]?.map fun kind => ⟨kind, F.feeders id, F.followers id⟩ := by
  have hcomponents : F.components[id]? =
      F.kinds[id]?.map fun kind => ⟨kind, F.feeders id, F.followers id⟩ := by
    rw [components, List.getElem?_map, List.getElem?_zipIdx, Array.getElem?_toList, Option.map_map, Nat.zero_add]
    rfl
  show ((F.components.map some).toArray[id]?).join = _
  rw [List.getElem?_toArray, List.getElem?_map, hcomponents]
  cases F.kinds[id]? <;> rfl

theorem component?_toCircuit_eq_some {component : Component} :
    (F.toCircuit l roles).component? id = some component ↔
      F.kinds[id]? = some component.kind ∧ component.inputs = F.feeders id ∧
        component.outputs = F.followers id := by
  rw [component?_toCircuit, Option.map_eq_some_iff]
  constructor
  · rintro ⟨kind, hkind, rfl⟩
    exact ⟨hkind, rfl, rfl⟩
  · rintro ⟨hkind, hinputs, houtputs⟩
    refine ⟨component.kind, hkind, ?_⟩
    rw [← hinputs, ← houtputs]

theorem component?_of_kind (hid : F.kinds[id]? = some kind) :
    (F.toCircuit l roles).component? id = some ⟨kind, F.feeders id, F.followers id⟩ :=
  component?_toCircuit_eq_some.2 ⟨hid, rfl, rfl⟩

theorem proposition?_toCircuit : (F.toCircuit l roles).proposition? a = some id ↔ F.Named a id := by
  show F.names.toList.lookup a = some id ↔ _
  rw [OrderedMap.lookup_toList]
  exact Iff.rfl

theorem mem_ownNames : (id, a) ∈ F.ownNames ↔ F.kinds[id]? = some (.proposition a none) := by
  simp only [ownNames, List.mem_filterMap, Prod.exists, List.mem_zipIdx_iff_getElem?, Array.getElem?_toList]
  constructor
  · rintro ⟨kind, id', hkind, hmap⟩
    obtain ⟨name, hname, heq⟩ := Option.map_eq_some_iff.1 hmap
    obtain ⟨rfl, rfl⟩ := Prod.mk.inj heq
    rw [hkind]
    match kind, hname with
    | .proposition _ none, hname => rw [Option.some.inj hname]
  · intro hkind
    exact ⟨_, id, hkind, rfl⟩

theorem mem_ofRelation {relation : Symbol} :
    (id, a) ∈ F.ofRelation relation ↔ F.kinds[id]? = some (.proposition a none) ∧ a.relation = relation := by
  simp [ofRelation, mem_ownNames]

/-! ## What is built -/

/-- What the formulas conclude is linked in `A`, and `F` completes it. -/
structure Built (φs : List (Formula Symbol)) (A F : Assembly) : Prop where
  realizes : Realizes φs [] A
  completes : Completes A F

theorem ofFormulas_ok (h : ofFormulas φs = .ok F) :
    ∃ b, foldSteps addFormula initialAssembly φs = .ok b ∧ F = b.wireAllInitial.repair.addInputs := by
  unfold ofFormulas at h
  cases hfold : foldSteps addFormula initialAssembly φs with
  | error e => simp [hfold] at h
  | ok b => exact ⟨b, rfl, by simpa [hfold] using h.symm⟩

theorem built_addInputs {b : Assembly} (h : Represents φs b) :
    Built φs b.wireAllInitial b.wireAllInitial.repair.addInputs := by
  have hrealizes := realizes_wireAllInitial h
  exact ⟨hrealizes, completes_addInputs hrealizes.regular⟩

theorem exists_built (h : ofFormulas φs = .ok F) : ∃ A, Built φs A F := by
  obtain ⟨b, hfold, rfl⟩ := ofFormulas_ok h
  exact ⟨_, built_addInputs (represents_initialAssembly.addFormulas hfold)⟩

/-- A proposition about the state is fed by a transition. -/
theorem Realizes.isTransition (h : Realizes φs [] A) {args : List (Term Symbol)} {s t : Nat}
    (hs : A.Named ⟨Keyword.holds, args⟩ s) (ht : A.Feeds t s) : A.kinds[t]? = some .transition := by
  rcases h.state hs ht with hsome | ⟨hkind, -⟩
  · obtain ⟨n, hn⟩ := Option.isSome_iff_exists.1 hsome
    obtain ⟨x, t', -, -, hkind, ht', -⟩ := h.driver hn
    rw [h.unique hs ht' ht]
    exact hkind
  · exact hkind

namespace Built

variable (h : Built φs A F)

include h

theorem named_inj {a' : Atom Symbol} (ha : F.Named a id) (ha' : F.Named a' id) : a = a' := by
  have heq := (h.completes.named_kind ha).symm.trans (h.completes.named_kind ha')
  exact (Kind.proposition.inj (Option.some.inj heq)).1

/-- A named proposition that is not a move was there before the gates. -/
theorem named_old (ha : F.Named a id) (hdoes : a.relation ≠ Keyword.does) : A.Named a id := by
  by_cases hlt : id < A.kinds.size
  · exact h.completes.named_old ha hlt
  · exact absurd (h.completes.named_new ha (Nat.le_of_not_lt hlt)) hdoes

theorem not_crowded {args : List (Term Symbol)} (hs : A.Named ⟨Keyword.holds, args⟩ id) : ¬ A.Crowded id := by
  intro hcrowded
  obtain ⟨i, j, hne, hi, hj⟩ := hcrowded.exists_ne
  exact hne (h.realizes.unique hs hj hi)

theorem feeds_state_iff {args : List (Term Symbol)} (hs : A.Named ⟨Keyword.holds, args⟩ id) :
    F.Feeds i id ↔ A.Feeds i id :=
  h.completes.alone (h.realizes.regular.named_lt hs) (h.not_crowded hs)

/-- A transition feeds a proposition about the state. -/
theorem exists_state_of_transition (hi : F.kinds[i]? = some .transition) (hf : F.Feeds i j) :
    ∃ args, F.Named ⟨Keyword.holds, args⟩ j := by
  obtain ⟨hlt, hor⟩ := h.completes.transition hi hf
  rw [h.completes.kinds hlt] at hi
  rcases hor with hold | ⟨j', hcrowded, hold⟩
  · obtain ⟨args, hargs⟩ := h.realizes.regular.transition hi hold
    exact ⟨args, h.completes.named hargs⟩
  · obtain ⟨args, hargs⟩ := h.realizes.regular.transition hi hold
    exact absurd hcrowded (h.not_crowded hargs)

theorem feeders_named (ha : F.Named a id) (hi : F.Feeds i id) : F.feeders id = [i] := by
  refine feeders_eq_singleton fun j => ⟨fun hj => ?_, fun hj => hj ▸ hi⟩
  exact h.completes.unique (h.completes.named_kind ha) rfl hj hi

/-! ## The indices of the circuit -/

/-- The state is made up of the propositions about it that are fed. -/
theorem mem_base_iff :
    id ∈ (F.toCircuit l roles).base ↔ ∃ args t, F.Named ⟨Keyword.holds, args⟩ id ∧ F.Feeds t id := by
  have hbase : id ∈ (F.toCircuit l roles).base ↔ (∃ a, F.kinds[id]? = some (.proposition a none)) ∧
      ∃ component, (F.toCircuit l roles).component? id = some component ∧
        isFedByTransition (F.toCircuit l roles).components component = true := by
    refine List.mem_filter.trans (and_congr ?_ ?_)
    · rw [List.mem_map]
      constructor
      · rintro ⟨⟨id, a⟩, hmem, rfl⟩
        exact ⟨a, mem_ownNames.1 hmem⟩
      · rintro ⟨a, ha⟩
        exact ⟨(id, a), mem_ownNames.2 ha, rfl⟩
    · split
      · rename_i component hcomponent
        have hfound : (F.toCircuit l roles).component? id = some component := hcomponent
        simp only [hfound, Option.some.injEq, exists_eq_left']
        rfl
      · rename_i hnone
        have hfound : (F.toCircuit l roles).component? id = none := hnone
        simp [hfound]
  rw [hbase]
  constructor
  · rintro ⟨⟨a, ha⟩, component, hcomponent, hfed⟩
    obtain ⟨-, hinputs, -⟩ := component?_toCircuit_eq_some.1 hcomponent
    obtain ⟨-, t, source, ht, hsource, htransition⟩ := isFedByTransition_iff.1 hfed
    have hkind : F.kinds[t]? = some .transition :=
      (component?_toCircuit_eq_some.1 hsource).1.trans (congrArg some (of_decide_eq_true htransition))
    have hf : F.Feeds t id := mem_feeders.1 (by rw [← hinputs, ht]; exact List.mem_cons_self)
    obtain ⟨args, hargs⟩ := h.exists_state_of_transition hkind hf
    exact ⟨args, t, hargs, hf⟩
  · rintro ⟨args, t, hs, ht⟩
    have hs' := h.named_old hs (by decide : Keyword.holds ≠ Keyword.does)
    have hkind := h.realizes.isTransition hs' ((h.feeds_state_iff hs').1 ht)
    rw [← h.completes.kinds (Array.getElem?_eq_some_iff.1 hkind).1] at hkind
    have hid := h.completes.named_kind hs
    exact ⟨⟨_, hid⟩, _, component?_of_kind hid, isFedByTransition_iff.2
      ⟨rfl, t, _, h.feeders_named hs ht, component?_of_kind hkind, rfl⟩⟩

theorem mem_ofRelation_iff {relation : Symbol} (hrel : relation ≠ Keyword.anonymous) :
    (id, a) ∈ F.ofRelation relation ↔ F.Named a id ∧ a.relation = relation := by
  rw [mem_ofRelation]
  refine and_congr_left fun ha => ⟨fun hkind => ?_, h.completes.named_kind⟩
  refine (h.completes.own hkind).resolve_right fun heq => hrel ?_
  rw [← ha, heq]

/-- The moves are the propositions that they are made. -/
theorem mem_inputs_iff : id ∈ (F.toCircuit l roles).inputs ↔ ∃ args, F.Named ⟨Keyword.does, args⟩ id := by
  show id ∈ (F.ofRelation Keyword.does).map Prod.fst ↔ _
  rw [List.mem_map]
  constructor
  · rintro ⟨⟨id, relation, args⟩, hmem, rfl⟩
    obtain ⟨ha, rfl⟩ := (h.mem_ofRelation_iff (by decide)).1 hmem
    exact ⟨args, ha⟩
  · rintro ⟨args, ha⟩
    exact ⟨(id, _), (h.mem_ofRelation_iff (by decide)).2 ⟨ha, rfl⟩, rfl⟩

/-- A player's moves are the propositions that the player may make one. -/
theorem mem_legalOf_iff {role : Symbol} : id ∈ (F.toCircuit l roles).legalOf role ↔
    ∃ a, F.Named a id ∧ a.relation = Keyword.legal ∧ a.role? = some role := by
  show id ∈ ((F.byRole Keyword.legal).filter (·.1 = role)).map Prod.snd ↔ _
  have hmem : (role, id) ∈ F.byRole Keyword.legal ↔
      ∃ a, F.Named a id ∧ a.relation = Keyword.legal ∧ a.role? = some role := by
    rw [byRole, List.mem_filterMap]
    constructor
    · rintro ⟨⟨id', a⟩, ha, hrole⟩
      obtain ⟨role', hrole', heq⟩ := Option.map_eq_some_iff.1 hrole
      obtain ⟨rfl, rfl⟩ := Prod.mk.inj heq
      obtain ⟨ha', hrel⟩ := (h.mem_ofRelation_iff (by decide)).1 ha
      exact ⟨a, ha', hrel, hrole'⟩
    · rintro ⟨a, ha, hrel, hrole⟩
      exact ⟨(id, a), (h.mem_ofRelation_iff (by decide)).2 ⟨ha, hrel⟩, by simp [hrole]⟩
  rw [← hmem]
  simp

/-- A move that may be made is paired with the same move being made. -/
theorem exists_args_of_inputOf? {input : Nat} (hpair : (F.toCircuit l roles).inputOf? id = some input) :
    ∃ args, F.Named ⟨Keyword.legal, args⟩ id ∧ F.Named ⟨Keyword.does, args⟩ input := by
  obtain ⟨before, after, hpairs, -⟩ := List.lookup_eq_some_iff.1 hpair
  have hmem : (id, input) ∈ (F.toCircuit l roles).legalInputs := by simp [hpairs]
  obtain ⟨⟨id', relation, args⟩, ha, heq⟩ := List.mem_filterMap.1 hmem
  obtain ⟨ha', rfl⟩ := (h.mem_ofRelation_iff (by decide)).1 ha
  dsimp only at heq
  split at heq
  · obtain ⟨input', hinput, heq'⟩ := Option.map_eq_some_iff.1 heq
    obtain ⟨rfl, rfl⟩ := Prod.mk.inj heq'
    exact ⟨args, ha', hinput⟩
  · cases heq

/-- Other named propositions are not part of the state. -/
theorem not_mem_base (ha : F.Named a id) (hrel : a.relation ≠ Keyword.holds) :
    id ∉ (F.toCircuit l roles).base := by
  intro hmem
  obtain ⟨args, t, hs, -⟩ := h.mem_base_iff.1 hmem
  exact hrel (congrArg Atom.relation (h.named_inj ha hs))

/-- Other named propositions are no moves. -/
theorem not_mem_inputs (ha : F.Named a id) (hrel : a.relation ≠ Keyword.does) :
    id ∉ (F.toCircuit l roles).inputs := by
  intro hmem
  obtain ⟨args, hargs⟩ := h.mem_inputs_iff.1 hmem
  exact hrel (congrArg Atom.relation (h.named_inj ha hargs))

/-- A proposition that is named by a relation alone is found by its name. -/
theorem lastNamed_eq {relation : Symbol} (hrel : relation ≠ Keyword.anonymous) :
    F.lastNamed relation = F.names.get? ⟨relation, []⟩ := by
  set named := (F.ofRelation relation).filter (·.2.args.isEmpty) with hdef
  have hmem : ∀ {id a}, (id, a) ∈ named ↔ a = ⟨relation, []⟩ ∧ F.Named ⟨relation, []⟩ id := by
    rintro id ⟨relation', args⟩
    rw [hdef, List.mem_filter, h.mem_ofRelation_iff hrel, List.isEmpty_iff]
    constructor
    · rintro ⟨⟨hnamed, rfl⟩, rfl⟩
      exact ⟨rfl, hnamed⟩
    · rintro ⟨heq, hnamed⟩
      obtain ⟨rfl, rfl⟩ := Atom.mk.inj heq
      exact ⟨⟨hnamed, rfl⟩, rfl⟩
  show named.getLast?.map Prod.fst = _
  cases hlast : named.getLast? with
  | none =>
    have hempty := List.getLast?_eq_none_iff.1 hlast
    refine (Option.eq_none_iff_forall_ne_some.2 fun id hid => ?_).symm
    have hnamed : (id, (⟨relation, []⟩ : Atom Symbol)) ∈ named := hmem.2 ⟨rfl, hid⟩
    simp [hempty] at hnamed
  | some p =>
    obtain ⟨id, a⟩ := p
    exact (hmem.1 (List.mem_of_getLast? hlast)).2.symm

theorem start_named : F.Named ⟨Keyword.start, []⟩ startProposition :=
  h.completes.named h.realizes.regular.start

theorem ne_startProposition (ha : F.Named a id) (hstart : a ≠ ⟨Keyword.start, []⟩) :
    id ≠ startProposition := by
  rintro rfl
  exact hstart (h.named_inj ha h.start_named)

theorem start_eq : (F.toCircuit l roles).start = some startProposition :=
  (h.lastNamed_eq (by decide)).trans h.start_named

/-- The links of the circuit fit together. -/
theorem wired : (F.toCircuit l roles).Wired where
  input {id component} hid i hi := by
    obtain ⟨-, hinputs, -⟩ := component?_toCircuit_eq_some.1 hid
    rw [hinputs, mem_feeders] at hi
    have hkind := Array.getElem?_eq_getElem (h.completes.feeds_lt hi).1
    exact ⟨_, component?_of_kind hkind, mem_followers.2 hi⟩
  output {i source} hi j hj := by
    obtain ⟨-, -, houtputs⟩ := component?_toCircuit_eq_some.1 hi
    rw [houtputs, mem_followers] at hj
    have hkind := Array.getElem?_eq_getElem (h.completes.feeds_lt hj).2
    rw [component?_toCircuit, hkind]
    rfl
  transition {id component} hid i hi source hsource htransition := by
    obtain ⟨hkind, hinputs, -⟩ := component?_toCircuit_eq_some.1 hid
    rw [hinputs, mem_feeders] at hi
    have hi' : F.kinds[i]? = some .transition :=
      (component?_toCircuit_eq_some.1 hsource).1.trans (congrArg some (of_decide_eq_true htransition))
    obtain ⟨args, hargs⟩ := h.exists_state_of_transition hi' hi
    have heq := Option.some.inj (hkind.symm.trans (h.completes.named_kind hargs))
    refine ⟨?_, h.mem_base_iff.2 ⟨args, i, hargs, hi⟩⟩
    rw [Component.isProposition, heq]
    rfl

end Built

end Assembly

theorem Circuit.build_ok {l : Lexicon} {roles : List Symbol} {φs : List (Formula Symbol)} {c : Circuit}
    (h : Circuit.build l roles φs = .ok c) : ∃ F, Assembly.ofFormulas φs = .ok F ∧ c = F.toCircuit l roles := by
  unfold Circuit.build at h
  cases hF : Assembly.ofFormulas φs with
  | error e => simp [hF] at h
  | ok F => exact ⟨F, rfl, by simpa [hF] using h.symm⟩

end GameCircuit
