import GameCircuit.Proofs.BuiltCircuits
import GameCircuit.Proofs.Origins

/-!
# Built circuits are well-formed

Links go both ways, propositions and transitions are linked as they should, the indices list what they
should (`Circuit.WellFormed`), and each named proposition is fed by just what speaks for the formulas that
conclude it (`Circuit.Explains`).
-/

namespace GameCircuit

namespace Circuit

variable (c : Circuit)

/-- There is a component of the kind `kind`, with just these inputs. -/
def Has (id : Nat) (kind : Kind) (inputs : List Nat) : Prop :=
  ∃ outputs, c.component? id = some ⟨kind, inputs, outputs⟩

/-- `d` is the proposition of a disjunct of `name`, with the source as its only input. -/
def IsDisjunct (name : Atom Symbol) (source d : Nat) : Prop :=
  c.Has d (.proposition ⟨Keyword.disjunct, []⟩ (some name)) [source]

/-- The `or` gate collects the sources of `name`, each through a disjunct of its own. -/
def Collects (name : Atom Symbol) (sources : List Nat) (gate : Nat) : Prop :=
  ∃ inputs, c.Has gate .or inputs ∧ (∀ d ∈ inputs, ∃ i ∈ sources, c.IsDisjunct name i d) ∧
    ∀ i ∈ sources, ∃! d, d ∈ inputs ∧ c.IsDisjunct name i d

/-- The proposition is fed by just the sources.  Several are collected by a gate. -/
def FedBy (name : Atom Symbol) (id : Nat) : List Nat → Prop
  | [] => c.Has id (.proposition name none) []
  | [i] => c.Has id (.proposition name none) [i]
  | i :: j :: sources =>
    ∃ gate, c.Has id (.proposition name none) [gate] ∧ c.Collects name (i :: j :: sources) gate

/-- `i` is the component that speaks for the formula. -/
def SpeaksFor (i : Nat) : Formula Symbol → Prop
  | .atom a => if a.relation = Keyword.init then c.start = some i
      else i = Assembly.trueConstant ∧ ∃ inputs, c.Has i (.constant true) inputs
  | .rule _ _ => ∃ inputs, c.Has i .and inputs
  | .neg _ | .disj _ => False

end Circuit

/-- The component speaks for a formula that concludes the atom.  If formulas conclude it about the next state,
those about the start speak for it as well. -/
def IsSource (origins : List (Formula Symbol × Nat)) (a : Atom Symbol) (i : Nat) : Prop :=
  (a.relation ≠ Keyword.init ∧ ∃ φ, (φ, i) ∈ origins ∧ φ.head? = some a) ∨
    ∃ x, a = ⟨Keyword.next, [x]⟩ ∧ (∃ p ∈ origins, p.1.head? = some a) ∧ i ∈ Assembly.startOrigins origins x

/-- The formulas, each with the component that speaks for it, explain what feeds the named propositions. -/
structure Circuit.Explains (c : Circuit) (origins : List (Formula Symbol × Nat)) : Prop where
  speaks : ∀ {φ i}, (φ, i) ∈ origins → c.SpeaksFor i φ
  gates : (origins.filterMap Assembly.ruleGate?).Nodup
  concluded : ∀ {φ i a}, (φ, i) ∈ origins → φ.head? = some a → a.relation ≠ Keyword.init →
    ∃ id, c.proposition? a = some id
  fed : ∀ {a id}, c.proposition? a = some id → a.relation ≠ Keyword.holds →
    ∃ sources : List Nat, sources.Nodup ∧ (∀ i, i ∈ sources ↔ IsSource origins a i) ∧ c.FedBy a id sources
  -- what is concluded about the next state decides the state
  next : ∀ {φ i x}, (φ, i) ∈ origins → φ.head? = some ⟨Keyword.next, [x]⟩ → ∃ n t s,
    c.proposition? ⟨Keyword.next, [x]⟩ = some n ∧ c.Has t .transition [n] ∧
      c.proposition? ⟨Keyword.holds, [x]⟩ = some s ∧ c.Has s (.proposition ⟨Keyword.holds, [x]⟩ none) [t]
  -- and otherwise what is concluded about the start, if anything is
  start : ∀ {x}, Assembly.startOrigins origins x ≠ [] → (∀ p ∈ origins, p.1.head? ≠ some ⟨Keyword.next, [x]⟩) →
    ∃ d t s, c.Has t .transition [d] ∧ c.proposition? ⟨Keyword.holds, [x]⟩ = some s ∧
      c.Has s (.proposition ⟨Keyword.holds, [x]⟩ none) [t] ∧
      (Assembly.startOrigins origins x = [d] ∨ ∃ sources : List Nat, sources.Nodup ∧
        (∀ i, i ∈ sources ↔ i ∈ Assembly.startOrigins origins x) ∧ c.FedBy ⟨Keyword.anonymous, []⟩ d sources)
  idle : ∀ {args s}, c.proposition? ⟨Keyword.holds, args⟩ = some s →
    (∀ p ∈ origins, ∀ x, args = [x] → p.1.head? ≠ some ⟨Keyword.next, [x]⟩ ∧ p.1.head? ≠ some ⟨Keyword.init, [x]⟩) →
    c.Has s (.proposition ⟨Keyword.holds, args⟩ none) []

/-- The circuit is well-formed, and the formulas explain it. -/
structure Circuit.WellFormed (c : Circuit) (φs : List (Formula Symbol)) : Prop where
  linked : ∀ i j, (∃ source, c.component? i = some source ∧ j ∈ source.outputs) ↔
    ∃ target, c.component? j = some target ∧ i ∈ target.inputs
  nodup : ∀ {id component}, c.component? id = some component → component.inputs.Nodup ∧ component.outputs.Nodup
  named : ∀ {a id}, c.proposition? a = some id → ∃ inputs, c.Has id (.proposition a none) inputs
  proposition : ∀ {id component}, c.component? id = some component → component.isProposition = true →
    component.inputs.length ≤ 1
  negation : ∀ {id component}, c.component? id = some component → component.kind = .not → ∃ i, component.inputs = [i]
  transition : ∀ {id component}, c.component? id = some component → component.kind = .transition →
    ∃ i x s, component.inputs = [i] ∧ component.outputs = [s] ∧ c.proposition? ⟨Keyword.holds, [x]⟩ = some s
  base : ∀ id, id ∈ c.base ↔ ∃ component, c.component? id = some component ∧ component.isProposition = true ∧
    ∃ t, component.inputs = [t] ∧ ∃ inputs, c.Has t .transition inputs
  explained : ∃ origins, origins.map Prod.fst = φs ∧ c.Explains origins
  -- the legal moves and the moves go together
  paired : ∀ id, (c.inputOf? id).isSome = true ↔ ∃ role, (role, id) ∈ c.legal
  sameArguments : ∀ {id input}, c.inputOf? id = some input →
    ∃ args, c.proposition? ⟨Keyword.legal, args⟩ = some id ∧ c.proposition? ⟨Keyword.does, args⟩ = some input
  injective : ∀ {id id' input}, c.inputOf? id = some input → c.inputOf? id' = some input → id = id'
  inverse : ∀ id input, c.legalOf? input = some id ↔ c.inputOf? id = some input

namespace Assembly

variable {A F : Assembly} {φs : List (Formula Symbol)} {origins : List (Formula Symbol × Nat)} {l : Lexicon}
  {roles : List Symbol} {a : Atom Symbol} {i j id : Nat} {kind : Kind}

/-! ## Moves -/

theorem mem_legalArguments {args : List (Term Symbol)} :
    args ∈ F.legalArguments ↔ ∃ id : Nat, F.kinds[id]? = some (.proposition ⟨Keyword.legal, args⟩ none) := by
  rw [legalArguments, List.mem_filterMap]
  constructor
  · rintro ⟨kind, hkind, hargs⟩
    split at hargs
    · rename_i name hname
      split_ifs at hargs with hrel
      obtain ⟨id, hid⟩ := List.mem_iff_getElem?.1 hkind
      refine ⟨id, ?_⟩
      rw [← Array.getElem?_toList, hid]
      obtain ⟨relation, args'⟩ := name
      obtain rfl : relation = Keyword.legal := hrel
      obtain rfl : args' = args := Option.some.inj hargs
      cases kind with
      | proposition name underlying =>
        cases underlying with
        | none => rw [Option.some.inj hname]
        | some u => cases hname
      | _ => cases hname
    · cases hargs
  · rintro ⟨id, hid⟩
    refine ⟨_, List.mem_iff_getElem?.2 ⟨id, (Array.getElem?_toList).trans hid⟩, ?_⟩
    simp [Kind.ownName?]

theorem exists_named_named (b : Assembly) (name : Atom Symbol) : ∃ id, (b.named name).2.Named name id := by
  rcases b.named_cases name with ⟨id, hname, heq⟩ | ⟨-, hadds⟩
  · rw [heq]
    exact ⟨id, hname⟩
  · exact ⟨b.kinds.size, hadds.named_iff.2 (.inr ⟨rfl, rfl⟩)⟩

theorem Named.addInput {args : List (Term Symbol)} (ha : F.Named a id) : (F.addInput args).Named a id := by
  rw [Assembly.addInput]
  rcases F.named_cases ⟨Keyword.does, args⟩ with ⟨id', -, heq⟩ | ⟨-, hadds⟩
  · rw [heq]
    exact ha
  · exact hadds.named_iff.2 (.inl ha)

/-- All the moves that are asked for are there in the end. -/
theorem exists_named_addInputs {args : List (Term Symbol)} {arguments : List (List (Term Symbol))}
    (hargs : args ∈ arguments) : ∃ id, (arguments.foldl Assembly.addInput F).Named ⟨Keyword.does, args⟩ id := by
  have hkeep : ∀ (arguments : List (List (Term Symbol))) {F id}, F.Named ⟨Keyword.does, args⟩ id →
      (arguments.foldl Assembly.addInput F).Named ⟨Keyword.does, args⟩ id := by
    intro arguments
    induction arguments with
    | nil => exact fun h => h
    | cons args' arguments ih => exact fun h => ih h.addInput
  induction arguments generalizing F with
  | nil => cases hargs
  | cons args' arguments ih =>
    rcases List.mem_cons.1 hargs with rfl | hmem
    · obtain ⟨id, hid⟩ := F.exists_named_named ⟨Keyword.does, args⟩
      exact ⟨id, hkeep arguments hid⟩
    · exact ih hmem

/-- A legal move was legal before moves were added. -/
theorem kinds_of_addInputs {args : List (Term Symbol)} {arguments : List (List (Term Symbol))}
    (hid : (arguments.foldl Assembly.addInput F).kinds[id]? = some (.proposition ⟨Keyword.legal, args⟩ none)) :
    F.kinds[id]? = some (.proposition ⟨Keyword.legal, args⟩ none) := by
  induction arguments generalizing F with
  | nil => exact hid
  | cons args' arguments ih =>
    have hid' : (F.addInput args').kinds[id]? = _ := ih hid
    rw [Assembly.addInput] at hid'
    rcases F.named_cases ⟨Keyword.does, args'⟩ with ⟨id', -, heq⟩ | ⟨-, hadds⟩
    · rw [heq] at hid'
      exact hid'
    · rcases hadds.kind_cases hid' with hold | ⟨-, heq⟩
      · exact hold
      · cases heq

/-! ## What is built -/

/-- What is built, with the components that speak for the formulas. -/
structure Explained (origins : List (Formula Symbol × Nat)) (A F : Assembly) : Prop extends
    Built (origins.map Prod.fst) A F where
  wires : Wires origins [] A
  moves : ∀ {args id}, F.Named ⟨Keyword.legal, args⟩ id → ∃ input, F.Named ⟨Keyword.does, args⟩ input

theorem exists_explained (h : ofFormulas φs = .ok F) :
    ∃ origins A, origins.map Prod.fst = φs ∧ Explained origins A F := by
  obtain ⟨b, hfold, rfl⟩ := ofFormulas_ok h
  have hrepresents := represents_initialAssembly.addFormulas hfold
  obtain ⟨origins, rfl, htraces⟩ := traces_initialAssembly.addFormulas represents_initialAssembly hfold
  have hbuilt := built_addInputs hrepresents
  refine ⟨origins, b.wireAllInitial, rfl, hbuilt, wires_wireAllInitial htraces hrepresents, fun hlegal => ?_⟩
  exact exists_named_addInputs (mem_legalArguments.2 ⟨_, kinds_of_addInputs (hbuilt.completes.named_kind hlegal)⟩)

theorem has_toCircuit {inputs : List Nat} :
    (F.toCircuit l roles).Has id kind inputs ↔ F.kinds[id]? = some kind ∧ inputs = F.feeders id := by
  constructor
  · rintro ⟨outputs, hcomponent⟩
    obtain ⟨hkind, hinputs, -⟩ := component?_toCircuit_eq_some.1 hcomponent
    exact ⟨hkind, hinputs⟩
  · rintro ⟨hkind, rfl⟩
    exact ⟨_, component?_of_kind hkind⟩

namespace Built

variable (h : Built φs A F)

include h

/-- A proposition that was there before the gates is fed by just what fed it, through a gate if that is
several components. -/
theorem fedBy_feeders (hid : A.kinds[id]? = some (.proposition a none)) :
    (F.toCircuit l roles).FedBy a id (A.feeders id) := by
  have hlt := (Array.getElem?_eq_some_iff.1 hid).1
  have hkind : F.kinds[id]? = some (.proposition a none) := (h.completes.kinds hlt).trans hid
  have halone : ∀ {i}, (A.feeders id).length ≤ 1 → (F.Feeds i id ↔ i ∈ A.feeders id) := by
    intro i hle
    rw [mem_feeders]
    refine h.completes.alone hlt fun hcrowded => ?_
    obtain ⟨_, -, -, hlen⟩ := crowded_iff.1 hcrowded
    omega
  rcases hfeeders : A.feeders id with _ | ⟨i, _ | ⟨j, sources⟩⟩
  · rw [hfeeders] at halone
    refine has_toCircuit.2 ⟨hkind, (List.eq_nil_iff_forall_not_mem.2 fun i hi => ?_).symm⟩
    exact absurd ((halone (Nat.zero_le _)).1 (mem_feeders.1 hi)) List.not_mem_nil
  · rw [hfeeders] at halone
    refine has_toCircuit.2 ⟨hkind, (feeders_eq_singleton fun j => ?_).symm⟩
    rw [halone (Nat.le_refl _), List.mem_singleton]
  · have hcrowded : A.Crowded id := crowded_iff.2 ⟨_, hid, rfl, by simp [hfeeders]⟩
    obtain ⟨gate, hgathers⟩ := h.completes.gathers hcrowded
    have hdisjunct : ∀ {d i}, F.Feeds d gate → (∀ i', F.Feeds i' d ↔ i' = i) →
        (F.toCircuit l roles).IsDisjunct a i d := fun hd honly =>
      has_toCircuit.2 ⟨hgathers.underlying hid hd, (feeders_eq_singleton honly).symm⟩
    refine ⟨gate, has_toCircuit.2 ⟨hkind, (feeders_eq_singleton hgathers.only).symm⟩, F.feeders gate,
      has_toCircuit.2 ⟨hgathers.kind, rfl⟩, fun d hd => ?_, fun k hk => ?_⟩
    · obtain ⟨-, -, k, hk, honly⟩ := hgathers.sound (mem_feeders.1 hd)
      rw [← mem_feeders, hfeeders] at hk
      exact ⟨k, hk, hdisjunct (mem_feeders.1 hd) honly⟩
    · rw [← hfeeders, mem_feeders] at hk
      obtain ⟨d, hd, honly⟩ := hgathers.complete hk
      refine ⟨d, ⟨mem_feeders.2 hd, hdisjunct hd honly⟩, ?_⟩
      rintro d' ⟨hd', hdisjunct'⟩
      have hfed : F.Feeds k d' := mem_feeders.1 ((has_toCircuit.1 hdisjunct').2 ▸ List.mem_singleton_self k)
      exact hgathers.one (mem_feeders.1 hd') hd hfed ((honly k).2 rfl)

/-- What is added are gates and propositions. -/
theorem kinds_old (hid : F.kinds[id]? = some kind) (hor : kind ≠ .or) (hprop : kind.isProposition = false) :
    A.kinds[id]? = some kind := by
  by_cases hlt : id < A.kinds.size
  · rwa [← h.completes.kinds hlt]
  · rcases h.completes.new (Nat.le_of_not_lt hlt) hid with heq | heq
    · exact absurd heq hor
    · rw [hprop] at heq
      cases heq

/-- What feeds a negation or a transition is what fed it before the gates. -/
theorem feeders_single (hid : A.kinds[id]? = some .not ∨ A.kinds[id]? = some .transition) (hi : A.Feeds i id) :
    F.feeders id = [i] := by
  have hlt : id < A.kinds.size := (h.realizes.regular.feeds_lt hi).2
  have hnot : ¬ A.Crowded id := by
    intro hcrowded
    obtain ⟨kind, hkind, hprop, -⟩ := crowded_iff.1 hcrowded
    rcases hid with hid | hid
    · cases hid.symm.trans hkind
      cases hprop
    · cases hid.symm.trans hkind
      cases hprop
  refine feeders_eq_singleton fun j => ?_
  rw [h.completes.alone hlt hnot]
  exact ⟨fun hj => h.realizes.regular.single hid hj hi, fun hj => hj ▸ hi⟩

theorem followers_transition (hid : A.kinds[id]? = some .transition) {s : Nat} {args : List (Term Symbol)}
    (hs : A.Named ⟨Keyword.holds, args⟩ s) (honly : ∀ j, A.Feeds id j ↔ j = s) : F.followers id = [s] := by
  have hlt := (Array.getElem?_eq_some_iff.1 hid).1
  refine followers_eq_singleton fun j => ⟨fun hj => ?_, fun hj => ?_⟩
  · rcases (h.completes.transition ((h.completes.kinds hlt).trans hid) hj).2 with hold | ⟨j', hcrowded, hold⟩
    · exact (honly j).1 hold
    · obtain rfl := (honly j').1 hold
      exact absurd hcrowded (h.not_crowded hs)
  · rw [hj, h.feeds_state_iff hs]
    exact (honly s).2 rfl

omit h in
/-- The pairs of moves are noted from both sides. -/
theorem mem_inputLegals {input : Nat} :
    (input, id) ∈ (F.toCircuit l roles).inputLegals ↔ (id, input) ∈ (F.toCircuit l roles).pairs := by
  show (input, id) ∈ (F.toCircuit l roles).pairs.map Prod.swap ↔ _
  simp

theorem mem_pairs_iff {input : Nat} : (id, input) ∈ (F.toCircuit l roles).pairs ↔
    ∃ a : Atom Symbol, F.Named a id ∧ a.relation = Keyword.legal ∧ a.role?.isSome = true ∧
      F.Named ⟨Keyword.does, a.args⟩ input := by
  refine List.mem_filterMap.trans ?_
  constructor
  · rintro ⟨⟨id', a⟩, ha, heq⟩
    obtain ⟨ha', hrel⟩ := (h.mem_ofRelation_iff (by decide)).1 ha
    dsimp only at heq
    split at heq
    · rename_i role hrole
      obtain ⟨input', hinput, heq'⟩ := Option.map_eq_some_iff.1 heq
      obtain ⟨rfl, rfl⟩ := Prod.mk.inj heq'
      exact ⟨a, ha', hrel, Option.isSome_iff_exists.2 ⟨role, hrole⟩, hinput⟩
    · cases heq
  · rintro ⟨a, ha, hrel, hrole, hinput⟩
    obtain ⟨role, hrole'⟩ := Option.isSome_iff_exists.1 hrole
    refine ⟨(id, a), (h.mem_ofRelation_iff (by decide)).2 ⟨ha, hrel⟩, ?_⟩
    have hget : F.names.get? ⟨Keyword.does, a.args⟩ = some input := hinput
    simp [hrole', hget]

theorem eq_of_mem_pairs {input input' : Nat} (hpair : (id, input) ∈ (F.toCircuit l roles).pairs)
    (hpair' : (id, input') ∈ (F.toCircuit l roles).pairs) : input = input' := by
  obtain ⟨a, ha, -, -, hinput⟩ := h.mem_pairs_iff.1 hpair
  obtain ⟨a', ha', -, -, hinput'⟩ := h.mem_pairs_iff.1 hpair'
  rw [h.named_inj ha' ha] at hinput'
  exact hinput.eq hinput'

theorem eq_of_mem_pairs_input {id' input : Nat} (hpair : (id, input) ∈ (F.toCircuit l roles).pairs)
    (hpair' : (id', input) ∈ (F.toCircuit l roles).pairs) : id = id' := by
  obtain ⟨⟨relation, args⟩, ha, rfl, -, hinput⟩ := h.mem_pairs_iff.1 hpair
  obtain ⟨⟨relation', args'⟩, ha', rfl, -, hinput'⟩ := h.mem_pairs_iff.1 hpair'
  obtain rfl : args = args' := (Atom.mk.inj (h.named_inj hinput hinput')).2
  exact ha.eq ha'

theorem inputOf?_iff {input : Nat} :
    (F.toCircuit l roles).inputOf? id = some input ↔ (id, input) ∈ (F.toCircuit l roles).pairs :=
  lookup_iff_mem h.eq_of_mem_pairs

theorem legalOf?_iff {input : Nat} :
    (F.toCircuit l roles).legalOf? input = some id ↔ (id, input) ∈ (F.toCircuit l roles).pairs :=
  (lookup_iff_mem fun hpair hpair' => h.eq_of_mem_pairs_input (mem_inputLegals.1 hpair) (mem_inputLegals.1 hpair')).trans
    mem_inputLegals

theorem mem_legal_iff {role : Symbol} : (role, id) ∈ (F.toCircuit l roles).legal ↔
    ∃ a, F.Named a id ∧ a.relation = Keyword.legal ∧ a.role? = some role := by
  have hlegal : id ∈ (F.toCircuit l roles).legalOf role ↔ _ := h.mem_legalOf_iff
  rw [← hlegal, Circuit.legalOf]
  simp

end Built

theorem exists_mem_origins {φ : Formula Symbol} (hφ : φ ∈ origins.map Prod.fst) : ∃ i, (φ, i) ∈ origins := by
  obtain ⟨⟨ψ, i⟩, hψ, rfl⟩ := List.mem_map.1 hφ
  exact ⟨i, hψ⟩

namespace Explained

variable (h : Explained origins A F)

include h

/-- What a formula concludes about the next state decides the state. -/
theorem exists_driver {φ : Formula Symbol} {x : Term Symbol} (hφ : (φ, i) ∈ origins)
    (hhead : φ.head? = some ⟨Keyword.next, [x]⟩) : ∃ s n, A.Named ⟨Keyword.next, [x]⟩ n ∧
      A.Named ⟨Keyword.holds, [x]⟩ s ∧ A.drivers.get? s = some n := by
  obtain ⟨n, hn, hf⟩ := h.wires.complete hφ hhead (by decide : Keyword.next ≠ Keyword.init)
  obtain ⟨s, hd⟩ := h.realizes.next hn hf
  obtain ⟨x', -, hs, hn', -⟩ := h.realizes.driver hd
  obtain rfl := (List.cons.inj (Atom.mk.inj (h.realizes.regular.named_inj hn' hn)).2).1
  exact ⟨s, n, hn, hs, hd⟩

/-- Just the sources feed a named proposition before the gates, those about the state aside. -/
theorem feeds_iff (ha : A.Named a id) (hrel : a.relation ≠ Keyword.holds) : A.Feeds i id ↔ IsSource origins a i := by
  constructor
  · intro hf
    have hinit : a.relation ≠ Keyword.init := fun hinit => h.realizes.regular.init ha hinit hf
    rcases h.wires.sound ha hrel hf with ⟨φ, hφ, hhead⟩ | ⟨x, rfl, hi⟩
    · exact .inl ⟨hinit, φ, hφ, hhead⟩
    · obtain ⟨s, hd⟩ := h.realizes.next ha hf
      obtain ⟨x', hn, φ, hφ, hhead⟩ := h.realizes.driven hd
      rw [h.realizes.regular.named_inj hn ha] at hhead
      obtain ⟨k, hk⟩ := exists_mem_origins hφ
      exact .inr ⟨x, rfl, ⟨_, hk, hhead⟩, hi⟩
  · rintro (⟨hinit, φ, hφ, hhead⟩ | ⟨x, rfl, ⟨⟨φ, k⟩, hφ, hhead⟩, hi⟩)
    · obtain ⟨id', ha', hf⟩ := h.wires.complete hφ hhead hinit
      rwa [ha.eq ha']
    · obtain ⟨s, n, hn, hs, hd⟩ := h.exists_driver hφ hhead
      obtain ⟨s', hs', hjoined, -⟩ := (h.wires.start (List.ne_nil_of_mem hi)).resolve_left
        fun ⟨_, hmem⟩ => List.not_mem_nil hmem
      obtain rfl := hs.eq hs'
      obtain rfl := ha.eq hn
      exact hjoined _ hd i hi

theorem exists_sources (ha : F.Named a id) (hrel : a.relation ≠ Keyword.holds) : ∃ sources : List Nat,
    sources.Nodup ∧ (∀ i, i ∈ sources ↔ IsSource origins a i) ∧ (F.toCircuit l roles).FedBy a id sources := by
  by_cases hlt : id < A.kinds.size
  · have ha' := h.completes.named_old ha hlt
    refine ⟨A.feeders id, A.nodup_feeders id, fun i => ?_, h.fedBy_feeders (h.realizes.regular.named_kind ha')⟩
    rw [mem_feeders, h.feeds_iff ha' hrel]
  · -- a move that was added feeds on nothing, and no formula concludes it
    have hle := Nat.le_of_not_lt hlt
    refine ⟨[], List.nodup_nil, fun i => ⟨fun hi => absurd hi List.not_mem_nil, fun hsource => ?_⟩,
      has_toCircuit.2 ⟨h.completes.named_kind ha, (List.eq_nil_iff_forall_not_mem.2 fun i hi => ?_).symm⟩⟩
    · have hdoes := h.completes.named_new ha hle
      rcases hsource with ⟨hinit, φ, hφ, hhead⟩ | ⟨x, rfl, -⟩
      · obtain ⟨id', ha', -⟩ := h.wires.complete hφ hhead hinit
        rw [ha.eq (h.completes.named ha')] at hlt
        exact absurd (h.realizes.regular.named_lt ha') hlt
      · exact absurd hdoes (by decide : Keyword.next ≠ Keyword.does)
    · exact h.completes.unfed ha hle (mem_feeders.1 hi)

/-- What feeds a proposition about the state is a transition. -/
theorem has_state {args : List (Term Symbol)} {s t : Nat} (hs : A.Named ⟨Keyword.holds, args⟩ s) (ht : A.Feeds t s) :
    (F.toCircuit l roles).Has s (.proposition ⟨Keyword.holds, args⟩ none) [t] := by
  have hs' := h.completes.named hs
  exact has_toCircuit.2 ⟨h.completes.named_kind hs', (h.feeders_named hs' ((h.feeds_state_iff hs).2 ht)).symm⟩

theorem has_transition {t : Nat} (ht : A.kinds[t]? = some .transition) (hi : A.Feeds i t) :
    (F.toCircuit l roles).Has t .transition [i] :=
  has_toCircuit.2 ⟨(h.completes.kinds (h.realizes.regular.feeds_lt hi).2).trans ht,
    (h.feeders_single (.inr ht) hi).symm⟩

theorem explains : (F.toCircuit l roles).Explains origins where
  speaks {φ i} hφ := by
    have hspeaks := h.wires.speaks hφ
    have hkinds : ∀ {i : Nat} {kind : Kind}, A.kinds[i]? = some kind → ∃ inputs, (F.toCircuit l roles).Has i kind inputs :=
      fun hi => ⟨_, has_toCircuit.2 ⟨(h.completes.kinds (Array.getElem?_eq_some_iff.1 hi).1).trans hi, rfl⟩⟩
    cases φ with
    | atom a =>
      obtain rfl : i = if a.relation = Keyword.init then startProposition else trueConstant := hspeaks
      by_cases hinit : a.relation = Keyword.init
      · rw [Circuit.SpeaksFor, if_pos hinit, if_pos hinit]
        exact h.start_eq
      · rw [Circuit.SpeaksFor, if_neg hinit, if_neg hinit]
        exact ⟨rfl, hkinds h.realizes.regular.trueConstant⟩
    | rule head body => exact hkinds hspeaks
    | neg φ => exact hspeaks
    | disj φs => exact hspeaks
  gates := h.wires.nodup
  concluded hφ hhead hinit := by
    obtain ⟨id, ha, -⟩ := h.wires.complete hφ hhead hinit
    exact ⟨id, proposition?_toCircuit.2 (h.completes.named ha)⟩
  fed ha hrel := h.exists_sources (proposition?_toCircuit.1 ha) hrel
  next {φ i x} hφ hhead := by
    obtain ⟨s, n, hn, hs, hd⟩ := h.exists_driver hφ hhead
    obtain ⟨x', t, hs', hn', ht, hf, honly⟩ := h.realizes.driver hd
    exact ⟨n, t, s, proposition?_toCircuit.2 (h.completes.named hn), h.has_transition ht ((honly n).2 rfl),
      proposition?_toCircuit.2 (h.completes.named hs), h.has_state hs hf⟩
  start {x} hne hnext := by
    obtain ⟨s, hs, -, hown⟩ := (h.wires.start hne).resolve_left fun ⟨_, hmem⟩ => List.not_mem_nil hmem
    have hnone : A.drivers.get? s = none := by
      refine Option.eq_none_iff_forall_ne_some.2 fun n hd => ?_
      obtain ⟨x', -, hs', hn, -⟩ := h.realizes.driver hd
      obtain ⟨x'', hn', φ, hφ, hhead⟩ := h.realizes.driven hd
      rw [h.realizes.regular.named_inj hn' hn, ← (List.cons.inj (Atom.mk.inj (h.realizes.regular.named_inj hs hs')).2).1]
        at hhead
      obtain ⟨k, hk⟩ := exists_mem_origins hφ
      exact hnext _ hk hhead
    obtain ⟨t, ht, hf, ⟨d, hd, honly⟩ | ⟨-, d, hd, -, honly, hsources⟩⟩ := hown hnone
    · exact ⟨d, t, s, h.has_transition ht ((honly d).2 rfl), proposition?_toCircuit.2 (h.completes.named hs),
        h.has_state hs hf, .inl hd⟩
    · refine ⟨d, t, s, h.has_transition ht ((honly d).2 rfl), proposition?_toCircuit.2 (h.completes.named hs),
        h.has_state hs hf, .inr ⟨A.feeders d, A.nodup_feeders d, fun i => ?_, h.fedBy_feeders hd⟩⟩
      rw [mem_feeders, hsources]
  idle {args s} hs hidle := by
    have hs' := h.named_old (proposition?_toCircuit.1 hs) (by decide : Keyword.holds ≠ Keyword.does)
    have hkind := h.completes.named_kind (proposition?_toCircuit.1 hs)
    refine has_toCircuit.2 ⟨hkind, (List.eq_nil_iff_forall_not_mem.2 fun t ht => ?_).symm⟩
    have hf := (h.feeds_state_iff hs').1 (mem_feeders.1 ht)
    obtain ⟨x, hx, φ, hφ, hhead⟩ := h.realizes.exists_head hs' hf
    obtain ⟨k, hk⟩ := exists_mem_origins hφ
    have hnot := hidle _ hk x hx
    exact hhead.elim hnot.1 hnot.2

theorem wellFormed : (F.toCircuit l roles).WellFormed (origins.map Prod.fst) where
  linked i j := by
    have hwired : (F.toCircuit l roles).Wired := h.wired
    constructor
    · rintro ⟨source, hsource, hj⟩
      obtain ⟨-, -, houtputs⟩ := component?_toCircuit_eq_some.1 hsource
      rw [houtputs, mem_followers] at hj
      have hkind := Array.getElem?_eq_getElem (h.completes.feeds_lt hj).2
      exact ⟨_, component?_of_kind hkind, mem_feeders.2 hj⟩
    · rintro ⟨target, htarget, hi⟩
      exact hwired.input htarget i hi
  nodup hid := by
    obtain ⟨-, hinputs, houtputs⟩ := component?_toCircuit_eq_some.1 hid
    rw [hinputs, houtputs]
    exact ⟨F.nodup_feeders _, F.nodup_followers _⟩
  named ha := ⟨_, has_toCircuit.2 ⟨h.completes.named_kind (proposition?_toCircuit.1 ha), rfl⟩⟩
  proposition {id component} hid hprop := by
    obtain ⟨hkind, hinputs, -⟩ := component?_toCircuit_eq_some.1 hid
    rw [hinputs]
    refine Nat.le_of_not_lt fun hlt => ?_
    obtain ⟨i, j, hne, hi, hj⟩ := Crowded.exists_ne (crowded_iff.2 ⟨_, hkind, hprop, hlt⟩)
    exact hne (h.completes.unique hkind hprop hi hj)
  negation {id component} hid hnot := by
    obtain ⟨hkind, hinputs, -⟩ := component?_toCircuit_eq_some.1 hid
    rw [hnot] at hkind
    have hold := h.kinds_old hkind (by simp) (by simp [Kind.isProposition, Kind.name?])
    obtain ⟨i, hi⟩ := h.wires.neat.negation hold
    exact ⟨i, hinputs.trans (h.feeders_single (.inl hold) hi)⟩
  transition {id component} hid htransition := by
    obtain ⟨hkind, hinputs, houtputs⟩ := component?_toCircuit_eq_some.1 hid
    rw [htransition] at hkind
    have hold := h.kinds_old hkind (by simp) (by simp [Kind.isProposition, Kind.name?])
    obtain ⟨⟨i, hi⟩, x, s, hs, honly⟩ := h.wires.neat.transition hold
    exact ⟨i, x, s, hinputs.trans (h.feeders_single (.inr hold) hi),
      houtputs.trans (h.followers_transition hold hs honly), proposition?_toCircuit.2 (h.completes.named hs)⟩
  base id := by
    constructor
    · intro hid
      obtain ⟨args, t, hs, ht⟩ := h.mem_base_iff.1 hid
      have hs' := h.named_old hs (by decide : Keyword.holds ≠ Keyword.does)
      have hkind := h.realizes.isTransition hs' ((h.feeds_state_iff hs').1 ht)
      rw [← h.completes.kinds (Array.getElem?_eq_some_iff.1 hkind).1] at hkind
      exact ⟨_, component?_of_kind (h.completes.named_kind hs), rfl, t, h.feeders_named hs ht, _,
        has_toCircuit.2 ⟨hkind, rfl⟩⟩
    · rintro ⟨component, hid, -, t, ht, inputs, outputs, htransition⟩
      exact (h.wired.transition hid t (ht ▸ List.mem_singleton_self t) htransition (decide_eq_true rfl)).2
  explained := ⟨origins, rfl, h.explains⟩
  paired id := by
    rw [Option.isSome_iff_exists]
    constructor
    · rintro ⟨input, hinput⟩
      obtain ⟨a, ha, hrel, hrole, -⟩ := h.mem_pairs_iff.1 (h.inputOf?_iff.1 hinput)
      obtain ⟨role, hrole'⟩ := Option.isSome_iff_exists.1 hrole
      exact ⟨role, h.mem_legal_iff.2 ⟨a, ha, hrel, hrole'⟩⟩
    · rintro ⟨role, hrole⟩
      obtain ⟨⟨relation, args⟩, ha, rfl, hrole'⟩ := h.mem_legal_iff.1 hrole
      obtain ⟨input, hinput⟩ := h.moves ha
      exact ⟨input, h.inputOf?_iff.2 (h.mem_pairs_iff.2
        ⟨_, ha, rfl, Option.isSome_iff_exists.2 ⟨role, hrole'⟩, hinput⟩)⟩
  sameArguments hinput := by
    obtain ⟨args, hlegal, hdoes⟩ := h.exists_args_of_inputOf? hinput
    exact ⟨args, proposition?_toCircuit.2 hlegal, proposition?_toCircuit.2 hdoes⟩
  injective hinput hinput' := h.eq_of_mem_pairs_input (h.inputOf?_iff.1 hinput) (h.inputOf?_iff.1 hinput')
  inverse id input := h.legalOf?_iff.trans h.inputOf?_iff.symm

end Explained

end Assembly

/-- A circuit that is built from formulas is well-formed, and the formulas explain it. -/
theorem Circuit.wellFormed_of_build {l : Lexicon} {roles : List Symbol} {φs : List (Formula Symbol)} {c : Circuit}
    (h : Circuit.build l roles φs = .ok c) : c.WellFormed φs := by
  unfold Circuit.build at h
  cases hF : Assembly.ofFormulas φs with
  | error e => simp [hF] at h
  | ok F =>
    obtain rfl : F.toCircuit l roles = c := by simpa [hF] using h
    obtain ⟨origins, A, rfl, hexplained⟩ := Assembly.exists_explained hF
    exact hexplained.wellFormed

/-- A lamp that is lit at the start and stays so until the player makes the move to release it, or if there is a spark.
There is one at the start, for two reasons, and never again. -/
def latch : List (Formula Symbol) :=
  let player : Term Symbol := .const ⟨14⟩
  let release : Term Symbol := .const ⟨15⟩
  let lamp : Term Symbol := .const ⟨16⟩
  let spark : Term Symbol := .const ⟨17⟩
  let lit (t : Term Symbol) : Formula Symbol := .atom ⟨Keyword.holds, [t]⟩
  [.atom ⟨Keyword.init, [lamp]⟩,
    .rule ⟨Keyword.next, [lamp]⟩ [lit lamp, .neg (.atom ⟨Keyword.does, [player, release]⟩)],
    .rule ⟨Keyword.next, [lamp]⟩ [lit spark], .atom ⟨Keyword.init, [spark]⟩,
    .rule ⟨Keyword.init, [spark]⟩ [.neg (lit lamp)], .atom ⟨Keyword.legal, [player, release]⟩]

theorem Circuit.wellFormed_of_build_latch :
    ∃ c, Circuit.build Lexicon.initial [⟨14⟩] latch = .ok c ∧ c.WellFormed latch := by
  have hrun : (Circuit.build Lexicon.initial [⟨14⟩] latch).toOption.isSome = true := by decide +kernel
  rcases hbuild : Circuit.build Lexicon.initial [⟨14⟩] latch with e | c
  · rw [hbuild] at hrun
    cases hrun
  · exact ⟨c, rfl, wellFormed_of_build hbuild⟩

end GameCircuit
