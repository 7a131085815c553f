import GameCircuit.Proofs.StartWiring
import Mathlib.Data.List.Nodup

/-!
# Propositions with several inputs

A proposition that several components feed gets an `or` gate in their place, with a proposition between
each of them and the gate.  Then no proposition is fed twice, and the value that each component is given
stays the same (`Assembly.Mends`).
-/

namespace GameCircuit

namespace Assembly

variable {A b b' R : Assembly} {a : Atom Symbol} {i j id : Nat} {kind : Kind} {w : Nat → Prop}

/-! ## Inputs and outputs -/

@[simp] theorem mem_feeders : i ∈ b.feeders j ↔ b.Feeds i j := Iff.rfl

theorem feeds_iff_getElem? : b.Feeds i j ↔ ∃ k : Nat, (b.feeders j)[k]? = some i := List.mem_iff_getElem?

@[simp] theorem mem_followers : j ∈ b.followers i ↔ b.Feeds i j := b.links.mem_outputs_iff i j

theorem nodup_feeders (b : Assembly) (id : Nat) : (b.feeders id).Nodup := b.links.inputs.nodup_of id

theorem nodup_followers (b : Assembly) (id : Nat) : (b.followers id).Nodup := b.links.outputs.nodup_of id

theorem feeders_link_of_ne {s t : Nat} (h : t ≠ id) : (b.link s t).feeders id = b.feeders id :=
  Neighbours.of_note_of_ne h

theorem feeders_unlink_of_ne {s t : Nat} (h : t ≠ id) : (b.unlink s t).feeders id = b.feeders id :=
  Neighbours.of_forget_of_ne h

theorem feeders_eq_singleton (h : ∀ j, b.Feeds j id ↔ j = i) : b.feeders id = [i] := by
  refine List.perm_singleton.1 ((List.perm_ext_iff_of_nodup (b.nodup_feeders id) (List.nodup_singleton i)).2 ?_)
  intro j
  rw [mem_feeders, h, List.mem_singleton]

theorem followers_eq_singleton (h : ∀ j, b.Feeds id j ↔ j = i) : b.followers id = [i] := by
  refine List.perm_singleton.1 ((List.perm_ext_iff_of_nodup (b.nodup_followers id) (List.nodup_singleton i)).2 ?_)
  intro j
  rw [mem_followers, h, List.mem_singleton]

/-- Several components feed the proposition. -/
def Crowded (b : Assembly) (id : Nat) : Prop := id ∈ b.crowded

theorem crowded_iff : b.Crowded id ↔
    ∃ kind, b.kinds[id]? = some kind ∧ kind.isProposition = true ∧ 1 < (b.feeders id).length := by
  simp only [Crowded, crowded, List.mem_filterMap, Prod.exists, List.mem_zipIdx_iff_getElem?, Array.getElem?_toList]
  constructor
  · rintro ⟨kind, id', hkind, hif⟩
    split_ifs at hif with hcond
    obtain rfl := Option.some.inj hif
    exact ⟨kind, hkind, by simpa using hcond⟩
  · rintro ⟨kind, hkind, hprop, hlen⟩
    exact ⟨kind, id, hkind, by simp [hprop, hlen]⟩

theorem nodup_crowded (b : Assembly) : b.crowded.Nodup := by
  have hnodup : (b.crowded.map fun id => id).Nodup := by
    refine nodup_filterMap_zipIdx (fun {kind i id} hid => ?_) _
    dsimp only at hid
    split_ifs at hid
    exact (Option.some.inj hid).symm
  rwa [List.map_id'] at hnodup

/-- A proposition that is not crowded is fed at most once. -/
theorem eq_of_not_crowded (hid : b.kinds[id]? = some kind) (hkind : kind.isProposition = true)
    (hnot : ¬ b.Crowded id) (hi : b.Feeds i id) (hj : b.Feeds j id) : i = j := by
  have hle : (b.feeders id).length ≤ 1 :=
    Nat.le_of_not_lt fun hlt => hnot (crowded_iff.2 ⟨kind, hid, hkind, hlt⟩)
  have hi' := mem_feeders.2 hi
  have hj' := mem_feeders.2 hj
  match hfeeders : b.feeders id, hle with
  | [], _ => simp [hfeeders] at hi'
  | [k], _ =>
    rw [hfeeders, List.mem_singleton] at hi' hj'
    exact hi'.trans hj'.symm

/-- A crowded proposition is fed by two components. -/
theorem Crowded.exists_ne (h : b.Crowded id) : ∃ i j, i ≠ j ∧ b.Feeds i id ∧ b.Feeds j id := by
  obtain ⟨kind, -, -, hlen⟩ := crowded_iff.1 h
  match hfeeders : b.feeders id, hlen with
  | i :: j :: rest, _ =>
    have hnodup := b.nodup_feeders id
    rw [hfeeders] at hnodup
    exact ⟨i, j, fun heq => (List.nodup_cons.1 hnodup).1 (heq ▸ List.mem_cons_self),
      mem_feeders.1 (by simp [hfeeders]), mem_feeders.1 (by simp [hfeeders])⟩

/-! ## One gate -/

/-- The name that a proposition between an input and the gate has. -/
def disjunct (underlying : Option (Atom Symbol)) : Kind := .proposition ⟨Keyword.disjunct, []⟩ underlying

variable {gate : Nat} {underlying : Option (Atom Symbol)} {inputs : List Nat}

theorem kinds_foldl_separate (b : Assembly) (inputs : List Nat) :
    (inputs.foldl (separate id gate underlying) b).kinds.toList =
      b.kinds.toList ++ List.replicate inputs.length (disjunct underlying) := by
  induction inputs generalizing b with
  | nil => simp
  | cons input inputs ih =>
    rw [List.foldl_cons, ih]
    simp [separate, add, link, unlink, disjunct, List.replicate_succ]

theorem names_foldl_separate (b : Assembly) (inputs : List Nat) :
    (inputs.foldl (separate id gate underlying) b).names = b.names := by
  induction inputs generalizing b with
  | nil => rfl
  | cons input inputs ih =>
    rw [List.foldl_cons, ih]
    rfl

theorem size_separate (b : Assembly) (input : Nat) :
    (separate id gate underlying b input).kinds.size = b.kinds.size + 1 :=
  size_add b (disjunct underlying)

/-- One input: its link to the proposition is gone, and the links to and from the proposition in between are there. -/
theorem feeds_separate {input : Nat} : (separate id gate underlying b input).Feeds i j ↔
    (b.Feeds i j ∧ ¬ (i = input ∧ j = id) ∨ i = input ∧ j = b.kinds.size) ∨ i = b.kinds.size ∧ j = gate := by
  show ((((b.add (disjunct underlying)).2.unlink input id).link input b.kinds.size).link b.kinds.size gate).Feeds
    i j ↔ _
  rw [feeds_link, feeds_link, feeds_unlink]
  exact Iff.rfl

theorem feeds_foldl_separate (b : Assembly) (inputs : List Nat) (hid : id < b.kinds.size) (hgate : gate ≠ id) :
    (inputs.foldl (separate id gate underlying) b).Feeds i j ↔ (b.Feeds i j ∧ ¬ (i ∈ inputs ∧ j = id)) ∨
      (∃ k : Nat, inputs[k]? = some i ∧ j = b.kinds.size + k) ∨
      ∃ k < inputs.length, i = b.kinds.size + k ∧ j = gate := by
  induction inputs generalizing b with
  | nil => simp
  | cons input inputs ih =>
    have hsize : (separate id gate underlying b input).kinds.size = b.kinds.size + 1 := size_separate b input
    have hsucc : ∀ k, b.kinds.size + 1 + k = b.kinds.size + (k + 1) := fun k => by omega
    have hinput : (∃ k : Nat, (input :: inputs)[k]? = some i ∧ j = b.kinds.size + k) ↔
        i = input ∧ j = b.kinds.size ∨ ∃ k : Nat, inputs[k]? = some i ∧ j = b.kinds.size + 1 + k := by
      rw [← Nat.or_exists_add_one]
      simp [hsucc, eq_comm]
    have hfeeds : (∃ k < (input :: inputs).length, i = b.kinds.size + k ∧ j = gate) ↔
        i = b.kinds.size ∧ j = gate ∨ ∃ k < inputs.length, i = b.kinds.size + 1 + k ∧ j = gate := by
      rw [← Nat.or_exists_add_one]
      simp [hsucc]
    rw [List.foldl_cons, ih _ (by omega), feeds_separate, hsize, hinput, hfeeds, List.mem_cons]
    -- what was linked anew does not lead to the proposition, so that no later step unlinks it
    by_cases hj : j = id
    · have hnew : j ≠ b.kinds.size ∧ j ≠ gate := ⟨by omega, hj ▸ hgate.symm⟩
      simp only [hj ▸ hnew.1, hj ▸ hnew.2, hj, and_true, and_false, or_false, false_or, not_or, and_assoc]
    · simp only [hj, and_false, not_false_eq_true, and_true]
      simp only [or_comm, or_left_comm, or_assoc]

/-- What feeds the other components is left as it is, in its order. -/
theorem feeders_foldl_separate (b : Assembly) (inputs : List Nat) (hlt : j < b.kinds.size) (hid : j ≠ id)
    (hgate : j ≠ gate) : (inputs.foldl (separate id gate underlying) b).feeders j = b.feeders j := by
  induction inputs generalizing b with
  | nil => rfl
  | cons input inputs ih =>
    rw [List.foldl_cons, ih _ (by rw [size_separate]; omega)]
    show ((((b.add (disjunct underlying)).2.unlink input id).link input b.kinds.size).link b.kinds.size gate).feeders
      j = _
    rw [feeders_link_of_ne hgate.symm, feeders_link_of_ne (Nat.ne_of_gt hlt), feeders_unlink_of_ne hid.symm]
    rfl

section CollectInputs

variable (hkind : b.kinds[id]? = some kind)

include hkind

theorem collectInputs_eq : b.collectInputs id =
    ((b.feeders id).foldl (separate id b.kinds.size kind.name?) (b.add .or).2).link b.kinds.size id := by
  rw [collectInputs, hkind]
  rfl

/-- The gate comes first among the components that are added, and then a proposition for each input. -/
theorem kinds_collectInputs : (b.collectInputs id).kinds.toList =
    b.kinds.toList ++ .or :: List.replicate (b.feeders id).length (disjunct kind.name?) := by
  rw [collectInputs_eq hkind]
  show ((b.feeders id).foldl (separate id b.kinds.size kind.name?) (b.add .or).2).kinds.toList = _
  rw [kinds_foldl_separate]
  simp [add]

theorem names_collectInputs : (b.collectInputs id).names = b.names := by
  rw [collectInputs_eq hkind]
  exact names_foldl_separate (b.add .or).2 _

theorem feeds_collectInputs : (b.collectInputs id).Feeds i j ↔ (b.Feeds i j ∧ j ≠ id) ∨
    (∃ k : Nat, (b.feeders id)[k]? = some i ∧ j = b.kinds.size + 1 + k) ∨
    (∃ k < (b.feeders id).length, i = b.kinds.size + 1 + k ∧ j = b.kinds.size) ∨ i = b.kinds.size ∧ j = id := by
  have hid := (Array.getElem?_eq_some_iff.1 hkind).1
  have hsize := size_add b .or
  have hunlinked : ((b.add .or).2.Feeds i j ∧ ¬ (i ∈ b.feeders id ∧ j = id)) ↔ b.Feeds i j ∧ j ≠ id := by
    show b.Feeds i j ∧ _ ↔ _
    refine and_congr_right fun hf => not_congr (and_iff_right_of_imp ?_)
    rintro rfl
    exact hf
  rw [collectInputs_eq hkind, feeds_link, feeds_foldl_separate _ _ (by omega) (by omega), hsize, hunlinked]
  simp only [or_assoc]

theorem feeders_collectInputs_of_ne (hlt : j < b.kinds.size) (hj : j ≠ id) :
    (b.collectInputs id).feeders j = b.feeders j := by
  have hsize := size_add b .or
  rw [collectInputs_eq hkind, feeders_link_of_ne hj.symm]
  exact feeders_foldl_separate _ _ (by omega) hj (by omega)

end CollectInputs

/-- The proposition `id` gets a gate over the inputs, each with a proposition of its own.  The gate is the
first component that is added, and the propositions follow in the order of the inputs. -/
structure AddsGate (R R' : Assembly) (id : Nat) (underlying : Option (Atom Symbol)) (inputs : List Nat) :
    Prop where
  size : R'.kinds.size = R.kinds.size + 1 + inputs.length
  kinds : ∀ {k : Nat}, k < R.kinds.size → R'.kinds[k]? = R.kinds[k]?
  gate : R'.kinds[R.kinds.size]? = some .or
  disjunct : ∀ {k : Nat}, k < inputs.length → R'.kinds[R.kinds.size + 1 + k]? = some (disjunct underlying)
  lt : ∀ {i j}, R'.Feeds i j → j < R'.kinds.size
  old : ∀ {j}, j < R.kinds.size → j ≠ id → R'.feeders j = R.feeders j
  self : ∀ i, R'.Feeds i id ↔ i = R.kinds.size
  feeds_gate : ∀ i, R'.Feeds i R.kinds.size ↔ ∃ k < inputs.length, i = R.kinds.size + 1 + k
  feeds_disjunct : ∀ {k i' : Nat}, inputs[k]? = some i' → ∀ i, R'.Feeds i (R.kinds.size + 1 + k) ↔ i = i'

theorem addsGate_collectInputs (hlt : ∀ {i j}, R.Feeds i j → i < R.kinds.size ∧ j < R.kinds.size)
    (hkind : R.kinds[id]? = some kind) : AddsGate R (R.collectInputs id) id kind.name? (R.feeders id) := by
  have hid := (Array.getElem?_eq_some_iff.1 hkind).1
  set R' := R.collectInputs id with hR'
  have hfeeds : ∀ {i j}, R'.Feeds i j ↔ _ := feeds_collectInputs hkind
  have hlist : ∀ {k : Nat}, R'.kinds[k]? =
      (R.kinds.toList ++ .or :: List.replicate (R.feeders id).length (disjunct kind.name?))[k]? := by
    intro k
    rw [← kinds_collectInputs hkind, Array.getElem?_toList]
  have hsize : R'.kinds.size = R.kinds.size + 1 + (R.feeders id).length := by
    rw [← Array.length_toList, kinds_collectInputs hkind]
    simp
    omega
  refine ⟨hsize, fun {k} hk => ?_, ?_, fun {k} hk => ?_, fun {i j} hf => ?_, feeders_collectInputs_of_ne hkind,
    fun i => ?_, fun i => ?_, fun {k i'} hk i => ?_⟩
  · rw [hlist, List.getElem?_append_left (by simpa using hk), Array.getElem?_toList]
  · rw [hlist, List.getElem?_append_right (by simp)]
    simp
  · rw [hlist, List.getElem?_append_right (by simp; omega)]
    simp [show R.kinds.size + 1 + k - R.kinds.size = k + 1 by omega, hk]
  · rcases hfeeds.1 hf with ⟨hf, -⟩ | ⟨k, hk, hj⟩ | ⟨k, -, -, hj⟩ | ⟨-, hj⟩
    · have := (hlt hf).2
      omega
    · have := (List.getElem?_eq_some_iff.1 hk).1
      omega
    · omega
    · omega
  · rw [hfeeds]
    constructor
    · rintro (⟨-, hne⟩ | ⟨k, -, hk⟩ | ⟨k, -, -, hk⟩ | ⟨hi, -⟩)
      · exact absurd rfl hne
      · omega
      · omega
      · exact hi
    · exact fun hi => .inr (.inr (.inr ⟨hi, rfl⟩))
  · rw [hfeeds]
    constructor
    · rintro (⟨hf, -⟩ | ⟨k, -, hk⟩ | ⟨k, hk, hi, -⟩ | ⟨-, hk⟩)
      · exact absurd (hlt hf).2 (Nat.lt_irrefl _)
      · omega
      · exact ⟨k, hk, hi⟩
      · omega
    · rintro ⟨k, hk, hi⟩
      exact .inr (.inr (.inl ⟨k, hk, hi, rfl⟩))
  · rw [hfeeds]
    constructor
    · rintro (⟨hf, -⟩ | ⟨k', hk', heq⟩ | ⟨k', -, -, heq⟩ | ⟨-, heq⟩)
      · have := (hlt hf).2
        omega
      · obtain rfl : k = k' := by omega
        exact Option.some.inj (hk'.symm.trans hk)
      · omega
      · omega
    · rintro rfl
      exact .inr (.inl ⟨k, hk, rfl⟩)

/-! ## All gates -/

/-- The gate was added and collects just what fed the proposition. -/
structure Gathers (A R : Assembly) (id gate : Nat) : Prop where
  new : A.kinds.size ≤ gate
  kind : R.kinds[gate]? = some .or
  only : ∀ i, R.Feeds i id ↔ i = gate
  sound : ∀ {d : Nat}, R.Feeds d gate → A.kinds.size ≤ d ∧
    (∃ u, R.kinds[d]? = some (disjunct (some u))) ∧ ∃ i, A.Feeds i id ∧ ∀ i', R.Feeds i' d ↔ i' = i
  complete : ∀ {i}, A.Feeds i id → ∃ d, R.Feeds d gate ∧ ∀ i', R.Feeds i' d ↔ i' = i
  -- a proposition of the gate knows which proposition it stands for, and no two have the same input
  underlying : ∀ {d : Nat} {u : Atom Symbol} {u' : Option (Atom Symbol)},
    A.kinds[id]? = some (.proposition u u') → R.Feeds d gate → R.kinds[d]? = some (disjunct (some u))
  one : ∀ {d d' i}, R.Feeds d gate → R.Feeds d' gate → R.Feeds i d → R.Feeds i d' → d = d'

/-- What is left alone when the crowded propositions get their gates, with those in `rest` to come. -/
structure Mends (A : Assembly) (rest : List Nat) (R : Assembly) : Prop where
  size_le : A.kinds.size ≤ R.kinds.size
  kinds : ∀ {id : Nat}, id < A.kinds.size → R.kinds[id]? = A.kinds[id]?
  names : R.names = A.names
  feeds_lt : ∀ {i j}, R.Feeds i j → i < R.kinds.size ∧ j < R.kinds.size
  -- what is added is a gate over what is added, or stands between the gate and an input
  new : ∀ {id : Nat} {kind : Kind}, A.kinds.size ≤ id → R.kinds[id]? = some kind →
    kind = .or ∧ (∀ i, R.Feeds i id → A.kinds.size ≤ i) ∨
    (∃ u, kind = disjunct (some u)) ∧ ∃ i j, A.Crowded j ∧ A.Feeds i j ∧ ∀ i', R.Feeds i' id ↔ i' = i
  alone : ∀ {i id}, id < A.kinds.size → ¬ A.Crowded id → (R.Feeds i id ↔ A.Feeds i id)
  crowded : ∀ {id}, A.Crowded id → id ∉ rest → ∃ gate, Gathers A R id gate
  -- the propositions that are to come still have their inputs
  waiting : ∀ id ∈ rest, A.Crowded id ∧ R.feeders id = A.feeders id
  nodup : rest.Nodup

/-- Nothing changes for a gate while what feeds the proposition and what was added for it stays. -/
theorem Gathers.stable {gate : Nat} {R' : Assembly} (h : Gathers A R id gate) (hid : id < R.kinds.size)
    (hlt : ∀ {i j}, R.Feeds i j → i < R.kinds.size ∧ j < R.kinds.size)
    (hkinds : ∀ {k : Nat}, k < R.kinds.size → R'.kinds[k]? = R.kinds[k]?)
    (hfeeds : ∀ {i j}, j < R.kinds.size → j = id ∨ A.kinds.size ≤ j → (R'.Feeds i j ↔ R.Feeds i j)) :
    Gathers A R' id gate := by
  have hgate := (Array.getElem?_eq_some_iff.1 h.kind).1
  have hold : ∀ {i}, R'.Feeds i gate ↔ R.Feeds i gate := hfeeds hgate (.inr h.new)
  have hfed : ∀ {d i}, R.Feeds d gate → (R'.Feeds i d ↔ R.Feeds i d) := fun hd =>
    hfeeds (hlt hd).1 (.inr (h.sound hd).1)
  refine ⟨h.new, (hkinds hgate).trans h.kind, fun i => (hfeeds hid (.inl rfl)).trans (h.only i),
    fun {d} hd => ?_, fun {i} hi => ?_, fun {d u u'} hu hd => ?_, fun {d d' i} hd hd' hi hi' => ?_⟩
  · rw [hold] at hd
    obtain ⟨hnew, ⟨u, hu⟩, i, hi, honly⟩ := h.sound hd
    exact ⟨hnew, ⟨u, (hkinds (hlt hd).1).trans hu⟩, i, hi, fun i' => (hfed hd).trans (honly i')⟩
  · obtain ⟨d, hd, honly⟩ := h.complete hi
    exact ⟨d, hold.2 hd, fun i' => (hfed hd).trans (honly i')⟩
  · rw [hold] at hd
    exact (hkinds (hlt hd).1).trans (h.underlying hu hd)
  · rw [hold] at hd hd'
    exact h.one hd hd' ((hfed hd).1 hi) ((hfed hd').1 hi')

namespace AddsGate

variable {R' : Assembly} {inputs : List Nat} {u : Atom Symbol}

theorem feeds_old (h : AddsGate R R' id underlying inputs) (hlt : j < R.kinds.size) (hj : j ≠ id) :
    R'.Feeds i j ↔ R.Feeds i j := by
  rw [Feeds, Feeds, h.old hlt hj]

/-- A component was there, is the gate, or is the proposition of an input. -/
theorem cases (h : AddsGate R R' id underlying inputs) (hj : j < R'.kinds.size) :
    j < R.kinds.size ∨ j = R.kinds.size ∨ ∃ k i : Nat, inputs[k]? = some i ∧ j = R.kinds.size + 1 + k := by
  have hsize := h.size
  by_cases hlt : j ≤ R.kinds.size
  · omega
  · have hk : j - R.kinds.size - 1 < inputs.length := by omega
    exact .inr (.inr ⟨_, _, List.getElem?_eq_getElem hk, by omega⟩)

theorem feeds_lt (h : AddsGate R R' id underlying inputs)
    (hlt : ∀ {i j}, R.Feeds i j → i < R.kinds.size ∧ j < R.kinds.size)
    (hinputs : ∀ {k i : Nat}, inputs[k]? = some i → i < R.kinds.size) (hf : R'.Feeds i j) :
    i < R'.kinds.size ∧ j < R'.kinds.size := by
  have hsize := h.size
  refine ⟨?_, h.lt hf⟩
  rcases h.cases (h.lt hf) with hj | rfl | ⟨k, i', hk, rfl⟩
  · by_cases hne : j = id
    · subst hne
      have := (h.self i).1 hf
      omega
    · have := (hlt ((h.feeds_old hj hne).1 hf)).1
      omega
  · obtain ⟨k, hk, rfl⟩ := (h.feeds_gate i).1 hf
    omega
  · obtain rfl := (h.feeds_disjunct hk i).1 hf
    have := hinputs hk
    omega

/-- The gate over what fed a proposition. -/
theorem gathers (h : AddsGate R R' id (some u) (A.feeders id)) (hle : A.kinds.size ≤ R.kinds.size)
    (hkind : A.kinds[id]? = some kind) (hu : kind.name? = some u) : Gathers A R' id R.kinds.size := by
  have hsource : ∀ {i}, A.Feeds i id ↔ ∃ k : Nat, (A.feeders id)[k]? = some i := feeds_iff_getElem?
  refine ⟨hle, h.gate, h.self, fun {d} hd => ?_, fun {i} hi => ?_, fun {d v v'} hv hd => ?_,
    fun {d d' i} hd hd' hi hi' => ?_⟩
  · obtain ⟨k, hk, rfl⟩ := (h.feeds_gate d).1 hd
    have hk' := List.getElem?_eq_getElem hk
    exact ⟨by omega, ⟨u, h.disjunct hk⟩, _, hsource.2 ⟨k, hk'⟩, h.feeds_disjunct hk'⟩
  · obtain ⟨k, hk⟩ := hsource.1 hi
    exact ⟨_, (h.feeds_gate _).2 ⟨k, (List.getElem?_eq_some_iff.1 hk).1, rfl⟩, h.feeds_disjunct hk⟩
  · obtain ⟨k, hk, rfl⟩ := (h.feeds_gate d).1 hd
    rw [Option.some.inj (hkind.symm.trans hv)] at hu
    rw [h.disjunct hk, ← hu]
    rfl
  · obtain ⟨k, hk, rfl⟩ := (h.feeds_gate d).1 hd
    obtain ⟨k', hk', rfl⟩ := (h.feeds_gate d').1 hd'
    have hget := (h.feeds_disjunct (List.getElem?_eq_getElem hk) i).1 hi
    have hget' := (h.feeds_disjunct (List.getElem?_eq_getElem hk') i).1 hi'
    -- no component feeds the proposition twice, so the two places are one
    rw [(A.nodup_feeders id).getElem_inj_iff.1 (hget.symm.trans hget')]

end AddsGate

/-- One more gate. -/
theorem Mends.collectInputs (hA : A.Regular) {rest : List Nat} (h : Mends A (id :: rest) R) :
    Mends A rest (R.collectInputs id) := by
  obtain ⟨hcrowded, hfeeders⟩ := h.waiting id List.mem_cons_self
  obtain ⟨kind, hkind, hprop, -⟩ := crowded_iff.1 hcrowded
  have hid := (Array.getElem?_eq_some_iff.1 hkind).1
  have hle := h.size_le
  obtain ⟨u, hu⟩ : ∃ u, kind.name? = some u := Option.isSome_iff_exists.1 hprop
  have hkindR := (h.kinds hid).trans hkind
  have hgate := addsGate_collectInputs h.feeds_lt hkindR
  rw [hu, hfeeders] at hgate
  have hnames := names_collectInputs hkindR
  set R' := R.collectInputs id
  have hsize := hgate.size
  refine ⟨by omega, fun hlt => (hgate.kinds (by omega)).trans (h.kinds hlt), hnames.trans h.names,
    hgate.feeds_lt h.feeds_lt fun hk => ?_, fun {j kind'} hj hkind' => ?_,
    fun {i j} hj hnot => ?_, fun {j} hj hrest => ?_, fun j hj => ?_, (List.nodup_cons.1 h.nodup).2⟩
  · have := (hA.feeds_lt (feeds_iff_getElem?.2 ⟨_, hk⟩)).1
    omega
  · rcases hgate.cases (Array.getElem?_eq_some_iff.1 hkind').1 with hlt | rfl | ⟨k, i', hk, rfl⟩
    · have hfeeds : ∀ {i}, R'.Feeds i j ↔ R.Feeds i j := hgate.feeds_old hlt (by omega)
      rw [hgate.kinds hlt] at hkind'
      simpa only [hfeeds] using h.new hj hkind'
    · refine .inl ⟨Option.some.inj (hkind'.symm.trans hgate.gate), fun i hi => ?_⟩
      obtain ⟨k, hk, rfl⟩ := (hgate.feeds_gate i).1 hi
      omega
    · have hdisjunct := hgate.disjunct (List.getElem?_eq_some_iff.1 hk).1
      exact .inr ⟨⟨u, Option.some.inj (hkind'.symm.trans hdisjunct)⟩, i', id, hcrowded,
        feeds_iff_getElem?.2 ⟨k, hk⟩, hgate.feeds_disjunct hk⟩
  · have hne : j ≠ id := fun heq => hnot (heq ▸ hcrowded)
    exact (hgate.feeds_old (by omega) hne).trans (h.alone hj hnot)
  · by_cases hne : j = id
    · subst hne
      exact ⟨R.kinds.size, hgate.gathers hle hkind hu⟩
    · obtain ⟨gate, hgathers⟩ := h.crowded hj (by simpa [hne] using hrest)
      obtain ⟨kind', hkind', -⟩ := crowded_iff.1 hj
      have hj' := (Array.getElem?_eq_some_iff.1 hkind').1
      refine ⟨gate, hgathers.stable (by omega) h.feeds_lt hgate.kinds fun hk hstays => hgate.feeds_old hk ?_⟩
      omega
  · obtain ⟨hcrowded', hfeeders'⟩ := h.waiting j (List.mem_cons_of_mem _ hj)
    obtain ⟨kind', hkind', -⟩ := crowded_iff.1 hcrowded'
    have hj' := (Array.getElem?_eq_some_iff.1 hkind').1
    have hne : j ≠ id := fun heq => (List.nodup_cons.1 h.nodup).1 (heq ▸ hj)
    exact ⟨hcrowded', (hgate.old (by omega) hne).trans hfeeders'⟩

/-- Before the first gate. -/
theorem mends_self (hA : A.Regular) : Mends A A.crowded A := by
  have hlt : ∀ {id : Nat} {kind : Kind}, A.kinds.size ≤ id → A.kinds[id]? ≠ some kind := by
    intro id kind hle hkind
    exact absurd (Array.getElem?_eq_some_iff.1 hkind).1 (Nat.not_lt.2 hle)
  exact ⟨Nat.le_refl _, fun _ => rfl, rfl, hA.feeds_lt, fun hle hkind => absurd hkind (hlt hle),
    fun _ _ => Iff.rfl, fun hcrowded hnot => absurd hcrowded hnot, fun id hid => ⟨hid, rfl⟩, A.nodup_crowded⟩

theorem mends_repair (hA : A.Regular) : Mends A [] A.repair := by
  have hloop : ∀ {rest R}, Mends A rest R → Mends A [] (rest.foldl Assembly.collectInputs R) := by
    intro rest
    induction rest with
    | nil => exact fun h => h
    | cons id rest ih => exact fun h => ih (h.collectInputs hA)
  exact hloop (mends_self hA)

/-- The gate passes on what fed the proposition. -/
theorem Gathers.drives {gate : Nat} (h : Gathers A R id gate) (hgate : w gate ↔ ∃ d, R.Feeds d gate ∧ w d)
    (hdisjunct : ∀ d, R.Feeds d gate → (w d ↔ ∃ i, R.Feeds i d ∧ w i)) :
    (∃ i, R.Feeds i id ∧ w i) ↔ ∃ i, A.Feeds i id ∧ w i := by
  simp only [h.only, exists_eq_left]
  rw [hgate]
  constructor
  · rintro ⟨d, hd, hwd⟩
    obtain ⟨-, -, i, hi, honly⟩ := h.sound hd
    rw [hdisjunct d hd] at hwd
    simp only [honly, exists_eq_left] at hwd
    exact ⟨i, hi, hwd⟩
  · rintro ⟨i, hi, hwi⟩
    obtain ⟨d, hd, honly⟩ := h.complete hi
    refine ⟨d, hd, ?_⟩
    rw [hdisjunct d hd]
    exact ⟨i, (honly i).2 rfl, hwi⟩

namespace Mends

theorem exists_gate (h : Mends A [] R) (hid : A.Crowded id) : ∃ gate, Gathers A R id gate :=
  h.crowded hid List.not_mem_nil

theorem unique (h : Mends A [] R) (hid : R.kinds[id]? = some kind) (hkind : kind.isProposition = true)
    (hi : R.Feeds i id) (hj : R.Feeds j id) : i = j := by
  by_cases hlt : id < A.kinds.size
  · by_cases hcrowded : A.Crowded id
    · obtain ⟨gate, hgathers⟩ := h.exists_gate hcrowded
      exact ((hgathers.only i).1 hi).trans ((hgathers.only j).1 hj).symm
    · rw [h.kinds hlt] at hid
      exact eq_of_not_crowded hid hkind hcrowded ((h.alone hlt hcrowded).1 hi) ((h.alone hlt hcrowded).1 hj)
  · rcases h.new (Nat.le_of_not_lt hlt) hid with ⟨rfl, -⟩ | ⟨-, i', j', -, -, honly⟩
    · cases hkind
    · exact ((honly i).1 hi).trans ((honly j).1 hj).symm

theorem single (h : Mends A [] R) (hA : A.Regular)
    (hid : R.kinds[id]? = some .not ∨ R.kinds[id]? = some .transition) (hi : R.Feeds i id)
    (hj : R.Feeds j id) :
    i = j := by
  have hlt : id < A.kinds.size := by
    by_contra hle
    rcases hid with hid | hid <;>
      rcases h.new (Nat.le_of_not_lt hle) hid with ⟨heq, -⟩ | ⟨⟨u, heq⟩, -⟩ <;> cases heq
  rw [h.kinds hlt] at hid
  have hnot : ¬ A.Crowded id := by
    intro hcrowded
    obtain ⟨kind, hkind, hprop, -⟩ := crowded_iff.1 hcrowded
    rcases hid with hid | hid <;> cases hid.symm.trans hkind <;> cases hprop
  exact hA.single hid ((h.alone hlt hnot).1 hi) ((h.alone hlt hnot).1 hj)

/-- No transition is added, and none is linked to what is added unless it fed a crowded proposition. -/
theorem transition (h : Mends A [] R) (hi : R.kinds[i]? = some .transition) (hf : R.Feeds i j) :
    i < A.kinds.size ∧ (A.Feeds i j ∨ ∃ j', A.Crowded j' ∧ A.Feeds i j') := by
  have hlt : i < A.kinds.size := by
    by_contra hle
    rcases h.new (Nat.le_of_not_lt hle) hi with ⟨heq, -⟩ | ⟨⟨u, heq⟩, -⟩
    · cases heq
    · cases heq
  refine ⟨hlt, ?_⟩
  by_cases hj : j < A.kinds.size
  · by_cases hcrowded : A.Crowded j
    · obtain ⟨gate, hgathers⟩ := h.exists_gate hcrowded
      have hnew := hgathers.new
      have heq := (hgathers.only i).1 hf
      omega
    · exact .inl ((h.alone hj hcrowded).1 hf)
  · have hkind := Array.getElem?_eq_getElem (h.feeds_lt hf).2
    rcases h.new (Nat.le_of_not_lt hj) hkind with ⟨-, hnew⟩ | ⟨-, i', j', hj', hi', honly⟩
    · have hle := hnew i hf
      omega
    · obtain rfl := (honly i).1 hf
      exact .inr ⟨j', hj', hi'⟩

/-- If what is added has the value that it is given, what was there is given the value that it was. -/
theorem drives (h : Mends A [] R)
    (hw : ∀ {id : Nat} {kind : Kind}, A.kinds.size ≤ id → R.kinds[id]? = some kind →
      (w id ↔ R.Drives w id kind)) (hid : A.kinds[id]? = some kind) :
    R.Drives w id kind ↔ A.Drives w id kind := by
  by_cases hcrowded : A.Crowded id
  · obtain ⟨gate, hgathers⟩ := h.exists_gate hcrowded
    obtain ⟨kind', hkind', hprop, -⟩ := crowded_iff.1 hcrowded
    obtain rfl := Option.some.inj (hid.symm.trans hkind')
    have hdrives := hgathers.drives (hw hgathers.new hgathers.kind) fun d hd => by
      obtain ⟨hnew, ⟨u, hu⟩, -⟩ := hgathers.sound hd
      exact hw hnew hu
    cases kind with
    | proposition name underlying => exact hdrives
    | _ => cases hprop
  · exact drives_congr fun i => h.alone (Array.getElem?_eq_some_iff.1 hid).1 hcrowded

end Mends

/-! ## The complete assembly -/

/-- No proposition is fed twice any more, and the components have the values that they had. -/
structure Completes (A F : Assembly) : Prop where
  size_le : A.kinds.size ≤ F.kinds.size
  kinds : ∀ {id : Nat}, id < A.kinds.size → F.kinds[id]? = A.kinds[id]?
  named : ∀ {a id}, A.Named a id → F.Named a id
  named_old : ∀ {a id}, F.Named a id → id < A.kinds.size → A.Named a id
  named_new : ∀ {a id}, F.Named a id → A.kinds.size ≤ id → a.relation = Keyword.does
  named_kind : ∀ {a id}, F.Named a id → F.kinds[id]? = some (.proposition a none)
  own : ∀ {a : Atom Symbol} {id : Nat}, F.kinds[id]? = some (.proposition a none) →
    F.Named a id ∨ a = ⟨Keyword.anonymous, []⟩
  feeds_lt : ∀ {i j}, F.Feeds i j → i < F.kinds.size ∧ j < F.kinds.size
  unique : ∀ {id i j : Nat} {kind : Kind}, F.kinds[id]? = some kind → kind.isProposition = true →
    F.Feeds i id → F.Feeds j id → i = j
  single : ∀ {id i j : Nat}, F.kinds[id]? = some .not ∨ F.kinds[id]? = some .transition →
    F.Feeds i id → F.Feeds j id → i = j
  alone : ∀ {i id}, id < A.kinds.size → ¬ A.Crowded id → (F.Feeds i id ↔ A.Feeds i id)
  -- no transition is added, and none is linked to what is added unless it fed a crowded proposition
  transition : ∀ {i j : Nat}, F.kinds[i]? = some .transition → F.Feeds i j →
    i < A.kinds.size ∧ (A.Feeds i j ∨ ∃ j', A.Crowded j' ∧ A.Feeds i j')
  -- if what is added has the value that it is given, what was there is given the value that it was
  drives : ∀ {w : Nat → Prop}, (∀ {id : Nat} {kind : Kind}, A.kinds.size ≤ id → F.kinds[id]? = some kind →
      (∀ a, ¬ F.Named a id) → (w id ↔ F.Drives w id kind)) →
    ∀ {id : Nat} {kind : Kind}, A.kinds[id]? = some kind → (F.Drives w id kind ↔ A.Drives w id kind)
  -- what is added are gates and propositions
  new : ∀ {id : Nat} {kind : Kind}, A.kinds.size ≤ id → F.kinds[id]? = some kind →
    kind = .or ∨ kind.isProposition = true
  gathers : ∀ {id}, A.Crowded id → ∃ gate, Gathers A F id gate
  unfed : ∀ {a i id}, F.Named a id → A.kinds.size ≤ id → ¬ F.Feeds i id

namespace Completes

variable {F : Assembly}

theorem repair (hA : A.Regular) : Completes A A.repair := by
  have h := mends_repair hA
  have hnamed : ∀ {a id}, A.repair.Named a id ↔ A.Named a id := by
    intro a id
    rw [Named, Named, h.names]
  refine ⟨h.size_le, h.kinds, hnamed.2, fun ha _ => hnamed.1 ha,
    fun ha hle => absurd (hA.named_lt (hnamed.1 ha)) (Nat.not_lt.2 hle), fun ha => ?_, fun {a id} hid => ?_,
    h.feeds_lt, h.unique, h.single hA, h.alone, h.transition,
    fun hw => h.drives fun hle hid => hw hle hid fun a ha => ?_, fun hle hid => ?_, h.exists_gate,
    fun ha hle => absurd (hA.named_lt (hnamed.1 ha)) (Nat.not_lt.2 hle)⟩
  · have ha' := hnamed.1 ha
    rw [h.kinds (hA.named_lt ha')]
    exact hA.named_kind ha'
  · by_cases hlt : id < A.kinds.size
    · rw [h.kinds hlt] at hid
      exact (hA.own hid).2.imp_left hnamed.2
    · rcases h.new (Nat.le_of_not_lt hlt) hid with ⟨heq, -⟩ | ⟨⟨u, heq⟩, -⟩
      · cases heq
      · cases heq
  · exact absurd (hA.named_lt (hnamed.1 ha)) (Nat.not_lt.2 hle)
  · rcases h.new hle hid with ⟨rfl, -⟩ | ⟨⟨u, rfl⟩, -⟩
    · exact .inl rfl
    · exact .inr rfl

/-- Adding the proposition of a move. -/
theorem addsName {F' : Assembly} (h : Completes A F) (hadds : AddsName F F' a)
    (hmove : a.relation = Keyword.does) : Completes A F' where
  size_le := by
    have hle := h.size_le
    have hsize := hadds.size
    omega
  kinds hid := (hadds.kinds (Nat.lt_of_lt_of_le hid h.size_le)).trans (h.kinds hid)
  named ha := hadds.named_iff.2 (.inl (h.named ha))
  named_old ha hid := h.named_old (hadds.named_old ha (Nat.lt_of_lt_of_le hid h.size_le)) hid
  named_new ha hid := by
    rcases hadds.named_iff.1 ha with hold | ⟨rfl, -⟩
    · exact h.named_new hold hid
    · exact hmove
  named_kind ha := by
    rcases hadds.named_iff.1 ha with hold | ⟨rfl, rfl⟩
    · exact hadds.kinds_old (h.named_kind hold)
    · exact hadds.kind
  own hid := by
    rcases hadds.kind_cases hid with hold | ⟨rfl, heq⟩
    · exact (h.own hold).imp_left fun ha => hadds.named_iff.2 (.inl ha)
    · obtain ⟨rfl, -⟩ := Kind.proposition.inj heq
      exact .inl (hadds.named_iff.2 (.inr ⟨rfl, rfl⟩))
  feeds_lt hf := by
    obtain ⟨hi, hj⟩ := h.feeds_lt (hadds.feeds_iff.1 hf)
    have hsize := hadds.size
    omega
  unique hid hprop hi hj := by
    rw [hadds.feeds_iff] at hi hj
    rw [hadds.kinds (h.feeds_lt hi).2] at hid
    exact h.unique hid hprop hi hj
  single hid hi hj := by
    rw [hadds.feeds_iff] at hi hj
    rw [hadds.kinds (h.feeds_lt hi).2] at hid
    exact h.single hid hi hj
  alone hid hnot := hadds.feeds_iff.trans (h.alone hid hnot)
  transition hi hf := by
    rw [hadds.feeds_iff] at hf
    rw [hadds.kinds (h.feeds_lt hf).1] at hi
    exact h.transition hi hf
  drives := by
    intro w hw id kind hid
    refine (drives_congr fun _ => hadds.feeds_iff).trans (h.drives (fun hle hkind hnot => ?_) hid)
    have hlt := (Array.getElem?_eq_some_iff.1 hkind).1
    rw [hw hle (hadds.kinds_old hkind) fun a ha => hnot a (hadds.named_old ha hlt)]
    exact drives_congr fun _ => hadds.feeds_iff
  new hle hid := by
    rcases hadds.kind_cases hid with hold | ⟨-, rfl⟩
    · exact h.new hle hold
    · exact .inr rfl
  gathers hcrowded := by
    obtain ⟨gate, hgathers⟩ := h.gathers hcrowded
    obtain ⟨kind, hkind, -⟩ := crowded_iff.1 hcrowded
    have hlt := Nat.lt_of_lt_of_le (Array.getElem?_eq_some_iff.1 hkind).1 h.size_le
    exact ⟨gate, hgathers.stable hlt h.feeds_lt hadds.kinds fun _ _ => hadds.feeds_iff⟩
  unfed ha hle hf := by
    rw [hadds.feeds_iff] at hf
    exact h.unfed (hadds.named_old ha (h.feeds_lt hf).2) hle hf

theorem addInput (h : Completes A F) (args : List (Term Symbol)) : Completes A (F.addInput args) := by
  rw [Assembly.addInput]
  rcases F.named_cases ⟨Keyword.does, args⟩ with ⟨id, -, heq⟩ | ⟨-, hadds⟩
  · rw [heq]
    exact h
  · exact h.addsName hadds rfl

end Completes

/-- Gates for crowded propositions and propositions for moves complete an assembly. -/
theorem completes_addInputs (hA : A.Regular) : Completes A A.repair.addInputs := by
  have hloop : ∀ (arguments : List (List (Term Symbol))) {F}, Completes A F →
      Completes A (arguments.foldl Assembly.addInput F) := by
    intro arguments
    induction arguments with
    | nil => exact fun h => h
    | cons args arguments ih => exact fun h => ih (h.addInput args)
  exact hloop _ (Completes.repair hA)

end Assembly

end GameCircuit
