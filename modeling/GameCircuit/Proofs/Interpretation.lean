import GameCircuit.Proofs.CircuitMeaning

/-!
# The interpretation of a state

In a state, with the moves that are made, the formulas of a description determine which atoms are true:
`Circuit.Interprets` says that the atoms about the state and the moves are as they are set, that nothing is
about the start, and that every other atom is true just if the formulas conclude it.  A circuit that is
built from ground formulas and can be evaluated has exactly one such interpretation, the meaning of its
values.
-/

namespace GameCircuit

/-- `I` is what the formulas say is true in the state, when the moves are made. -/
structure Circuit.Interprets (c : Circuit) (φs : List (Formula Symbol)) (holding made : List Nat)
    (I : Set (Atom Symbol)) : Prop where
  /-- Just the atoms of the state are true about it. -/
  state : ∀ {a}, a.relation = Keyword.holds → (a ∈ I ↔ ∃ id ∈ holding, c.proposition? a = some id)
  /-- Just the moves that are made are true. -/
  moves : ∀ {a}, a.relation = Keyword.does → (a ∈ I ↔ ∃ id ∈ made, c.proposition? a = some id)
  /-- It is not before the first state. -/
  start : ⟨Keyword.start, []⟩ ∉ I
  /-- Nothing is about the start. -/
  init : ∀ {a}, a.relation = Keyword.init → a ∉ I
  /-- What else is true is what the formulas conclude. -/
  rules : ∀ {a}, a.relation ≠ Keyword.holds → a.relation ≠ Keyword.does → a ≠ ⟨Keyword.start, []⟩ →
    a.relation ≠ Keyword.init → (a ∈ I ↔ a ∈ consequences φs I)

/-- Only what the formulas conclude and which moves are made matters. -/
theorem Circuit.Interprets.congr {c : Circuit} {φs ψs : List (Formula Symbol)} {holding made made' : List Nat}
    {I : Set (Atom Symbol)} (h : c.Interprets φs holding made I) (heq : consequences φs I = consequences ψs I)
    (hmade : ∀ id, id ∈ made ↔ id ∈ made') : c.Interprets ψs holding made' I where
  state := h.state
  moves hrel := (h.moves hrel).trans (exists_congr fun id => and_congr_left fun _ => hmade id)
  start := h.start
  init := h.init
  rules hholds hdoes hne hinit := heq ▸ h.rules hholds hdoes hne hinit

namespace Assembly

open Classical in
/-- The equations in which the named propositions are set to what an interpretation says. -/
noncomputable def clamp (F : Assembly) (J : Set (Atom Symbol)) (f : (Nat → Bool) → Nat → Component → Bool)
    (v : Nat → Bool) (id : Nat) (component : Component) : Bool :=
  if ∃ a, F.Named a id then decide (∃ a ∈ J, F.Named a id) else f v id component

section Clamp

variable {F : Assembly} {J : Set (Atom Symbol)} {f : (Nat → Bool) → Nat → Component → Bool} {v : Nat → Bool}
  {id : Nat} {component : Component}

theorem clamp_of_named {a : Atom Symbol} (ha : F.Named a id) :
    F.clamp J f v id component = true ↔ ∃ a ∈ J, F.Named a id := by
  have hnamed : ∃ a, F.Named a id := ⟨a, ha⟩
  simp only [clamp, if_pos hnamed, decide_eq_true_eq]

theorem clamp_of_not_named (hnot : ∀ a, ¬ F.Named a id) : F.clamp J f v id component = f v id component := by
  rw [clamp, if_neg (not_exists.2 hnot)]

theorem isLocal_clamp {c : Circuit} (hf : c.IsLocal f) : c.IsLocal (F.clamp J f) := by
  intro id component hid v v' hagree
  by_cases hnot : ∀ a, ¬ F.Named a id
  · rw [clamp_of_not_named hnot, clamp_of_not_named hnot]
    exact hf hid hagree
  · obtain ⟨a, ha⟩ := not_forall_not.1 hnot
    rw [Bool.eq_iff_iff, clamp_of_named ha, clamp_of_named ha]

end Clamp

variable {A F : Assembly} {φs : List (Formula Symbol)} {l : Lexicon} {roles : List Symbol} {a : Atom Symbol}
  {id : Nat} {w : Nat → Prop} {holding made : List Nat} (h : Built φs A F)
  (hground : ∀ φ ∈ φs, φ.isGround = true)

include h hground

/-- The values of a circuit mean what the formulas say. -/
theorem Built.interprets (he : F.Evaluates ⟨holding, made, false⟩ w) :
    (F.toCircuit l roles).Interprets φs holding made (F.meaning w) where
  state hrel := by
    simp only [proposition?_toCircuit]
    constructor
    · rintro ⟨id, ha, hw⟩
      exact ⟨id, (he.state_iff ha hrel).1 hw, ha⟩
    · rintro ⟨id, hid, ha⟩
      exact ⟨id, ha, (he.state_iff ha hrel).2 hid⟩
  moves hrel := by
    simp only [proposition?_toCircuit]
    constructor
    · rintro ⟨id, ha, hw⟩
      exact ⟨id, (he.move_iff ha hrel).1 hw, ha⟩
    · rintro ⟨id, hid, ha⟩
      exact ⟨id, ha, (he.move_iff ha hrel).2 hid⟩
  start := he.start_not_mem_meaning rfl
  init hinit := h.not_mem_meaning_of_init he hinit
  rules hholds hdoes hne hinit := by
    rw [mem_consequences_iff_concludes hground]
    exact h.mem_meaning_iff_concludes he rfl hholds hdoes hne hinit

/-! ## There is no other interpretation -/

variable {J : Set (Atom Symbol)} (hJ : (F.toCircuit l roles).Interprets φs holding made J)

include hJ

/-- What is true has a name. -/
theorem Built.exists_named_of_mem (ha : a ∈ J) : ∃ id, F.Named a id := by
  by_cases hholds : a.relation = Keyword.holds
  · obtain ⟨id, -, hid⟩ := (hJ.state hholds).1 ha
    exact ⟨id, proposition?_toCircuit.1 hid⟩
  by_cases hdoes : a.relation = Keyword.does
  · obtain ⟨id, -, hid⟩ := (hJ.moves hdoes).1 ha
    exact ⟨id, proposition?_toCircuit.1 hid⟩
  have hinit : a.relation ≠ Keyword.init := fun hinit => hJ.init hinit ha
  have hne : a ≠ ⟨Keyword.start, []⟩ := fun heq => hJ.start (heq ▸ ha)
  have hc := (hJ.rules hholds hdoes hne hinit).1 ha
  exact h.exists_named ((mem_consequences_iff_concludes hground).1 hc) hinit

/-- Values that follow what feeds them and mean what the formulas say are those of the components. -/
theorem Built.evaluates_of_interprets (hfollows : F.Follows w) (hmeaning : F.meaning w = J) :
    F.Evaluates ⟨holding, made, false⟩ w := by
  refine ⟨hfollows, fun {a id} ha => ?_⟩
  have hw : w id ↔ a ∈ J := by
    rw [← hmeaning]
    exact ha.mem_meaning_iff.symm
  have hset : ∀ {ids : List Nat}, (a ∈ J ↔ ∃ id ∈ ids, (F.toCircuit l roles).proposition? a = some id) →
      (w id ↔ id ∈ ids) := by
    intro ids hiff
    rw [hw, hiff]
    simp only [proposition?_toCircuit]
    exact ⟨fun ⟨id', hid', ha'⟩ => ha'.eq ha ▸ hid', fun hid => ⟨id, hid, ha⟩⟩
  unfold Prescribes
  split_ifs with hholds hdoes hne
  · exact hset (hJ.state hholds)
  · exact hset (hJ.moves hdoes)
  · subst hne
    simp [hw, hJ.start]
  · by_cases hinit : a.relation = Keyword.init
    · rw [hw]
      exact iff_of_false (hJ.init hinit) (h.not_feeds_init hfollows ha hinit)
    · rw [h.feeds_iff_concludes hfollows (hmeaning ▸ hJ.start) ha hholds hdoes hinit, hmeaning, hw,
        hJ.rules hholds hdoes hne hinit, mem_consequences_iff_concludes hground]

/-- Every interpretation is the meaning of the values. -/
theorem Built.eq_meaning_of_interprets {order : List Nat} (horder : (F.toCircuit l roles).IsOrder order)
    (hstate : holding ⊆ (F.toCircuit l roles).base) {v : Nat → Bool}
    (hv : (F.toCircuit l roles).Solves ((F.toCircuit l roles).settle ⟨holding, made, false⟩) v) :
    J = F.meaning fun i => v i = true := by
  -- values in which the named propositions say what the interpretation does
  have hlocal : (F.toCircuit l roles).IsLocal ((F.toCircuit l roles).settle ⟨holding, made, false⟩) :=
    h.wired.isLocal_settle _
  obtain ⟨u, hu⟩ : ∃ u, (F.toCircuit l roles).Solves
      (F.clamp J ((F.toCircuit l roles).settle ⟨holding, made, false⟩)) u :=
    ⟨_, horder.solves_run (isLocal_clamp hlocal)⟩
  have hnamed : ∀ {a id}, F.Named a id → (u id = true ↔ a ∈ J) := by
    intro a id ha
    rw [hu (component?_of_kind (h.completes.named_kind ha)), clamp_of_named ha]
    exact ⟨fun ⟨a', ha', hid⟩ => h.named_inj hid ha ▸ ha', fun hmem => ⟨a, hmem, ha⟩⟩
  have hfollows : F.Follows fun i => u i = true := by
    intro id kind hid hnot
    show u id = true ↔ _
    rw [hu (component?_of_kind hid), clamp_of_not_named hnot]
    exact h.settle_unnamed hid hnot
  have hmeaning : (F.meaning fun i => u i = true) = J := by
    ext a
    constructor
    · rintro ⟨id, ha, hw⟩
      exact (hnamed ha).1 hw
    · intro ha
      obtain ⟨id, hid⟩ := h.exists_named_of_mem hground hJ ha
      exact ⟨id, hid, (hnamed hid).2 ha⟩
  -- they solve the equations, which have one solution
  have hsolves := (h.solves_iff hstate).2 (h.evaluates_of_interprets hground hJ hfollows hmeaning)
  rw [← hmeaning]
  ext a
  refine exists_congr fun id => and_congr_right fun ha => ?_
  have hlive : ((F.toCircuit l roles).component? id).isSome = true := by
    rw [component?_of_kind (h.completes.named_kind ha)]
    rfl
  have heq : u id = v id := horder.solution_unique hlocal hsolves hv hlive
  exact Eq.congr_left heq

end Assembly

end GameCircuit
