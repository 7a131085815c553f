import GameCircuit.Play.Machine
import GameCircuit.Proofs.BuiltCircuits

/-!
# Circuits compute their rules

The propositions of a circuit that are true make up an interpretation, `Circuit.meaning`.  In it, the
propositions about the state and the moves are as they are set, and every other atom is true just if the
formulas that the circuit was built from conclude it.  What the transitions let through is what the
formulas conclude about the next state.
-/

namespace GameCircuit

/-- The atoms whose propositions are true. -/
def Circuit.meaning (c : Circuit) (v : Nat → Bool) : Set (Atom Symbol) :=
  {a | ∃ id, c.proposition? a = some id ∧ v id = true}

namespace Assembly

variable {A F : Assembly} {φs : List (Formula Symbol)} {a : Atom Symbol} {I : Set (Atom Symbol)}
  {w : Nat → Prop} {i j id : Nat} {kind : Kind}

/-! ## What the formulas conclude -/

namespace Realizes

variable (h : Realizes φs [] A) (hw : Obeys ∅ A w I)

include h hw

/-- What feeds a proposition and is true shows that the formulas conclude it. -/
theorem concludes_of_feeds (ha : A.Named a id) (hrel : a.relation ≠ Keyword.holds) (hi : A.Feeds i id)
    (hwi : w i) : Concludes φs I a ∨ ∃ x, a = ⟨Keyword.next, [x]⟩ ∧ ConcludesAtStart φs I x := by
  refine (h.sound ha hrel hi).imp ?_ ?_
  · rintro ⟨φ, hφ, hhead, hcomputes⟩
    exact concludes_iff.2 ⟨φ, hφ, hhead, (hcomputes hw).1 hwi⟩
  · rintro ⟨x, hx, φ, hφ, hhead, hcomputes⟩
    exact ⟨x, hx, concludesAtStart_iff.2 ⟨φ, hφ, hhead, (hcomputes hw).1 hwi⟩⟩

/-- What the formulas conclude has a proposition that is fed by something true. -/
theorem exists_feeds (hc : Concludes φs I a) (hinit : a.relation ≠ Keyword.init) :
    ∃ id i, A.Named a id ∧ A.Feeds i id ∧ w i := by
  obtain ⟨φ, hφ, hhead, happlies⟩ := concludes_iff.1 hc
  obtain ⟨id, i, ha, hi, hcomputes⟩ := h.complete φ hφ hhead hinit
  exact ⟨id, i, ha, hi, (hcomputes hw).2 happlies⟩

/-- A proposition about the next state passes its value on. -/
theorem exists_transition {s n : Nat} (hn : A.drivers.get? s = some n) :
    ∃ x t, A.Named ⟨Keyword.holds, [x]⟩ s ∧ A.Named ⟨Keyword.next, [x]⟩ n ∧ A.Feeds t s ∧ (w t ↔ w n) := by
  obtain ⟨x, t, hs, hn', hkind, ht, honly⟩ := h.driver hn
  refine ⟨x, t, hs, hn', ht, ?_⟩
  rw [hw.law hkind (Set.notMem_empty _) (h.regular.not_named hkind rfl), Drives]
  simp only [honly, exists_eq_left]

/-- What feeds a proposition about the state that nothing decides says what is concluded at the start. -/
theorem concludesAtStart_iff_of_undecided {x : Term Symbol} {s t : Nat} (hd : A.drivers.get? s = none)
    (hs : A.Named ⟨Keyword.holds, [x]⟩ s) (ht : A.Feeds t s) : w t ↔ ConcludesAtStart φs I x := by
  rcases h.state hs ht with hsome | ⟨-, x', hx', -, -, hcomputes⟩
  · simp [hd] at hsome
  · obtain rfl := (List.cons.inj hx').1
    exact hcomputes hw

/-- What feeds the proposition about the state is true if the formulas conclude that it holds next, or
at the start. -/
theorem state_iff (hnext : ∀ {x n}, A.Named ⟨Keyword.next, [x]⟩ n → (w n ↔ ∃ i, A.Feeds i n ∧ w i))
    {x : Term Symbol} : (∃ s t, A.Named ⟨Keyword.holds, [x]⟩ s ∧ A.Feeds t s ∧ w t) ↔
      Concludes φs I ⟨Keyword.next, [x]⟩ ∨ ConcludesAtStart φs I x := by
  have hne : (⟨Keyword.next, [x]⟩ : Atom Symbol).relation ≠ Keyword.holds :=
    (by decide : Keyword.next ≠ Keyword.holds)
  constructor
  · rintro ⟨s, t, hs, ht, hwt⟩
    cases hd : A.drivers.get? s with
    | some n =>
      obtain ⟨x', t', hs', hn, ht', hiff⟩ := h.exists_transition hw hd
      obtain rfl := (List.cons.inj (Atom.mk.inj (h.regular.named_inj hs hs')).2).1
      rw [← h.unique hs ht ht'] at hwt
      obtain ⟨i, hi, hwi⟩ := (hnext hn).1 (hiff.1 hwt)
      refine (h.concludes_of_feeds hw hn hne hi hwi).imp_right ?_
      rintro ⟨x', hx', hstart⟩
      obtain rfl := (List.cons.inj (Atom.mk.inj hx').2).1
      exact hstart
    | none => exact .inr ((h.concludesAtStart_iff_of_undecided hw hd hs ht).1 hwt)
  · rintro (hc | hc)
    · obtain ⟨n, i, hn, hi, hwi⟩ := h.exists_feeds hw hc (by decide : Keyword.next ≠ Keyword.init)
      obtain ⟨s, hd⟩ := h.next hn hi
      obtain ⟨x', t, hs, hn', ht, hiff⟩ := h.exists_transition hw hd
      obtain rfl := (List.cons.inj (Atom.mk.inj (h.regular.named_inj hn hn')).2).1
      exact ⟨s, t, hs, ht, hiff.2 ((hnext hn).2 ⟨i, hi, hwi⟩)⟩
    · obtain ⟨φ, hφ, hhead, happlies⟩ := concludesAtStart_iff.1 hc
      obtain ⟨x', hx', hor⟩ := h.start φ hφ hhead
      obtain rfl := (List.cons.inj hx').1
      obtain ⟨s, t, hs, ht, hjoined⟩ := hor.resolve_left fun ⟨_, hmem⟩ => List.not_mem_nil hmem
      cases hd : A.drivers.get? s with
      | some n =>
        obtain ⟨i, hi, hcomputes⟩ := hjoined n hd
        obtain ⟨x', t', -, hn, ht', hiff⟩ := h.exists_transition hw hd
        exact ⟨s, t', hs, ht', hiff.2 ((hnext hn).2 ⟨i, hi, (hcomputes hw).2 happlies⟩)⟩
      | none => exact ⟨s, t, hs, ht, (h.concludesAtStart_iff_of_undecided hw hd hs ht).2 hc⟩

end Realizes

/-! ## The equations of the components -/

/-- Every component without a name has the value that the components feeding it give. -/
def Follows (F : Assembly) (w : Nat → Prop) : Prop :=
  ∀ ⦃id : Nat⦄ ⦃kind : Kind⦄, F.kinds[id]? = some kind → (∀ a, ¬ F.Named a id) →
    (w id ↔ F.Drives w id kind)

/-- The value that a named proposition is set to or, if it is none of those that are set, is given. -/
def Prescribes (F : Assembly) (s : Stimulus) (w : Nat → Prop) (a : Atom Symbol) (id : Nat) : Prop :=
  if a.relation = Keyword.holds then id ∈ s.state
  else if a.relation = Keyword.does then id ∈ s.moves
  else if a = ⟨Keyword.start, []⟩ then s.starting = true
  else ∃ i, F.Feeds i id ∧ w i

/-- The values `w` are those of the components under the stimulus. -/
structure Evaluates (F : Assembly) (s : Stimulus) (w : Nat → Prop) : Prop where
  follows : F.Follows w
  named : ∀ {a id}, F.Named a id → (w id ↔ F.Prescribes s w a id)

section Equations

variable {l : Lexicon} {roles : List Symbol} {s : Stimulus} {v : Nat → Bool} (h : Built φs A F)

include h

/-- The equation of a component that is not set from outside. -/
theorem Built.settle_iff (hid : F.kinds[id]? = some kind)
    (hfree : kind.isProposition = true → id ∉ (F.toCircuit l roles).base ∧ id ∉ (F.toCircuit l roles).inputs ∧
      id ≠ startProposition) :
    (F.toCircuit l roles).settle s v id ⟨kind, F.feeders id, F.followers id⟩ = true ↔
      F.Drives (fun i => v i = true) id kind := by
  have hsingle : (∀ {i j}, F.Feeds i id → F.Feeds j id → i = j) →
      ((⟨kind, F.feeders id, F.followers id⟩ : Component).singleValue v = true ↔
        ∃ i, F.Feeds i id ∧ v i = true) := by
    intro hunique
    rw [Component.singleValue_iff (F.nodup_feeders id) fun i hi j hj =>
      hunique (mem_feeders.1 hi) (mem_feeders.1 hj)]
    simp only [mem_feeders]
  cases kind with
  | proposition name underlying =>
    obtain ⟨hbase, hinput, hstart⟩ := hfree rfl
    have hstart' : (F.toCircuit l roles).start ≠ some id := by
      rw [h.start_eq]
      exact fun heq => hstart (Option.some.inj heq).symm
    rw [Drives, ← hsingle (h.completes.unique hid rfl)]
    simp [Circuit.settle, Component.value, Circuit.surface, hbase, hinput, hstart']
  | and => simp [Circuit.settle, Component.value, Drives]
  | or => simp [Circuit.settle, Component.value, Drives]
  | not =>
    rw [Drives, ← hsingle (h.completes.single (.inl hid))]
    simp [Circuit.settle, Component.value]
  | constant value => rfl
  | transition => exact hsingle (h.completes.single (.inr hid))

theorem Built.settle_unnamed (hid : F.kinds[id]? = some kind) (hnot : ∀ a, ¬ F.Named a id) :
    (F.toCircuit l roles).settle s v id ⟨kind, F.feeders id, F.followers id⟩ = true ↔
      F.Drives (fun i => v i = true) id kind := by
  refine h.settle_iff hid fun _ => ⟨fun hmem => ?_, fun hmem => ?_, ?_⟩
  · obtain ⟨args, t, hs, -⟩ := h.mem_base_iff.1 hmem
    exact hnot _ hs
  · obtain ⟨args, hargs⟩ := h.mem_inputs_iff.1 hmem
    exact hnot _ hargs
  · rintro rfl
    exact hnot _ h.start_named

theorem Built.settle_named (hstate : s.state ⊆ (F.toCircuit l roles).base) (ha : F.Named a id) :
    (F.toCircuit l roles).settle s v id ⟨.proposition a none, F.feeders id, F.followers id⟩ = true ↔
      F.Prescribes s (fun i => v i = true) a id := by
  have hkind := h.completes.named_kind ha
  unfold Prescribes
  split_ifs with hholds hdoes hstart
  · by_cases hbase : id ∈ (F.toCircuit l roles).base
    · simp [Circuit.settle, Component.value, Circuit.surface, hbase]
    · -- what is not part of the state is not fed
      have hdoes : a.relation ≠ Keyword.does := hholds ▸ (by decide)
      have hne : a ≠ ⟨Keyword.start, []⟩ := fun heq => absurd (heq ▸ hholds) (by decide)
      rw [h.settle_iff hkind fun _ => ⟨hbase, h.not_mem_inputs ha hdoes, h.ne_startProposition ha hne⟩]
      obtain ⟨relation, args⟩ := a
      obtain rfl : relation = Keyword.holds := hholds
      constructor
      · rintro ⟨t, ht, -⟩
        exact absurd (h.mem_base_iff.2 ⟨args, t, ha, ht⟩) hbase
      · exact fun hmem => absurd (hstate hmem) hbase
  · have hbase : id ∉ (F.toCircuit l roles).base := h.not_mem_base ha hholds
    have hinput : id ∈ (F.toCircuit l roles).inputs := h.mem_inputs_iff.2 ⟨a.args, hdoes ▸ ha⟩
    simp [Circuit.settle, Component.value, Circuit.surface, hbase, hinput]
  · have hbase : id ∉ (F.toCircuit l roles).base := h.not_mem_base ha hholds
    have hinput : id ∉ (F.toCircuit l roles).inputs := h.not_mem_inputs ha hdoes
    subst hstart
    obtain rfl := ha.eq h.start_named
    have hstart : (F.toCircuit l roles).start = some startProposition := h.start_eq
    simp [Circuit.settle, Component.value, Circuit.surface, hbase, hinput, hstart]
  · exact h.settle_iff hkind fun _ =>
      ⟨h.not_mem_base ha hholds, h.not_mem_inputs ha hdoes, h.ne_startProposition ha hstart⟩

/-- To satisfy the equations of the circuit is to be the values of the components. -/
theorem Built.solves_iff (hstate : s.state ⊆ (F.toCircuit l roles).base) :
    (F.toCircuit l roles).Solves ((F.toCircuit l roles).settle s) v ↔ F.Evaluates s fun i => v i = true := by
  constructor
  · refine fun hv => ⟨fun id kind hid hnot => ?_, fun ha => ?_⟩
    · show v id = true ↔ _
      rw [hv (component?_of_kind hid)]
      exact h.settle_unnamed hid hnot
    · rw [hv (component?_of_kind (h.completes.named_kind ha))]
      exact h.settle_named hstate ha
  · rintro ⟨hfollows, hnamed⟩ id component hcomponent
    obtain ⟨kind, inputs, outputs⟩ := component
    obtain ⟨hid, rfl, rfl⟩ := component?_toCircuit_eq_some.1 hcomponent
    rw [Bool.eq_iff_iff]
    by_cases hnot : ∀ a, ¬ F.Named a id
    · exact (hfollows hid hnot).trans (h.settle_unnamed hid hnot).symm
    · obtain ⟨a, ha⟩ := not_forall_not.1 hnot
      obtain rfl := Option.some.inj ((h.completes.named_kind ha).symm.trans hid)
      exact (hnamed ha).trans (h.settle_named hstate ha).symm

end Equations

namespace Evaluates

variable {s : Stimulus} (he : F.Evaluates s w) (ha : F.Named a id)

include he ha

theorem state_iff (hrel : a.relation = Keyword.holds) : w id ↔ id ∈ s.state := by
  rw [he.named ha, Prescribes, if_pos hrel]

theorem move_iff (hrel : a.relation = Keyword.does) : w id ↔ id ∈ s.moves := by
  rw [he.named ha, Prescribes, if_neg (hrel ▸ (by decide)), if_pos hrel]

theorem start_iff (heq : a = ⟨Keyword.start, []⟩) : w id ↔ s.starting = true := by
  subst heq
  exact he.named ha

theorem given_iff (hholds : a.relation ≠ Keyword.holds) (hdoes : a.relation ≠ Keyword.does)
    (hstart : a ≠ ⟨Keyword.start, []⟩) : w id ↔ ∃ i, F.Feeds i id ∧ w i := by
  rw [he.named ha, Prescribes, if_neg hholds, if_neg hdoes, if_neg hstart]

end Evaluates

/-! ## What the values mean -/

/-- The atoms whose propositions are true. -/
def meaning (F : Assembly) (w : Nat → Prop) : Set (Atom Symbol) := {a | ∃ id, F.Named a id ∧ w id}

theorem Named.mem_meaning_iff (ha : F.Named a id) : a ∈ F.meaning w ↔ w id :=
  ⟨fun ⟨_, ha', hw⟩ => ha'.eq ha ▸ hw, fun hw => ⟨id, ha, hw⟩⟩

theorem meaning_toCircuit {l : Lexicon} {roles : List Symbol} {v : Nat → Bool} :
    (F.toCircuit l roles).meaning v = F.meaning fun i => v i = true :=
  Set.ext fun _ => exists_congr fun _ => and_congr_left fun _ => proposition?_toCircuit

namespace Built

variable (h : Built φs A F)

include h

/-- What the formulas conclude has a name. -/
theorem exists_named (hc : Concludes φs I a) (hinit : a.relation ≠ Keyword.init) : ∃ id, F.Named a id := by
  obtain ⟨φ, hφ, hhead, -⟩ := concludes_iff.1 hc
  obtain ⟨id, i, ha, -⟩ := h.realizes.complete φ hφ hhead hinit
  exact ⟨id, h.completes.named ha⟩

variable (hfollows : F.Follows w)

include hfollows

/-- What was there before the gates is given the same value. -/
theorem drives_iff (hid : A.kinds[id]? = some kind) : F.Drives w id kind ↔ A.Drives w id kind :=
  h.completes.drives (fun _ hkind hnot => hfollows hkind hnot) hid

theorem feeds_iff (ha : F.Named a id) (hdoes : a.relation ≠ Keyword.does) :
    (∃ i, F.Feeds i id ∧ w i) ↔ ∃ i, A.Feeds i id ∧ w i :=
  h.drives_iff hfollows (h.realizes.regular.named_kind (h.named_old ha hdoes))

/-- The values obey the assembly, under what they mean. -/
theorem obeys : Obeys ∅ A w (F.meaning w) := by
  have hlaw : ∀ {id : Nat} {kind : Kind}, A.kinds[id]? = some kind → (∀ a, ¬ A.Named a id) →
      (w id ↔ A.Drives w id kind) := by
    intro id kind hid hnot
    have hlt := (Array.getElem?_eq_some_iff.1 hid).1
    rw [hfollows ((h.completes.kinds hlt).trans hid) fun a ha => hnot a (h.completes.named_old ha hlt),
      h.drives_iff hfollows hid]
  exact ⟨fun ha => (h.completes.named ha).mem_meaning_iff.symm,
    fun hid => hlaw hid (h.realizes.regular.not_named hid rfl), fun hid _ hnot => hlaw hid hnot⟩

/-- A proposition is fed by something true if the formulas conclude it.  What they conclude about the start
speaks through a proposition about the next state, if some formula concludes that at all. -/
theorem feeds_iff_concludes_or_start (ha : F.Named a id) (hholds : a.relation ≠ Keyword.holds)
    (hdoes : a.relation ≠ Keyword.does) (hinit : a.relation ≠ Keyword.init) :
    (∃ i, F.Feeds i id ∧ w i) ↔ Concludes φs (F.meaning w) a ∨ ∃ x, a = ⟨Keyword.next, [x]⟩ ∧
      (∃ φ ∈ φs, φ.head? = some a) ∧ ConcludesAtStart φs (F.meaning w) x := by
  have hobeys := h.obeys hfollows
  have ha' := h.named_old ha hdoes
  rw [h.feeds_iff hfollows ha hdoes]
  constructor
  · rintro ⟨i, hi, hwi⟩
    refine (h.realizes.concludes_of_feeds hobeys ha' hholds hi hwi).imp_right ?_
    rintro ⟨x, rfl, hstart⟩
    obtain ⟨s, hd⟩ := h.realizes.next ha' hi
    obtain ⟨x', hn, φ, hφ, hhead⟩ := h.realizes.driven hd
    rw [h.realizes.regular.named_inj hn ha'] at hhead
    exact ⟨x, rfl, ⟨φ, hφ, hhead⟩, hstart⟩
  · rintro (hc | ⟨x, rfl, ⟨φ, hφ, hhead⟩, hstart⟩)
    · obtain ⟨id', i, ha', hi, hwi⟩ := h.realizes.exists_feeds hobeys hc hinit
      obtain rfl := (h.completes.named ha').eq ha
      exact ⟨i, hi, hwi⟩
    · -- the formula about the start joins what decides the state, which is this proposition
      obtain ⟨n, i, hn, hi, -⟩ := h.realizes.complete φ hφ hhead hinit
      obtain rfl := (h.completes.named hn).eq ha
      obtain ⟨s, hd⟩ := h.realizes.next hn hi
      obtain ⟨x', t, hs, hn', ht, -⟩ := h.realizes.driver hd
      obtain rfl := (List.cons.inj (Atom.mk.inj (h.realizes.regular.named_inj hn hn')).2).1
      obtain ⟨ψ, hψ, hψhead, happlies⟩ := concludesAtStart_iff.1 hstart
      obtain ⟨j, hj, hcomputes⟩ := h.realizes.exists_feeds_start hψ hψhead hs hd
      exact ⟨j, hj, (hcomputes hobeys).2 happlies⟩

/-- After the start, a proposition is fed by something true if the formulas conclude it. -/
theorem feeds_iff_concludes (hstart : ⟨Keyword.start, []⟩ ∉ F.meaning w) (ha : F.Named a id)
    (hholds : a.relation ≠ Keyword.holds) (hdoes : a.relation ≠ Keyword.does)
    (hinit : a.relation ≠ Keyword.init) : (∃ i, F.Feeds i id ∧ w i) ↔ Concludes φs (F.meaning w) a := by
  rw [h.feeds_iff_concludes_or_start hfollows ha hholds hdoes hinit, or_iff_left]
  rintro ⟨x, -, -, hnow, -⟩
  exact hstart hnow

/-- Nothing feeds a proposition about the start. -/
theorem not_feeds_init (ha : F.Named a id) (hinit : a.relation = Keyword.init) :
    ¬ ∃ i, F.Feeds i id ∧ w i := by
  have hdoes : a.relation ≠ Keyword.does := hinit ▸ (by decide)
  rw [h.feeds_iff hfollows ha hdoes]
  rintro ⟨i, hi, -⟩
  exact h.realizes.regular.init (h.named_old ha hdoes) hinit hi

end Built

section AfterStart

variable {s : Stimulus} (he : F.Evaluates s w)

include he

theorem Evaluates.start_not_mem_meaning (hstart : s.starting = false) :
    ⟨Keyword.start, []⟩ ∉ F.meaning w := by
  rintro ⟨id, ha, hw⟩
  rw [he.start_iff ha rfl, hstart] at hw
  cases hw

variable (h : Built φs A F)

include h

/-- Nothing about the start is true. -/
theorem Built.not_mem_meaning_of_init (hinit : a.relation = Keyword.init) : a ∉ F.meaning w := by
  rintro ⟨id, ha, hw⟩
  rw [he.given_iff ha (hinit ▸ (by decide)) (hinit ▸ (by decide)) fun heq =>
    absurd (heq ▸ hinit) (by decide)] at hw
  exact h.not_feeds_init he.follows ha hinit hw

/-- What is neither set nor about the start is true if the formulas conclude it. -/
theorem Built.mem_meaning_iff_concludes (hstart : s.starting = false) (hholds : a.relation ≠ Keyword.holds)
    (hdoes : a.relation ≠ Keyword.does) (hne : a ≠ ⟨Keyword.start, []⟩) (hinit : a.relation ≠ Keyword.init) :
    a ∈ F.meaning w ↔ Concludes φs (F.meaning w) a := by
  have hvalue : ∀ {id}, F.Named a id → (w id ↔ Concludes φs (F.meaning w) a) := fun ha =>
    (he.given_iff ha hholds hdoes hne).trans
      (h.feeds_iff_concludes he.follows (he.start_not_mem_meaning hstart) ha hholds hdoes hinit)
  constructor
  · rintro ⟨id, ha, hw⟩
    exact (hvalue ha).1 hw
  · intro hc
    obtain ⟨id, ha⟩ := h.exists_named hc hinit
    exact ⟨id, ha, (hvalue ha).2 hc⟩

end AfterStart

/-! ## What the transitions let through -/

section Advance

variable {l : Lexicon} {roles : List Symbol} {s : Stimulus} {m : Machine} {v : Valuation}
  (h : Built φs A F) (hm : m.circuit = F.toCircuit l roles)

include h hm

theorem Built.mem_advance_iff : id ∈ (m.advance v).holding ↔
    ∃ args t, F.Named ⟨Keyword.holds, args⟩ id ∧ F.Feeds t id ∧ v.get t = true := by
  rw [Machine.advance, hm, List.mem_filter, h.mem_base_iff]
  constructor
  · rintro ⟨⟨args, t, hs, ht⟩, hvalue⟩
    refine ⟨args, t, hs, ht, ?_⟩
    rw [component?_of_kind (h.completes.named_kind hs)] at hvalue
    simpa [Component.singleValue, Component.singleInput?, h.feeders_named hs ht] using hvalue
  · rintro ⟨args, t, hs, ht, hvalue⟩
    refine ⟨⟨args, t, hs, ht⟩, ?_⟩
    rw [component?_of_kind (h.completes.named_kind hs)]
    simpa [Component.singleValue, Component.singleInput?, h.feeders_named hs ht] using hvalue

/-- What is let through is about the state. -/
theorem Built.exists_named_of_mem_advance (hid : id ∈ (m.advance v).holding) :
    ∃ x, F.Named ⟨Keyword.holds, [x]⟩ id := by
  obtain ⟨args, t, hs, ht, -⟩ := (h.mem_advance_iff hm).1 hid
  have hs' := h.named_old hs (by decide : Keyword.holds ≠ Keyword.does)
  obtain ⟨x, rfl, -⟩ := h.realizes.exists_head hs' ((h.feeds_state_iff hs').1 ht)
  exact ⟨x, hs⟩

/-- The next state is what the formulas conclude about it, and before the first state also what they
conclude about the start. -/
theorem Built.advance_iff (he : F.Evaluates s fun i => v.get i = true) {x : Term Symbol} :
    (∃ id ∈ (m.advance v).holding, F.Named ⟨Keyword.holds, [x]⟩ id) ↔
      Concludes φs (F.meaning fun i => v.get i = true) ⟨Keyword.next, [x]⟩ ∨
        ConcludesAtStart φs (F.meaning fun i => v.get i = true) x := by
  rw [← h.realizes.state_iff (h.obeys he.follows) fun {x n} hn => by
    have hn' := h.completes.named hn
    rw [he.given_iff hn' (by decide : Keyword.next ≠ Keyword.holds) (by decide : Keyword.next ≠ Keyword.does)
      fun heq => absurd (congrArg Atom.relation heq) (by decide : Keyword.next ≠ Keyword.start)]
    exact h.feeds_iff he.follows hn' (by decide : Keyword.next ≠ Keyword.does)]
  constructor
  · rintro ⟨id, hid, hs⟩
    obtain ⟨args, t, -, ht, hvalue⟩ := (h.mem_advance_iff hm).1 hid
    have hs' := h.named_old hs (by decide : Keyword.holds ≠ Keyword.does)
    exact ⟨id, t, hs', (h.feeds_state_iff hs').1 ht, hvalue⟩
  · rintro ⟨id, t, hs, ht, hvalue⟩
    have hs' := h.completes.named hs
    exact ⟨id, (h.mem_advance_iff hm).2 ⟨_, t, hs', (h.feeds_state_iff hs).2 ht, hvalue⟩, hs'⟩

/-- After the start, the next state is what is true of it. -/
theorem Built.advance_iff_next (he : F.Evaluates s fun i => v.get i = true) (hstart : s.starting = false)
    {x : Term Symbol} : (∃ id ∈ (m.advance v).holding, F.Named ⟨Keyword.holds, [x]⟩ id) ↔
      ⟨Keyword.next, [x]⟩ ∈ F.meaning fun i => v.get i = true := by
  rw [h.advance_iff hm he, or_iff_left fun hnow => he.start_not_mem_meaning hstart hnow.1,
    h.mem_meaning_iff_concludes he hstart (by decide : Keyword.next ≠ Keyword.holds)
      (by decide : Keyword.next ≠ Keyword.does)
      (fun heq => absurd (congrArg Atom.relation heq) (by decide : Keyword.next ≠ Keyword.start))
      (by decide : Keyword.next ≠ Keyword.init)]

end Advance

end Assembly

/-- A machine evaluates its circuit in an order. -/
theorem Machine.isOrder {c : Circuit} {m : Machine} (hc : c.Wired) (hm : Machine.ofCircuit c = .ok m) :
    m.circuit = c ∧ c.IsOrder m.order := by
  unfold Machine.ofCircuit at hm
  cases horder : c.evaluationOrder with
  | error e => simp [horder] at hm
  | ok order =>
    obtain rfl : ⟨c, order⟩ = m := by simpa [horder] using hm
    exact ⟨rfl, Circuit.isOrder_of_evaluationOrder hc.leadsToLive horder⟩

/-- The values of a machine satisfy the equations of its circuit. -/
theorem Machine.solves_values {c : Circuit} {m : Machine} (hc : c.Wired) (hm : Machine.ofCircuit c = .ok m)
    (s : Stimulus) : c.Solves (c.settle s) (m.values s).get := by
  obtain ⟨rfl, horder⟩ := Machine.isOrder hc hm
  exact horder.solves_evaluate hc s

/-- A circuit that is built comes from an assembly of what the formulas conclude. -/
theorem Circuit.exists_built {l : Lexicon} {roles : List Symbol} {φs : List (Formula Symbol)} {c : Circuit}
    (h : Circuit.build l roles φs = .ok c) : ∃ A F, Assembly.Built φs A F ∧ c = F.toCircuit l roles := by
  obtain ⟨F, hF, rfl⟩ := Circuit.build_ok h
  obtain ⟨A, hbuilt⟩ := Assembly.exists_built hF
  exact ⟨A, F, hbuilt, rfl⟩

/-! ## The values are what the rules say -/

/-- For whatever state and moves, the values of the named propositions of a circuit are what the formulas
say from which it was built, and the next state is what they say about it. -/
theorem Machine.values_iff_concludes {l : Lexicon} {roles : List Symbol} {φs : List (Formula Symbol)}
    {c : Circuit} {m : Machine} (hbuild : Circuit.build l roles φs = .ok c)
    (hm : Machine.ofCircuit c = .ok m) (state moves : List Nat) (hstate : state ⊆ c.base) :
    let v := m.values ⟨state, moves, false⟩
    (∀ a id, c.proposition? a = some id →
      (a.relation = Keyword.holds → (v.get id = true ↔ id ∈ state)) ∧
      (a.relation = Keyword.does → (v.get id = true ↔ id ∈ moves)) ∧
      (a = ⟨Keyword.start, []⟩ → v.get id = false) ∧
      (a.relation = Keyword.init → v.get id = false) ∧
      (a.relation ≠ Keyword.holds → a.relation ≠ Keyword.does → a ≠ ⟨Keyword.start, []⟩ →
        a.relation ≠ Keyword.init → (v.get id = true ↔ Concludes φs (c.meaning v.get) a))) ∧
    (∀ x, (∃ id ∈ (m.advance v).holding, c.proposition? ⟨Keyword.holds, [x]⟩ = some id) ↔
      ∃ id, c.proposition? ⟨Keyword.next, [x]⟩ = some id ∧ v.get id = true) ∧
    ∀ id ∈ (m.advance v).holding, ∃ x, c.proposition? ⟨Keyword.holds, [x]⟩ = some id := by
  intro v
  obtain ⟨A, F, h, rfl⟩ := Circuit.exists_built hbuild
  have hcircuit := (Machine.isOrder h.wired hm).1
  have he := (h.solves_iff hstate).1 (Machine.solves_values h.wired hm ⟨state, moves, false⟩)
  simp only [Assembly.proposition?_toCircuit, Assembly.meaning_toCircuit, ← Bool.not_eq_true]
  refine ⟨fun a id ha => ⟨he.state_iff ha, he.move_iff ha, fun heq hvalue => ?_, fun hinit hvalue => ?_,
    fun hholds hdoes hne hinit => ?_⟩, fun x => h.advance_iff_next hcircuit he rfl,
    fun id hid => h.exists_named_of_mem_advance hcircuit hid⟩
  · cases (he.start_iff ha heq).1 hvalue
  · exact h.not_mem_meaning_of_init he hinit ⟨id, ha, hvalue⟩
  · rw [← h.mem_meaning_iff_concludes he rfl hholds hdoes hne hinit]
    exact (ha.mem_meaning_iff (w := fun i => v.get i = true)).symm

/-- A light with the switch 15, which player 14 may press: 16 holds while the light is on, and the game is
over when it is off. -/
def Machine.switch : List (Formula Symbol) :=
  let player := .const ⟨14⟩
  let press := .const ⟨15⟩
  let lit := .const ⟨16⟩
  let pressed : Formula Symbol := .atom ⟨Keyword.does, [player, press]⟩
  let on : Formula Symbol := .atom ⟨Keyword.holds, [lit]⟩
  [.atom ⟨Keyword.role, [player]⟩, .atom ⟨Keyword.init, [lit]⟩, .atom ⟨Keyword.legal, [player, press]⟩,
    .rule ⟨Keyword.next, [lit]⟩ [on, .neg pressed], .rule ⟨Keyword.next, [lit]⟩ [.neg on, pressed],
    .rule ⟨Keyword.terminal, []⟩ [.neg on, .atom ⟨Keyword.distinct, [lit, press]⟩]]

theorem Machine.values_iff_concludes_switch :
    ∃ c m, Circuit.build Lexicon.initial [⟨14⟩] Machine.switch = .ok c ∧ Machine.ofCircuit c = .ok m ∧
      [6] ⊆ c.base ∧
      Concludes Machine.switch (c.meaning (m.values ⟨[6], [], false⟩).get) ⟨Keyword.next, [.const ⟨16⟩]⟩ ∧
      ∃ id ∈ (m.advance (m.values ⟨[6], [], false⟩)).holding,
        c.proposition? ⟨Keyword.holds, [.const ⟨16⟩]⟩ = some id := by
  have hrun : (match Circuit.build Lexicon.initial [⟨14⟩] Machine.switch with
      | .ok c =>
        match Machine.ofCircuit c with
        | .ok m => decide ([6] ⊆ c.base ∧ c.proposition? ⟨Keyword.next, [.const ⟨16⟩]⟩ = some 10 ∧
            (m.values ⟨[6], [], false⟩).get 10 = true)
        | .error _ => false
      | .error _ => false) = true := by decide +kernel
  split at hrun
  · rename_i c hc
    split at hrun
    · rename_i m hm
      obtain ⟨hbase, hname, hvalue⟩ := of_decide_eq_true hrun
      obtain ⟨hvalues, hadvance, -⟩ := Machine.values_iff_concludes hc hm [6] [] hbase
      refine ⟨c, m, hc, hm, hbase, ?_, (hadvance _).2 ⟨10, hname, hvalue⟩⟩
      exact ((hvalues _ _ hname).2.2.2.2 (by decide) (by decide) (by decide) (by decide)).1 hvalue
    · cases hrun
  · cases hrun

end GameCircuit
