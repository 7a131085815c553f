import GameCircuit.Proofs.CircuitMeaning

/-!
# The first state

Before the first state nothing holds and no move is made, but all rules are applied, and what the
transitions let through is the first state.  It consists of what the formulas conclude about the start
and, as their rules about the next state are applied too, of what these conclude from nothing.
-/

namespace GameCircuit

namespace Machine

/-- The interpretation before the first state, and the first state: what the formulas conclude in it about
the start or about the next state. -/
theorem initialState_iff_concludes {l : Lexicon} {roles : List Symbol} {φs : List (Formula Symbol)}
    {c : Circuit} {m : Machine} (hbuild : Circuit.build l roles φs = .ok c)
    (hm : Machine.ofCircuit c = .ok m) :
    let v := m.values ⟨[], [], true⟩
    let I := c.meaning v.get
    (∀ a id, c.proposition? a = some id →
      (a.relation = Keyword.holds ∨ a.relation = Keyword.does ∨ a.relation = Keyword.init →
        v.get id = false) ∧
      (a = ⟨Keyword.start, []⟩ → v.get id = true) ∧
      (a.relation ≠ Keyword.holds → a.relation ≠ Keyword.does → a.relation ≠ Keyword.init →
        a ≠ ⟨Keyword.start, []⟩ →
        (v.get id = true ↔ Concludes φs I a ∨ ∃ x, a = ⟨Keyword.next, [x]⟩ ∧
          (∃ φ ∈ φs, φ.head? = some a) ∧ Concludes φs I ⟨Keyword.init, [x]⟩))) ∧
    (∀ x, (∃ id ∈ m.initialState.holding, c.proposition? ⟨Keyword.holds, [x]⟩ = some id) ↔
      Concludes φs I ⟨Keyword.init, [x]⟩ ∨ Concludes φs I ⟨Keyword.next, [x]⟩) ∧
    ∀ id ∈ m.initialState.holding, ∃ x, c.proposition? ⟨Keyword.holds, [x]⟩ = some id := by
  intro v I
  obtain ⟨A, F, h, rfl⟩ := Circuit.exists_built hbuild
  have hcircuit := (Machine.isOrder h.wired hm).1
  have he := (h.solves_iff (List.nil_subset _)).1 (Machine.solves_values h.wired hm ⟨[], [], true⟩)
  have hI : I = F.meaning fun i => v.get i = true := Assembly.meaning_toCircuit
  -- it is before the first state, so that what is concluded about the start counts
  have hstart : ∀ {x}, ConcludesAtStart φs I x ↔ Concludes φs I ⟨Keyword.init, [x]⟩ := by
    intro x
    refine and_iff_right ?_
    rw [hI]
    exact h.start_named.mem_meaning_iff.2 ((he.start_iff h.start_named rfl).2 rfl)
  simp only [Assembly.proposition?_toCircuit, ← Bool.not_eq_true]
  refine ⟨fun a id ha => ⟨fun hset hvalue => ?_, fun heq => (he.start_iff ha heq).2 rfl,
    fun hholds hdoes hinit hne => ?_⟩, fun x => ?_, fun id hid => h.exists_named_of_mem_advance hcircuit hid⟩
  · rcases hset with hholds | hdoes | hinit
    · exact List.not_mem_nil ((he.state_iff ha hholds).1 hvalue)
    · exact List.not_mem_nil ((he.move_iff ha hdoes).1 hvalue)
    · exact h.not_mem_meaning_of_init he hinit ⟨id, ha, hvalue⟩
  · rw [he.given_iff ha hholds hdoes hne, h.feeds_iff_concludes_or_start he.follows ha hholds hdoes hinit,
      ← hI]
    simp only [hstart]
  · rw [or_comm, ← hstart, hI]
    exact h.advance_iff hcircuit he

/-- A lamp, 14, that is lit at the start and stays so, and one, 15, that goes on whenever it is off. -/
def blinker : List (Formula Symbol) :=
  let lit (lamp : Term Symbol) : Formula Symbol := .atom ⟨Keyword.holds, [lamp]⟩
  let steady : Term Symbol := .const ⟨14⟩
  let blinking : Term Symbol := .const ⟨15⟩
  [.atom ⟨Keyword.init, [steady]⟩, .rule ⟨Keyword.next, [steady]⟩ [lit steady],
    .rule ⟨Keyword.next, [blinking]⟩ [.neg (lit blinking)]]

theorem initialState_iff_concludes_blinker :
    ∃ c m, Circuit.build Lexicon.initial [] blinker = .ok c ∧ Machine.ofCircuit c = .ok m ∧
      Concludes blinker (c.meaning (m.values ⟨[], [], true⟩).get) ⟨Keyword.init, [.const ⟨14⟩]⟩ ∧
      ∃ id ∈ m.initialState.holding, c.proposition? ⟨Keyword.holds, [.const ⟨14⟩]⟩ = some id := by
  have hrun : (match Circuit.build Lexicon.initial [] blinker with
      | .ok c => (Machine.ofCircuit c).toBool
      | .error _ => false) = true := by decide +kernel
  split at hrun
  · rename_i c hc
    cases hm : Machine.ofCircuit c with
    | error e =>
      rw [hm] at hrun
      cases hrun
    | ok m =>
      have hinit : Concludes blinker (c.meaning (m.values ⟨[], [], true⟩).get)
          ⟨Keyword.init, [.const ⟨14⟩]⟩ := .inl (by decide)
      exact ⟨c, m, hc, hm, hinit, ((initialState_iff_concludes hc hm).2.1 _).2 (.inl hinit)⟩
  · cases hrun

/-- No formula concludes anything about the start for the second lamp, and yet it is on in the first
state. -/
theorem mem_initialState_of_next_blinker :
    (∀ φ ∈ blinker, φ.head? ≠ some ⟨Keyword.init, [.const ⟨15⟩]⟩) ∧
      ∃ c m, Circuit.build Lexicon.initial [] blinker = .ok c ∧ Machine.ofCircuit c = .ok m ∧
        ∃ id ∈ m.initialState.holding, c.proposition? ⟨Keyword.holds, [.const ⟨15⟩]⟩ = some id := by
  refine ⟨by decide, ?_⟩
  have hrun : (match Circuit.build Lexicon.initial [] blinker with
      | .ok c =>
        match Machine.ofCircuit c with
        | .ok m => m.initialState.holding.any fun id =>
            decide (c.proposition? ⟨Keyword.holds, [.const ⟨15⟩]⟩ = some id)
        | .error _ => false
      | .error _ => false) = true := by decide +kernel
  split at hrun
  · rename_i c hc
    split at hrun
    · rename_i m hm
      obtain ⟨id, hid, hname⟩ := List.any_eq_true.1 hrun
      exact ⟨c, m, hc, hm, id, hid, of_decide_eq_true hname⟩
    · cases hrun
  · cases hrun

end Machine

end GameCircuit
