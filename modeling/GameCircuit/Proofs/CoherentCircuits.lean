import GameCircuit.Proofs.Removals

/-!
# Coherent circuits

What play relies on in a sound circuit (`Circuit.Coherent`): what passes a value on has one input at most, only parts of
the state are fed by transitions, and each proposition has its value from one place.  Circuits that are built are
coherent, and they stay so when components are removed (`Circuit.coherent_removeEach`).
-/

namespace GameCircuit

namespace Circuit

/-- What play relies on. -/
structure Coherent (c : Circuit) : Prop extends Sound c where
  /-- Propositions, negations and transitions have no two inputs. -/
  single : ∀ {id component}, c.component? id = some component →
    component.isProposition = true ∨ component.kind = .not ∨ component.kind = .transition → component.inputs.length ≤ 1
  /-- What a transition feeds is part of the state. -/
  fed : ∀ {id component}, c.component? id = some component → ∀ t ∈ component.inputs,
    ∀ {source}, c.component? t = some source → source.isTransition = true → component.isProposition = true ∧ id ∈ c.base
  /-- Parts of the state are no moves, and not the start. -/
  state : ∀ id ∈ c.base, id ∉ c.inputs ∧ c.start ≠ some id
  /-- Moves are not the start. -/
  moves : ∀ id ∈ c.inputs, c.start ≠ some id
  /-- A legal move is one of one player. -/
  player : ∀ {role role' id}, (role, id) ∈ c.legal → (role', id) ∈ c.legal → role = role'

variable {c : Circuit} {gone : List Nat} {id : Nat}

namespace Coherent

theorem wired (h : c.Coherent) : c.Wired where
  input hid i hi := (h.linked _ _).2 ⟨_, hid, hi⟩
  output hi j hj := by
    obtain ⟨target, htarget, -⟩ := (h.linked _ _).1 ⟨_, hi, hj⟩
    rw [htarget]
    rfl
  transition := h.fed

/-- A coherent circuit stays coherent when components are removed. -/
theorem restrict (h : c.Coherent) (gone : List Nat) : (c.restrict gone).Coherent where
  toSound := h.toSound.restrict gone
  single hid hkind := by
    obtain ⟨-, component, hcomponent, rfl⟩ := component?_restrict_eq_some.1 hid
    exact Nat.le_trans (List.length_filter_le ..) (h.single hcomponent hkind)
  fed {id component'} hid t ht source' hsource' htransition := by
    obtain ⟨hgone, component, hcomponent, rfl⟩ := component?_restrict_eq_some.1 hid
    obtain ⟨htgone, source, hsource, rfl⟩ := component?_restrict_eq_some.1 hsource'
    have ht' : t ∈ component.inputs := (List.mem_filter.1 ht).1
    obtain ⟨hprop, hbase⟩ := h.fed hcomponent t ht' hsource htransition
    refine ⟨hprop, mem_base_restrict.2 ⟨hbase, hgone, fun t' ht'' => ?_⟩⟩
    -- it has no other input
    have hmem : t' ∈ component.inputs := by
      rw [transitionsInto, hcomponent] at ht''
      exact (List.mem_filter.1 ht'').1
    obtain ⟨i, hinputs⟩ := List.length_eq_one_iff.1
      (Nat.le_antisymm (h.single hcomponent (.inl hprop)) (List.length_pos_of_mem ht'))
    rw [hinputs, List.mem_singleton] at hmem ht'
    rwa [hmem, ← ht']
  state id hid := by
    obtain ⟨hinput, hstart⟩ := h.state id (mem_base_restrict.1 hid).1
    exact ⟨fun hmem => hinput (List.mem_filter.1 hmem).1, hstart⟩
  moves id hid := h.moves id (List.mem_filter.1 hid).1
  player hid hid' := h.player (List.mem_filter.1 hid).1 (List.mem_filter.1 hid').1

end Coherent

end Circuit

/-- What is built is coherent. -/
theorem Assembly.Explained.coherent {origins : List (Formula Symbol × Nat)} {A F : Assembly} {l : Lexicon}
    {roles : List Symbol} (h : Explained origins A F) : (F.toCircuit l roles).Coherent where
  toSound := h.sound
  single {id component} hid hkind := by
    rcases hkind with hprop | hnot | htransition
    · exact h.wellFormed.proposition hid hprop
    · obtain ⟨i, hinputs⟩ := h.wellFormed.negation hid hnot
      rw [hinputs]
      exact Nat.le_refl 1
    · obtain ⟨i, x, s, hinputs, -⟩ := h.wellFormed.transition hid htransition
      rw [hinputs]
      exact Nat.le_refl 1
  fed := h.wired.transition
  state id hid := by
    obtain ⟨args, t, hs, -⟩ := h.mem_base_iff.1 hid
    refine ⟨h.not_mem_inputs hs (by decide : Keyword.holds ≠ Keyword.does), fun hstart => ?_⟩
    rw [h.start_eq] at hstart
    exact h.ne_startProposition hs (fun heq => absurd (congrArg Atom.relation heq) (by decide : Keyword.holds ≠ _))
      (Option.some.inj hstart).symm
  moves id hid hstart := by
    obtain ⟨args, hdoes⟩ := h.mem_inputs_iff.1 hid
    rw [h.start_eq] at hstart
    exact h.ne_startProposition hdoes (fun heq => absurd (congrArg Atom.relation heq) (by decide : Keyword.does ≠ _))
      (Option.some.inj hstart).symm
  player hid hid' := by
    obtain ⟨a, ha, -, hrole⟩ := h.mem_legal_iff.1 hid
    obtain ⟨a', ha', -, hrole'⟩ := h.mem_legal_iff.1 hid'
    rw [h.named_inj ha ha', hrole'] at hrole
    exact (Option.some.inj hrole).symm

namespace Circuit

section Build

variable {l : Lexicon} {roles : List Symbol} {φs : List (Formula Symbol)} {c : Circuit}
  (h : Circuit.build l roles φs = .ok c)

include h

theorem removeEach_eq_restrict (ids : List Nat) : c.removeEach ids = c.restrict (c.removedBy ids) := by
  have hrun := (sound_of_build h).removeEach_restrict ids []
  rwa [restrict_nil, List.append_nil] at hrun

/-- A circuit that was built is coherent, whatever components were removed. -/
theorem coherent_removeEach (ids : List Nat) : (c.removeEach ids).Coherent := by
  obtain ⟨origins, A, F, hexplained, rfl⟩ := exists_explained_of_build h
  rw [removeEach_eq_restrict h]
  exact hexplained.coherent.restrict _

end Build

end Circuit

end GameCircuit
