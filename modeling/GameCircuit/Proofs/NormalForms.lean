import GameCircuit.Canonical.Normalize
import GameCircuit.Proofs.Meaning
import GameCircuit.Proofs.Sequences

/-!
# Normal forms

Normalization ends with a pass that changes nothing, so that what such a pass checks of every formula is
true of the normal form.
-/

namespace GameCircuit

namespace Formula

variable {φ : Formula Symbol}

theorem isSupported_of_clean {ψ : Formula Symbol} (h : φ.clean = .ok ψ) : φ.isSupported = true := by
  unfold clean at h
  split at h
  · cases h
  · split_ifs at h with hsupported
    exact hsupported

@[simp] theorem isSupported_unconditional : φ.unconditional.isSupported = φ.isSupported := by
  match φ with
  | .atom _ | .neg _ | .disj _ | .rule _ [] | .rule _ (_ :: _) => rfl

@[simp] theorem isSupported_scheduled : φ.scheduled.isSupported = φ.isSupported := by
  cases φ with
  | rule head body =>
    rw [Bool.eq_iff_iff]
    simp only [scheduled, isSupported, List.all_eq_true, mem_schedule]
  | atom a => rfl
  | neg φ => rfl
  | disj φs => rfl

/-- A formula that a pass accepts is a fact or a rule over literals. -/
theorem isSupported_of_simplify {dropBase : Bool} {φ? : Option (Formula Symbol)}
    (h : φ.simplify dropBase = .ok φ?) : φ.isSupported = true := by
  unfold simplify at h
  cases hclean : φ.unconditional.clean with
  | error e => simp [hclean, bind, Except.bind] at h
  | ok ψ =>
    rw [← isSupported_unconditional]
    exact isSupported_of_clean hclean

end Formula

variable {φs φs' N : List (Formula Symbol)} {l l' : Lexicon} {depth? : Option Nat}

theorem isSupported_of_normalizePass (h : normalizePass depth? φs l = .ok (φs', l')) :
    ∀ φ ∈ φs, φ.isSupported = true := by
  intro φ hφ
  have hsimplify : ∃ simplified, φs.mapM (Formula.simplify (hasForeignBase φs)) = .ok simplified := by
    unfold normalizePass simplifyAll at h
    cases hmap : φs.mapM (Formula.simplify (hasForeignBase φs)) with
    | error e => simp [hmap, bind, Except.bind] at h
    | ok simplified => exact ⟨simplified, rfl⟩
  obtain ⟨simplified, hmap⟩ := hsimplify
  obtain ⟨φ?, hφ?⟩ := exists_ok_of_mapM hmap hφ
  exact Formula.isSupported_of_simplify hφ?

/-- A normalization that succeeds ends with a pass that changes nothing, and what every pass keeps is true
there. -/
theorem exists_fixed_of_normalizeLoop {limit passes : Nat} {P : List (Formula Symbol) → Lexicon → Prop}
    (hstep : ∀ {φs l φs' l'}, P φs l → normalizePass depth? φs l = .ok (φs', l') → P φs' l') (hP : P φs l)
    (h : normalizeLoop limit depth? passes φs l = (.ok N, l')) :
    ∃ F k, P F k ∧ normalizePass depth? F k = .ok (F, l') ∧ N = F.map Formula.scheduled := by
  induction passes generalizing φs l with
  | zero => cases h
  | succ passes ih =>
    rw [normalizeLoop] at h
    cases hpass : normalizePass depth? φs l with
    | error e =>
      rw [hpass] at h
      cases h
    | ok r =>
      obtain ⟨φs', l1⟩ := r
      simp only [hpass] at h
      split_ifs at h with hstable
      · -- the pass returned what it was given
        subst hstable
        obtain ⟨hN, rfl⟩ := Prod.mk.inj h
        exact ⟨φs', l, hP, hpass, (Except.ok.inj hN).symm⟩
      · exact ih (hstep hP hpass) h

/-- A normal form holds nothing but facts and rules over literals. -/
theorem isSupported_of_normalize {settings : Settings} (h : normalize settings φs l = (.ok N, l')) :
    ∀ φ ∈ N, φ.isSupported = true := by
  obtain ⟨F, k, -, hpass, rfl⟩ :=
    exists_fixed_of_normalizeLoop (P := fun _ _ => True) (fun _ _ => trivial) trivial h
  intro φ hφ
  obtain ⟨ψ, hψ, rfl⟩ := List.mem_map.1 hφ
  rw [Formula.isSupported_scheduled]
  exact isSupported_of_normalizePass hpass ψ hψ

end GameCircuit
