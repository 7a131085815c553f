import GameCircuit.Proofs.PassChains

/-!
# Normalization comes to an end

Passes over a description reach one that changes nothing, or fail at a formula that no description may hold, if no
variable of a formula is named after another one (`exists_passes_of_apart`).  More passes than this takes change nothing
about the result.  The condition cannot be dropped: where the names of new variables are taken, passes may turn two
descriptions into one another for ever (`normalize_crossing_diverges`).
-/

namespace GameCircuit

variable {φs φs' ψs : List (Formula Symbol)} {φ : Formula Symbol} {l l' m : Lexicon} {depth? : Option Nat}
  {limit limit' n : Nat} {e : CompileError} {r : Except CompileError (List (Formula Symbol))}

/-! ## Errors of a pass -/

theorem solveEqualities_ne_diverged {σ : Symbol → Term Symbol} {body : List (Formula Symbol)} :
    solveEqualities σ body ≠ .error (.normalizationDiverged limit) := by
  induction body generalizing σ with
  | nil => simp [solveEqualities]
  | cons φ body ih =>
    rw [solveEqualities]
    split
    · exact ih
    · split
      · exact ih
      · exact ih
      · simp
      · simp

theorem Formula.simplify_ne_diverged {dropBase : Bool} :
    φ.simplify dropBase ≠ .error (.normalizationDiverged limit) := by
  cases hclean : φ.unconditional.clean with
  | error e =>
    intro h
    have hclash : φ.unconditional.clean = .error (.normalizationDiverged limit) := by
      simpa [simplify, hclean, bind, Except.bind] using h
    rw [clean] at hclash
    split at hclash
    · simp at hclash
    · split_ifs at hclash
      simp at hclash
  | ok χ =>
    cases χ with
    | rule head body =>
      rw [simplify_of_clean_rule hclean, Clause.solve]
      split
      · rename_i e he
        intro h
        have hsolve : e = .normalizationDiverged limit := by simpa [Functor.map, Except.map] using h
        rw [hsolve] at he
        exact solveEqualities_ne_diverged he
      · simp [Functor.map, Except.map]
      · simp [Functor.map, Except.map]
    | atom a => simp [simplify_of_clean_atom hclean]
    | neg χ => simp [simplify, hclean, bind, Except.bind, pure, Except.pure]
    | disj χs => simp [simplify, hclean, bind, Except.bind, pure, Except.pure]

theorem normalizePass_ne_diverged : normalizePass depth? φs l ≠ .error (.normalizationDiverged limit) := by
  intro h
  have hsimplify : φs.mapM (Formula.simplify (hasForeignBase φs)) = .error (.normalizationDiverged limit) := by
    rw [normalizePass, simplifyAll] at h
    cases hmap : φs.mapM (Formula.simplify (hasForeignBase φs)) with
    | error e => simpa [hmap, bind, Except.bind] using h
    | ok results => simp [hmap, bind, Except.bind, pure, Except.pure] at h
  obtain ⟨φ, -, hφ⟩ := exists_error_of_mapM hsimplify
  exact Formula.simplify_ne_diverged hφ

/-! ## More passes -/

/-- A result that took no more passes than there were is the result for any larger number of passes. -/
theorem normalizeLoop_of_le {k : Nat} (hnk : n ≤ k) (h : normalizeLoop limit depth? n φs l = (r, l'))
    (hr : r ≠ .error (.normalizationDiverged limit)) : normalizeLoop limit' depth? k φs l = (r, l') := by
  induction n generalizing φs l k with
  | zero => exact absurd (Prod.mk.inj h).1.symm hr
  | succ n ih =>
    obtain ⟨k, rfl⟩ := Nat.exists_eq_add_of_le' (Nat.le_trans (Nat.le_add_left 1 n) hnk)
    rw [normalizeLoop] at h ⊢
    cases hpass : normalizePass depth? φs l with
    | error e =>
      simp only [hpass] at h ⊢
      exact h
    | ok p =>
      simp only [hpass] at h ⊢
      split_ifs at h ⊢ with hfixed
      · exact h
      · exact ih (Nat.le_of_succ_le_succ hnk) h

theorem ne_diverged_of_normalizeLoop (h : normalizeLoop limit depth? n φs l = (r, l'))
    (hr : r ≠ .error (.normalizationDiverged limit)) : r ≠ .error (.normalizationDiverged limit') := by
  induction n generalizing φs l with
  | zero => exact absurd (Prod.mk.inj h).1.symm hr
  | succ n ih =>
    rw [normalizeLoop] at h
    cases hpass : normalizePass depth? φs l with
    | error e =>
      simp only [hpass] at h
      rw [← (Prod.mk.inj h).1]
      intro hdiverged
      rw [Except.error.inj hdiverged] at hpass
      exact normalizePass_ne_diverged hpass
    | ok p =>
      simp only [hpass] at h
      split_ifs at h with hfixed
      · rw [← (Prod.mk.inj h).1]
        simp
      · exact ih h

/-- A description that no number of passes is enough for is changed by a pass into another such description. -/
theorem exists_pass_of_diverges
    (h : ∀ n, (normalizeLoop limit depth? n φs l).1 = .error (.normalizationDiverged limit)) :
    ∃ q, normalizePass depth? φs l = .ok q ∧ q.1 ≠ φs ∧
      ∀ n, (normalizeLoop limit depth? n q.1 q.2).1 = .error (.normalizationDiverged limit) := by
  have hsucc := fun n => h (n + 1)
  simp only [normalizeLoop] at hsucc
  cases hpass : normalizePass depth? φs l with
  | error e =>
    simp only [hpass] at hsucc
    rw [Except.error.inj (hsucc 0)] at hpass
    exact absurd hpass normalizePass_ne_diverged
  | ok q =>
    simp only [hpass] at hsucc
    have hne : q.1 ≠ φs := by
      intro heq
      have hok := hsucc 0
      rw [if_pos heq] at hok
      cases hok
    refine ⟨q, rfl, hne, fun n => ?_⟩
    have hn := hsucc n
    rwa [if_neg hne] at hn

/-- Some number of passes is enough, if variables are apart where they are specialized. -/
theorem exists_normalizeLoop (limit : Nat) (hl : l.Covers φs)
    (hap : depth?.isSome = true → ∀ φ ∈ φs, l.Apart φ.vars) :
    ∃ n, (normalizeLoop limit depth? n φs l).1 ≠ .error (.normalizationDiverged limit) := by
  by_contra hnone
  push Not at hnone
  let Diverges : Type := {q : List (Formula Symbol) × Lexicon //
    ∀ n, (normalizeLoop limit depth? n q.1 q.2).1 = .error (.normalizationDiverged limit)}
  have hnext : ∀ q : Diverges, ∃ q' : Diverges,
      normalizePass depth? q.1.1 q.1.2 = .ok q'.1 ∧ q'.1.1 ≠ q.1.1 := by
    intro q
    obtain ⟨q', hpass, hne, hdiverges⟩ := exists_pass_of_diverges q.2
    exact ⟨⟨q', hdiverges⟩, hpass, hne⟩
  choose next hpass hne using hnext
  let chain : Nat → Diverges := fun k => next^[k] ⟨(φs, l), hnone⟩
  have hchain : ∀ k, chain (k + 1) = next (chain k) := fun k => Function.iterate_succ_apply' next k _
  obtain ⟨k, hk⟩ := exists_fixed_of_chain (p := fun k => (chain k).1) hl
    (fun k => by rw [hchain]; exact hpass (chain k)) hap
  rw [hchain] at hk
  exact hne (chain k) hk

/-- Normalization comes to an end for every description in which no variable of a formula is named after another one of
it, and for every description if variables are not specialized: from some number of passes on, it gives one and the same
result, and this is not that the description still changed. -/
theorem exists_passes_of_apart {settings : Settings} (hl : l.Covers φs)
    (hap : settings.specialize = true → ∀ φ ∈ φs, l.Apart φ.vars) :
    ∃ n r l', (∀ limit, r ≠ .error (.normalizationDiverged limit)) ∧
      ∀ m ≥ n, normalize { settings with passes := m } φs l = (r, l') := by
  let depth? := if settings.specialize then some (compoundDepth φs) else none
  have hdepth : depth?.isSome = true → settings.specialize = true := by
    intro hsome
    by_contra hoff
    simp [depth?, hoff] at hsome
  obtain ⟨n, hn⟩ : ∃ n, (normalizeLoop 0 depth? n φs l).1 ≠ .error (.normalizationDiverged 0) :=
    exists_normalizeLoop 0 hl fun hsome => hap (hdepth hsome)
  refine ⟨n, (normalizeLoop 0 depth? n φs l).1, (normalizeLoop 0 depth? n φs l).2, fun limit => ?_, fun m hm => ?_⟩
  · exact ne_diverged_of_normalizeLoop rfl hn
  · exact normalizeLoop_of_le hm rfl hn

/-- Names: a relation, a constant, a function of two arguments, three variables, and two functions of one argument. -/
def plainNames : Lexicon := .ofNames ["q", "c", "f", "y", "z", "x", "g", "h"]

/-- What holds of something holds of every pair. -/
def crossing : List (Formula Symbol) :=
  let q (t : Term Symbol) : Atom Symbol := ⟨⟨14⟩, [t]⟩
  let c : Term Symbol := .const ⟨15⟩
  let f (s t : Term Symbol) : Term Symbol := .app ⟨16⟩ [s, t]
  let y : Term Symbol := .var ⟨17⟩
  let z : Term Symbol := .var ⟨18⟩
  let x : Term Symbol := .var ⟨19⟩
  let g (t : Term Symbol) : Term Symbol := .app ⟨20⟩ [t]
  let h (t : Term Symbol) : Term Symbol := .app ⟨21⟩ [t]
  [.atom (q c), .rule (q (f y z)) [.atom (q x)], .atom (q (f (g c) (h c))), .atom (q (f (h c) (g c)))]

theorem exists_passes_of_apart_crossing : plainNames.Covers crossing ∧ (∀ φ ∈ crossing, plainNames.Apart φ.vars) ∧
    ∃ n r l', (∀ limit, r ≠ .error (.normalizationDiverged limit)) ∧
      ∀ m ≥ n, normalize { Settings.standard with passes := m } crossing plainNames = (r, l') :=
  ⟨by decide +kernel, by decide +kernel, exists_passes_of_apart (by decide +kernel) fun _ => by decide +kernel⟩

/-! ## Names that are taken -/

/-- A pass gives the same in every lexicon that has the names that it adds, and adds nothing there. -/
theorem normalizePass_of_grows (hl : l.Covers φs) (h : normalizePass depth? φs l = .ok (ψs, l'))
    (hm : l'.Grows m) : normalizePass depth? φs m = .ok (ψs, m) := by
  obtain ⟨χs, hsimplify, hspecialize⟩ := normalizePass_eq_ok.1 h
  refine normalizePass_eq_ok.2 ⟨χs, hsimplify, ?_⟩
  cases depth? with
  | none =>
    obtain ⟨rfl, -⟩ := Prod.mk.inj hspecialize
    rfl
  | some depth =>
    have hsettles := Lexicon.settles_internAll (settles_specialize_steps (covers_simplifyAll hl hsimplify) depth)
    rw [specializeTo, specialize_eq] at hspecialize
    obtain ⟨hψs, hl'⟩ := Prod.mk.inj hspecialize
    rw [← hl'] at hm
    rw [specializeTo, specialize_eq, hsettles.again (Lexicon.Grows.refl l) hm, hψs]

/-- A pass that changes a description does not bring it nearer to an end than the description that it leaves. -/
theorem diverges_of_pass (hpass : normalizePass depth? φs l = .ok (ψs, m)) (hne : ψs ≠ φs)
    (h : ∀ n, (normalizeLoop limit depth? n ψs m).1 = .error (.normalizationDiverged limit)) (n : Nat) :
    (normalizeLoop limit depth? n φs l).1 = .error (.normalizationDiverged limit) := by
  cases n with
  | zero => rfl
  | succ n =>
    rw [normalizeLoop]
    simp only [hpass, if_neg hne]
    exact h n

/-- Two descriptions that passes turn into one another go on for ever. -/
theorem diverges_of_swap (hne : φs ≠ ψs) (hφs : normalizePass depth? φs l = .ok (ψs, l))
    (hψs : normalizePass depth? ψs l = .ok (φs, l)) (n : Nat) :
    (normalizeLoop limit depth? n φs l).1 = .error (.normalizationDiverged limit) := by
  induction n generalizing φs ψs with
  | zero => rfl
  | succ n ih =>
    rw [normalizeLoop]
    simp only [hφs, if_neg hne.symm]
    exact ih hne.symm hψs hφs

/-- The names of `plainNames`, but two variables are named as if they were made for the arguments of the first function
in place of the third, with their numbers swapped. -/
def crossingNames : Lexicon := .ofNames ["q", "c", "f", "x.f.1", "x.f.0", "x", "g", "h"]

/-- `crossing` after some passes, with these names. -/
def crossed : Nat → Option (List (Formula Symbol) × Lexicon)
  | 0 => some (crossing, crossingNames)
  | n + 1 => (crossed n).bind fun p => (normalizePass (some (compoundDepth crossing)) p.1 p.2).toOption

set_option maxRecDepth 4000 in
theorem crossed_returns : (crossed 4).isSome = true ∧ (crossed 4).map Prod.fst = (crossed 2).map Prod.fst ∧
    ∀ n < 4, (crossed (n + 1)).map Prod.fst ≠ (crossed n).map Prod.fst := by
  decide +kernel

theorem exists_pass_of_crossed {q : List (Formula Symbol) × Lexicon} (h : crossed (n + 1) = some q) :
    ∃ p, crossed n = some p ∧ normalizePass (some (compoundDepth crossing)) p.1 p.2 = .ok q := by
  obtain ⟨p, hp, hpass⟩ := Option.bind_eq_some_iff.1 h
  exact ⟨p, hp, eq_ok_of_toOption hpass⟩

/-- The new variables for the arguments of a pair are then those that the rule has, crosswise, so that the two kinds of
pairs swap their places in every pass. -/
theorem normalize_crossing_diverges : crossingNames.Covers crossing ∧ ∀ m,
    (normalize { Settings.standard with passes := m } crossing crossingNames).1 =
      .error (.normalizationDiverged m) := by
  have hcovers : crossingNames.Covers crossing := by decide +kernel
  obtain ⟨hsome, hreturns, hchanges⟩ := crossed_returns
  obtain ⟨p₄, hp₄⟩ := Option.isSome_iff_exists.1 hsome
  obtain ⟨p₃, hp₃, hpass₄⟩ := exists_pass_of_crossed hp₄
  obtain ⟨p₂, hp₂, hpass₃⟩ := exists_pass_of_crossed hp₃
  obtain ⟨p₁, hp₁, hpass₂⟩ := exists_pass_of_crossed hp₂
  obtain ⟨p₀, hp₀, hpass₁⟩ := exists_pass_of_crossed hp₁
  obtain rfl : (crossing, crossingNames) = p₀ := Option.some.inj hp₀
  have hne : ∀ {n p q}, n < 4 → crossed n = some p → crossed (n + 1) = some q → q.1 ≠ p.1 := by
    intro n p q hn hp hq heq
    exact hchanges n hn (by rw [hp, hq, Option.map_some, Option.map_some, heq])
  have hback : p₄.1 = p₂.1 := by
    rw [hp₄, hp₂] at hreturns
    exact Option.some.inj hreturns
  have hcovers₂ := covers_of_normalizePass (covers_of_normalizePass hcovers hpass₁) hpass₂
  have hcovers₃ := covers_of_normalizePass hcovers₂ hpass₃
  -- with all names that are ever made, two passes turn the one description into the other and back
  have hthere := normalizePass_of_grows hcovers₂ hpass₃ (grows_of_normalizePass hcovers₃ hpass₄)
  have hhere := normalizePass_of_grows hcovers₃ hpass₄ (Lexicon.Grows.refl _)
  rw [hback] at hhere
  refine ⟨hcovers, fun m => ?_⟩
  show (normalizeLoop m (some (compoundDepth crossing)) m crossing crossingNames).1 = _
  refine diverges_of_pass hpass₁ (hne (by decide) hp₀ hp₁) (fun n => ?_) m
  refine diverges_of_pass hpass₂ (hne (by decide) hp₁ hp₂) (fun n => ?_) n
  refine diverges_of_pass hpass₃ (hne (by decide) hp₂ hp₃) (fun n => ?_) n
  refine diverges_of_pass hpass₄ (hne (by decide) hp₃ hp₄) (fun n => ?_) n
  rw [hback]
  exact diverges_of_swap (hne (by decide) hp₂ hp₃).symm hthere hhere n

end GameCircuit
