import GameCircuit.Sequence
import Mathlib.Data.List.Nodup

/-!
# Running over a list

What `collect`, `mapM`, `runAll` and `foldSteps` do when they succeed, one element at a time.  Elements
that are picked from a list by their places are picked once.
-/

namespace GameCircuit

variable {α β ε σ : Type}

theorem map_ok {f : α → β} {x : Except ε α} {b : β} : f <$> x = .ok b ↔ ∃ a, x = .ok a ∧ b = f a := by
  cases x with
  | error e => simp [Functor.map, Except.map]
  | ok a => simp [Functor.map, Except.map, eq_comm]

theorem eq_ok_of_toOption {x : Except ε α} {a : α} (h : x.toOption = some a) : x = .ok a := by
  cases x with
  | error e => cases h
  | ok b => rw [Option.some.inj h]

theorem eq_pair_of_snd {p : α × β} {b : β} (h : p.2 = b) : p = (p.1, b) := by
  rw [← h]

/-- Looking up a key gives the value that stands with it, if no other does. -/
theorem lookup_iff_mem [BEq α] [LawfulBEq α] {m : List (α × β)} {a : α} {b : β}
    (h : ∀ {a b b'}, (a, b) ∈ m → (a, b') ∈ m → b = b') : m.lookup a = some b ↔ (a, b) ∈ m := by
  have hmem : ∀ {b}, m.lookup a = some b → (a, b) ∈ m := by
    intro b hlookup
    obtain ⟨before, after, hm, -⟩ := List.lookup_eq_some_iff.1 hlookup
    simp [hm]
  refine ⟨hmem, fun hb => ?_⟩
  cases hlookup : m.lookup a with
  | none => simpa using List.lookup_eq_none_iff.1 hlookup _ hb
  | some b' => rw [h hb (hmem hlookup)]

section Collect

variable {f : α → Except ε (List β)} {as : List α} {bs : List β}

theorem collect_cons_ok {a : α} :
    collect f (a :: as) = .ok bs ↔ ∃ cs ds, f a = .ok cs ∧ collect f as = .ok ds ∧ bs = cs ++ ds := by
  rw [collect_cons]
  cases f a with
  | error e => simp
  | ok cs => simp [map_ok]

/-- What is collected is what the function gives for some element. -/
theorem mem_of_collect (h : collect f as = .ok bs) {b : β} :
    b ∈ bs ↔ ∃ a ∈ as, ∃ cs, f a = .ok cs ∧ b ∈ cs := by
  induction as generalizing bs with
  | nil =>
    obtain rfl : bs = [] := by simpa using h.symm
    simp
  | cons a as ih =>
    obtain ⟨cs, ds, hcs, hds, rfl⟩ := collect_cons_ok.1 h
    simp [ih hds, hcs]

/-- Collecting succeeds only if the function does for every element. -/
theorem exists_ok_of_collect (h : collect f as = .ok bs) {a : α} (ha : a ∈ as) :
    ∃ cs, f a = .ok cs := by
  induction as generalizing bs with
  | nil => simp at ha
  | cons a' as ih =>
    obtain ⟨cs, ds, hcs, hds, -⟩ := collect_cons_ok.1 h
    rcases List.mem_cons.1 ha with rfl | ha'
    · exact ⟨cs, hcs⟩
    · exact ih hds ha'

/-- Collecting succeeds if the function does for every element. -/
theorem exists_collect_ok (h : ∀ a ∈ as, ∃ cs, f a = .ok cs) : ∃ bs, collect f as = .ok bs := by
  induction as with
  | nil => exact ⟨[], rfl⟩
  | cons a as ih =>
    obtain ⟨⟨cs, hcs⟩, hrest⟩ := List.forall_mem_cons.1 h
    obtain ⟨ds, hds⟩ := ih hrest
    exact ⟨cs ++ ds, collect_cons_ok.2 ⟨cs, ds, hcs, hds, rfl⟩⟩

/-- Collecting fails as the function does for some element. -/
theorem exists_error_of_collect {e : ε} (h : collect f as = .error e) : ∃ a ∈ as, f a = .error e := by
  induction as with
  | nil => cases h
  | cons a as ih =>
    rw [collect_cons] at h
    cases hfa : f a with
    | error e' =>
      rw [hfa] at h
      exact ⟨a, List.mem_cons_self, hfa.trans h⟩
    | ok bs =>
      rw [hfa] at h
      cases has : collect f as with
      | error e' =>
        rw [has] at h
        obtain ⟨a', ha', hfa'⟩ := ih (has.trans h)
        exact ⟨a', List.mem_cons_of_mem a ha', hfa'⟩
      | ok cs =>
        rw [has] at h
        cases h

theorem collect_congr {g : α → Except ε (List β)} (h : ∀ a ∈ as, f a = g a) : collect f as = collect g as := by
  induction as with
  | nil => rfl
  | cons a as ih =>
    obtain ⟨ha, has⟩ := List.forall_mem_cons.1 h
    rw [collect_cons, collect_cons, ha, ih has]

end Collect

section MapM

variable {f : α → Except ε β} {as : List α} {bs : List β}

theorem mapM_cons_ok {a : α} :
    (a :: as).mapM f = .ok bs ↔ ∃ b cs, f a = .ok b ∧ as.mapM f = .ok cs ∧ bs = b :: cs := by
  rw [List.mapM_cons]
  cases f a with
  | error e => simp [bind, Except.bind]
  | ok b =>
    cases as.mapM f with
    | error e => simp [bind, Except.bind]
    | ok cs => simp [bind, Except.bind, pure, Except.pure, eq_comm]

/-- Mapping succeeds only if the function does for every element. -/
theorem exists_ok_of_mapM (h : as.mapM f = .ok bs) {a : α} (ha : a ∈ as) : ∃ b, f a = .ok b := by
  induction as generalizing bs with
  | nil => simp at ha
  | cons a' as ih =>
    obtain ⟨b, cs, hb, hcs, -⟩ := mapM_cons_ok.1 h
    rcases List.mem_cons.1 ha with rfl | ha'
    · exact ⟨b, hb⟩
    · exact ih hcs ha'

/-- What mapping gives is what the function gives for some element. -/
theorem mem_of_mapM (h : as.mapM f = .ok bs) {b : β} : b ∈ bs ↔ ∃ a ∈ as, f a = .ok b := by
  induction as generalizing bs with
  | nil =>
    obtain rfl : bs = [] := (Except.ok.inj h).symm
    simp
  | cons a as ih =>
    obtain ⟨c, cs, hc, hcs, rfl⟩ := mapM_cons_ok.1 h
    simp [ih hcs, hc, eq_comm]

/-- Mapping fails only if the function does for some element. -/
theorem exists_error_of_mapM {e : ε} (h : as.mapM f = .error e) : ∃ a ∈ as, f a = .error e := by
  induction as with
  | nil => cases h
  | cons a as ih =>
    cases hfirst : f a with
    | error e' =>
      obtain rfl : e' = e := by simpa [List.mapM_cons, hfirst, bind, Except.bind] using h
      exact ⟨a, List.mem_cons_self, hfirst⟩
    | ok b =>
      have hrest : as.mapM f = .error e := by
        cases hrest : as.mapM f with
        | error e' => simpa [List.mapM_cons, hfirst, hrest, bind, Except.bind] using h
        | ok bs => simp [List.mapM_cons, hfirst, hrest, bind, Except.bind, pure, Except.pure] at h
      obtain ⟨a', ha', hfails⟩ := ih hrest
      exact ⟨a', List.mem_cons_of_mem a ha', hfails⟩

theorem mapM_eq_ok_map {g : α → β} (h : ∀ a ∈ as, f a = .ok (g a)) : as.mapM f = .ok (as.map g) := by
  induction as with
  | nil => rfl
  | cons a as ih =>
    obtain ⟨ha, has⟩ := List.forall_mem_cons.1 h
    exact mapM_cons_ok.2 ⟨g a, as.map g, ha, ih has, rfl⟩

theorem mapM_eq_some_map {f : α → Option β} {g : α → β} (h : ∀ a ∈ as, f a = some (g a)) :
    as.mapM f = some (as.map g) := by
  induction as with
  | nil => rfl
  | cons a as ih =>
    obtain ⟨ha, has⟩ := List.forall_mem_cons.1 h
    rw [List.mapM_cons, ha, ih has]
    rfl

end MapM

section RunAll

variable {step : σ → α → σ × Option ε}

theorem runAll_cons_ok {s s' : σ} {a : α} {as : List α} :
    runAll step s (a :: as) = (s', none) ↔
      ∃ s1, step s a = (s1, none) ∧ runAll step s1 as = (s', none) := by
  rw [runAll]
  rcases step s a with ⟨s1, _ | e⟩
  · simp
  · simp

/-- What each step keeps, a run keeps, also one that fails. -/
theorem runAll_induction {P : σ → Prop} {as : List α} {s : σ}
    (hstep : ∀ s, ∀ a ∈ as, P s → P (step s a).1) (hs : P s) : P (runAll step s as).1 := by
  induction as generalizing s with
  | nil => exact hs
  | cons a as ih =>
    have h1 : P (step s a).1 := hstep s a (by simp) hs
    rw [runAll]
    rcases hsa : step s a with ⟨s1, _ | e⟩
    · rw [hsa] at h1
      exact ih (fun s b hb => hstep s b (List.mem_cons_of_mem _ hb)) h1
    · rw [hsa] at h1
      exact h1

/-- A run of steps that do not fail does not fail. -/
theorem runAll_ok {P : σ → Prop} {as : List α} {s : σ}
    (hstep : ∀ s, ∀ a ∈ as, P s → P (step s a).1 ∧ (step s a).2 = none) (hs : P s) :
    (runAll step s as).2 = none := by
  induction as generalizing s with
  | nil => rfl
  | cons a as ih =>
    obtain ⟨h1, hok⟩ := hstep s a (by simp) hs
    rw [runAll]
    rcases hsa : step s a with ⟨s1, _ | e⟩
    · rw [hsa] at h1
      exact ih (fun s b hb => hstep s b (List.mem_cons_of_mem _ hb)) h1
    · rw [hsa] at hok
      cases hok

end RunAll

section FoldSteps

variable {step : σ → α → Except ε σ}

theorem foldSteps_cons_ok {s s' : σ} {a : α} {as : List α} :
    foldSteps step s (a :: as) = .ok s' ↔ ∃ s1, step s a = .ok s1 ∧ foldSteps step s1 as = .ok s' := by
  rw [foldSteps]
  cases step s a with
  | error e => simp
  | ok s1 => simp

end FoldSteps

/-- What is picked from a list and knows its place there is picked in the order of the places. -/
theorem pairwise_filterMap_zipIdx {f : α × Nat → Option β} {g : β → Nat}
    (hf : ∀ {a i b}, f (a, i) = some b → g b = i) (as : List α) :
    ((as.zipIdx.filterMap f).map g).Pairwise (· < ·) := by
  have hsub : ∀ l : List (α × Nat), ((l.filterMap f).map g).Sublist (l.map Prod.snd) := by
    intro l
    induction l with
    | nil => exact .slnil
    | cons p l ih =>
      obtain ⟨a, i⟩ := p
      cases hp : f (a, i) with
      | none => simpa [hp] using ih.cons i
      | some b => simpa [hp, hf hp] using ih
  refine List.Pairwise.sublist (hsub as.zipIdx) ?_
  rw [List.zipIdx_map_snd]
  exact List.pairwise_lt_range'

/-- What is picked from a list and knows its place there is picked once. -/
theorem nodup_filterMap_zipIdx {f : α × Nat → Option β} {g : β → Nat}
    (hf : ∀ {a i b}, f (a, i) = some b → g b = i) (as : List α) : ((as.zipIdx.filterMap f).map g).Nodup :=
  (pairwise_filterMap_zipIdx hf as).imp Nat.ne_of_lt

end GameCircuit
