import GameCircuit.Canonical.Specialization
import GameCircuit.Proofs.Instances
import GameCircuit.Proofs.OrderedMaps
import Mathlib.Data.List.Infix

/-!
# Names that are made on the way

A lexicon only grows, and a step that interns names can be run again in any later lexicon: it gives the
same result and adds nothing (`Lexicon.Settles`).  So the terms that replace variables can be read off the
lexicon that is left in the end (`Lexicon.replacement`).

The name of an argument begins with the name of the variable that it is made for and a dot.  If no variable
of a rule is named so after another one (`Lexicon.Apart`), the new variables of a variant are new indeed,
and its variables are apart again.
-/

namespace GameCircuit

namespace Lexicon

variable {l k m : Lexicon} {s t x y f : Symbol} {name : String} {α β : Type}

/-- The lexicon `m` has the same names, and perhaps more behind them. -/
def Grows (l m : Lexicon) : Prop := l.names.toList <+: m.names.toList

/-- `s` is a symbol of the lexicon. -/
def Knows (l : Lexicon) (s : Symbol) : Prop := s.handle < l.names.toList.length

instance (l : Lexicon) (s : Symbol) : Decidable (l.Knows s) :=
  inferInstanceAs (Decidable (s.handle < l.names.toList.length))

/-- The lexicon of the keywords and the given names. -/
def ofNames (names : List String) : Lexicon := names.foldl (fun l name => (l.intern name).2) .initial

theorem Grows.refl (l : Lexicon) : l.Grows l := List.prefix_refl _

theorem Grows.trans (h1 : l.Grows k) (h2 : k.Grows m) : l.Grows m := List.IsPrefix.trans h1 h2

theorem resolve_eq (l : Lexicon) (s : Symbol) : l.resolve s = l.names.toList[s.handle]?.getD "?" := by
  simp [resolve, OrderedSet.toList]

theorem Knows.grows (hs : l.Knows s) (h : l.Grows m) : m.Knows s := Nat.lt_of_lt_of_le hs h.length_le

theorem Knows.resolve_eq_of_grows (hs : l.Knows s) (h : l.Grows m) : m.resolve s = l.resolve s := by
  obtain ⟨rest, hrest⟩ := h
  rw [resolve_eq, resolve_eq, ← hrest, List.getElem?_append_left hs]

/-- A symbol stands where its name does. -/
theorem Knows.position? (hs : l.Knows s) : l.names.position? (l.resolve s) = some s.handle := by
  rw [OrderedSet.position?_eq_some_iff, resolve_eq, List.getElem?_eq_getElem hs]
  rfl

theorem Knows.eq_of_resolve_eq (hs : l.Knows s) (ht : l.Knows t) (h : l.resolve s = l.resolve t) : s = t := by
  have hposition := ht.position?
  rw [← h, hs.position?] at hposition
  exact Symbol.handle_injective (Option.some.inj hposition)

/-! ## Interning -/

theorem grows_intern (l : Lexicon) (name : String) : l.Grows (l.intern name).2 := by
  unfold intern
  split
  · exact Grows.refl l
  · rename_i hnone
    exact ⟨[name], (OrderedSet.toList_push l.names name hnone).symm⟩

theorem getElem?_intern (l : Lexicon) (name : String) :
    (l.intern name).2.names.toList[(l.intern name).1.handle]? = some name := by
  unfold intern
  split
  · rename_i i hi
    exact OrderedSet.position?_eq_some_iff.1 hi
  · rename_i hnone
    rw [OrderedSet.toList_push]
    exact List.getElem?_concat_length

theorem knows_intern (l : Lexicon) (name : String) : (l.intern name).2.Knows (l.intern name).1 :=
  (List.getElem?_eq_some_iff.1 (getElem?_intern l name)).1

theorem resolve_intern (l : Lexicon) (name : String) :
    (l.intern name).2.resolve (l.intern name).1 = name := by
  rw [resolve_eq, getElem?_intern]
  rfl

/-- A name that is known is not numbered again. -/
theorem intern_of_getElem? (h : l.names.toList[s.handle]? = some name) : l.intern name = (s, l) := by
  rw [← OrderedSet.position?_eq_some_iff] at h
  unfold intern
  split
  · rename_i i hi
    rw [h] at hi
    rw [← Option.some.inj hi]
  · rename_i hnone
    rw [h] at hnone
    cases hnone

/-- The step adds names only, and run again in a later lexicon it gives the same and adds nothing. -/
structure Settles (l : Lexicon) (step : Lexicon → α × Lexicon) : Prop where
  grows : ∀ {k}, l.Grows k → k.Grows (step k).2
  again : ∀ {k m}, l.Grows k → (step k).2.Grows m → step m = ((step k).1, m)

theorem settles_pure (a : α) : Settles l fun k => (a, k) := ⟨fun _ => Grows.refl _, fun _ _ => rfl⟩

theorem settles_intern (name : String) : Settles l fun k => k.intern name where
  grows _ := grows_intern _ name
  again {k m} _ hm := by
    refine intern_of_getElem? ?_
    obtain ⟨rest, hrest⟩ := hm
    rw [← hrest, List.getElem?_append_left (knows_intern k name)]
    exact getElem?_intern k name

theorem Settles.map {step : Lexicon → α × Lexicon} (h : Settles l step) (g : α → β) :
    Settles l fun k => (step k).map g id where
  grows hk := h.grows hk
  again hk hm := by rw [h.again hk hm]; rfl

/-- What agrees with a step in all later lexicons settles as it does. -/
theorem Settles.congr {step step' : Lexicon → α × Lexicon} (h : Settles l step)
    (heq : ∀ {k}, l.Grows k → step' k = step k) : Settles l step' where
  grows hk := by
    rw [heq hk]
    exact h.grows hk
  again {k m} hk hm := by
    rw [heq hk] at hm ⊢
    rw [heq (hk.trans ((h.grows hk).trans hm)), h.again hk hm]

section InternAll

variable {steps : List (Lexicon → α × Lexicon)} (h : ∀ step ∈ steps, Settles l step)

include h

theorem settles_internAll : Settles l (internAll steps) := by
  induction steps with
  | nil => exact settles_pure []
  | cons step steps ih =>
    obtain ⟨hstep, hrest⟩ := List.forall_mem_cons.1 h
    have ih := ih hrest
    refine ⟨fun {k} hk => ?_, fun {k m} hk hm => ?_⟩
    · rw [internAll_cons]
      exact (hstep.grows hk).trans (ih.grows (hk.trans (hstep.grows hk)))
    · rw [internAll_cons] at hm
      have hk' := hk.trans (hstep.grows hk)
      rw [internAll_cons, internAll_cons, hstep.again hk ((ih.grows hk').trans hm), ih.again hk' hm]

/-- The results are those that the steps give in the end. -/
theorem internAll_eq_map (hk : l.Grows k) (hm : (internAll steps k).2.Grows m) :
    (internAll steps k).1 = steps.map fun step => (step m).1 := by
  induction steps generalizing k with
  | nil => rfl
  | cons step steps ih =>
    obtain ⟨hstep, hrest⟩ := List.forall_mem_cons.1 h
    rw [internAll_cons] at hm ⊢
    have hk' := hk.trans (hstep.grows hk)
    have hgrows := ((settles_internAll hrest).grows hk').trans hm
    rw [List.map_cons, ih hrest hk' hm, hstep.again hk hgrows]

/-- In the end no step adds a name. -/
theorem step_eq_of_internAll (hk : l.Grows k) (hm : (internAll steps k).2.Grows m) :
    ∀ step ∈ steps, (step m).2 = m := by
  induction steps generalizing k with
  | nil => simp
  | cons step steps ih =>
    obtain ⟨hstep, hrest⟩ := List.forall_mem_cons.1 h
    rw [internAll_cons] at hm
    have hk' := hk.trans (hstep.grows hk)
    have hgrows := ((settles_internAll hrest).grows hk').trans hm
    refine List.forall_mem_cons.2 ⟨?_, ih hrest hk' hm⟩
    rw [hstep.again hk hgrows]

omit h in
theorem internAll_of_step_eq (hsteps : ∀ step ∈ steps, (step m).2 = m) :
    internAll steps m = (steps.map fun step => (step m).1, m) := by
  induction steps with
  | nil => rfl
  | cons step steps ih =>
    obtain ⟨hstep, hrest⟩ := List.forall_mem_cons.1 hsteps
    rw [internAll_cons, hstep, ih hrest, List.map_cons]

end InternAll

/-! ## Terms in place of variables -/

theorem argumentName_of_grows (hx : l.Knows x) (hf : l.Knows f) (h : l.Grows m) (i : Nat) :
    m.argumentName x f i = l.argumentName x f i := by
  rw [argumentName, argumentName, hx.resolve_eq_of_grows h, hf.resolve_eq_of_grows h]

/-- The symbol of argument `i` of the function `f` in place of the variable `x`. -/
def argument (l : Lexicon) (x f : Symbol) (i : Nat) : Symbol := (l.intern (l.argumentName x f i)).1

/-- The term that replaces the variable `x` if it stands for this. -/
def replacement (l : Lexicon) (x : Symbol) : Occupant → Term Symbol
  | .const => .var x
  | .functor f arity => .app f ((List.range arity).map fun i => .var (l.argument x f i))

/-- The lexicon has the names of the arguments, if the variable `x` is replaced by a function. -/
def Names (l : Lexicon) (x : Symbol) : Occupant → Prop
  | .const => True
  | .functor f arity => ∀ i < arity, l.Knows (l.argument x f i) ∧
      l.resolve (l.argument x f i) = l.argumentName x f i

section FreshTerm

variable {arity : Nat} (hx : l.Knows x) (hf : l.Knows f)

include hx hf

/-- The steps that intern the arguments are the same in all later lexicons. -/
theorem freshTerm_eq_of_grows (hk : l.Grows k) :
    freshTerm x f arity k = (internAll ((List.range arity).map fun i (m : Lexicon) =>
      (m.intern (l.argumentName x f i)).map Term.var id) k).map (.app f) id := by
  rw [freshTerm]
  simp only [argumentName_of_grows hx hf hk]

theorem settles_freshTerm : Settles l (freshTerm x f arity) := by
  refine Settles.congr ?_ (freshTerm_eq_of_grows hx hf)
  refine (settles_internAll fun step hstep => ?_).map _
  obtain ⟨i, -, rfl⟩ := List.mem_map.1 hstep
  exact (settles_intern _).map _

theorem freshTerm_eq (hk : l.Grows k) (hm : (freshTerm x f arity k).2.Grows m) :
    (freshTerm x f arity k).1 = m.replacement x (.functor f arity) ∧ m.Names x (.functor f arity) := by
  have hlm : l.Grows m := hk.trans (((settles_freshTerm hx hf).grows hk).trans hm)
  rw [freshTerm_eq_of_grows hx hf hk] at hm ⊢
  have hsteps : ∀ step ∈ (List.range arity).map fun i (m : Lexicon) =>
      (m.intern (l.argumentName x f i)).map Term.var id, Settles l step := by
    intro step hstep
    obtain ⟨i, -, rfl⟩ := List.mem_map.1 hstep
    exact (settles_intern _).map _
  constructor
  · rw [Prod.map_fst, internAll_eq_map hsteps hk hm, replacement, List.map_map]
    refine congrArg (Term.app f) (List.map_congr_left fun i _ => ?_)
    simp only [Function.comp, argument, argumentName_of_grows hx hf hlm]
    rfl
  · intro i hi
    have hstep := step_eq_of_internAll hsteps hk hm _ (List.mem_map.2 ⟨i, List.mem_range.2 hi, rfl⟩)
    have hname : (m.intern (m.argumentName x f i)).2 = m := by
      rw [argumentName_of_grows hx hf hlm]
      exact hstep
    have hknows := knows_intern m (m.argumentName x f i)
    have hresolve := resolve_intern m (m.argumentName x f i)
    rw [hname] at hknows hresolve
    exact ⟨hknows, hresolve⟩

end FreshTerm

/-- The step that makes the term in place of the variable `x`. -/
def replace (x : Symbol) : Occupant → Lexicon → Term Symbol × Lexicon
  | .const, l => (.var x, l)
  | .functor f arity, l => freshTerm x f arity l

theorem replacements_eq_internAll (x : Symbol) (os : List Occupant) :
    replacements x os = internAll (os.map (replace x)) := by
  funext l
  refine congrArg (internAll · l) (List.map_congr_left fun o _ => ?_)
  cases o <;> rfl

/-- The lexicon knows the function, if it is one. -/
def KnowsOccupant (l : Lexicon) : Occupant → Prop
  | .const => True
  | .functor f _ => l.Knows f

section Replace

variable {o : Occupant} (hx : l.Knows x) (ho : l.KnowsOccupant o)

include hx ho

theorem settles_replace : Settles l (replace x o) := by
  cases o with
  | const => exact settles_pure _
  | functor f arity => exact settles_freshTerm hx ho

theorem replace_eq (hk : l.Grows k) (hm : (replace x o k).2.Grows m) :
    (replace x o k).1 = m.replacement x o ∧ m.Names x o := by
  cases o with
  | const => exact ⟨rfl, trivial⟩
  | functor f arity => exact freshTerm_eq hx ho hk hm

end Replace

section Replacements

variable {os : List Occupant} (hx : l.Knows x) (hos : ∀ o ∈ os, l.KnowsOccupant o)

include hx hos

theorem settles_replace_steps : ∀ step ∈ os.map (replace x), Settles l step := by
  intro step hstep
  obtain ⟨o, ho, rfl⟩ := List.mem_map.1 hstep
  exact settles_replace hx (hos o ho)

theorem settles_replacements : Settles l (replacements x os) := by
  rw [replacements_eq_internAll]
  exact settles_internAll (settles_replace_steps hx hos)

theorem replacements_eq (hk : l.Grows k) (hm : (replacements x os k).2.Grows m) :
    (replacements x os k).1 = os.map (m.replacement x) ∧ ∀ o ∈ os, m.Names x o := by
  have hlm : l.Grows m := hk.trans (((settles_replacements hx hos).grows hk).trans hm)
  rw [replacements_eq_internAll] at hm ⊢
  have hsteps := settles_replace_steps hx hos
  have heach : ∀ o ∈ os, (replace x o m).1 = m.replacement x o ∧ m.Names x o := by
    intro o ho
    have hend := step_eq_of_internAll hsteps hk hm _ (List.mem_map_of_mem ho)
    exact replace_eq hx (hos o ho) hlm (by rw [hend]; exact Grows.refl m)
  refine ⟨?_, fun o ho => (heach o ho).2⟩
  rw [internAll_eq_map hsteps hk hm, List.map_map]
  exact List.map_congr_left fun o ho => (heach o ho).1

end Replacements

/-! ## Names of arguments -/

/-- The name of `y` begins with that of `x` and a dot. -/
def Below (l : Lexicon) (x y : Symbol) : Prop := (l.resolve x).toList ++ ['.'] <+: (l.resolve y).toList

/-- No variable is named after another one. -/
def Apart (l : Lexicon) (xs : List Symbol) : Prop := ∀ x ∈ xs, ∀ y ∈ xs, ¬ l.Below x y

instance (l : Lexicon) (x y : Symbol) : Decidable (l.Below x y) :=
  inferInstanceAs (Decidable ((l.resolve x).toList ++ ['.'] <+: (l.resolve y).toList))

instance (l : Lexicon) (xs : List Symbol) : Decidable (l.Apart xs) :=
  inferInstanceAs (Decidable (∀ x ∈ xs, ∀ y ∈ xs, ¬ l.Below x y))

theorem Below.trans (hxy : l.Below x y) (hyz : l.Below y s) : l.Below x s :=
  List.IsPrefix.trans hxy ((List.prefix_append _ ['.']).trans hyz)

/-- Of two symbols that a third is named after, one is named after the other if they differ. -/
theorem Below.comparable (hx : l.Knows x) (hy : l.Knows y) (hxs : l.Below x s) (hys : l.Below y s) :
    x = y ∨ l.Below x y ∨ l.Below y x := by
  have hlists : ∀ xs ys : List Char, xs ++ ['.'] <+: ys ++ ['.'] → xs = ys ∨ xs ++ ['.'] <+: ys := by
    intro xs ys h
    rcases List.prefix_concat_iff.1 h with heq | hle
    · exact .inl (List.append_cancel_right heq)
    · exact .inr hle
  rcases List.prefix_or_prefix_of_prefix hxs hys with hle | hle
  · rcases hlists _ _ hle with heq | hbelow
    · exact .inl (hx.eq_of_resolve_eq hy (String.toList_inj.1 heq))
    · exact .inr (.inl hbelow)
  · rcases hlists _ _ hle with heq | hbelow
    · exact .inl (hx.eq_of_resolve_eq hy (String.toList_inj.1 heq.symm))
    · exact .inr (.inr hbelow)

/-- Names do not change when others are added. -/
theorem Apart.grows {xs : List Symbol} (h : l.Apart xs) (hknows : ∀ x ∈ xs, l.Knows x) (hm : l.Grows m) :
    m.Apart xs := by
  intro x hx y hy
  rw [Below, (hknows x hx).resolve_eq_of_grows hm, (hknows y hy).resolve_eq_of_grows hm]
  exact h x hx y hy

theorem toList_argumentName (l : Lexicon) (x f : Symbol) (i : Nat) : (l.argumentName x f i).toList =
    (l.resolve x).toList ++ ['.'] ++ ((l.resolve f).toList ++ ['.'] ++ (toString i).toList) := by
  simp [argumentName]

theorem dot_not_mem_toString (i : Nat) : '.' ∉ (toString i).toList := by
  intro h
  rw [Nat.toString_eq_ofList_toDigits, String.toList_ofList] at h
  have hdigit : '.'.isDigit = true := Nat.isDigit_of_mem_toDigits (by decide) (by decide) h
  exact absurd hdigit (by decide)

section Arguments

variable {arity i j : Nat} (hnames : l.Names x (.functor f arity))

include hnames

theorem below_argument (hi : i < arity) : l.Below x (l.argument x f i) := by
  rw [Below, (hnames i hi).2, toList_argumentName]
  exact List.prefix_append _ _

theorem argument_injective (hi : i < arity) (hj : j < arity)
    (h : l.argument x f i = l.argument x f j) : i = j := by
  have hname := congrArg (fun s => (l.resolve s).toList) h
  simp only [(hnames i hi).2, (hnames j hj).2, toList_argumentName] at hname
  have hdigits := List.append_cancel_left (List.append_cancel_left hname)
  rw [Nat.toString_eq_ofList_toDigits, Nat.toString_eq_ofList_toDigits, String.toList_ofList,
    String.toList_ofList] at hdigits
  rw [← Nat.ofDigitChars_toDigits (b := 10) (n := i) (by decide) (by decide), hdigits,
    Nat.ofDigitChars_toDigits (by decide) (by decide)]

theorem not_below_argument (hi : i < arity) (hj : j < arity) :
    ¬ l.Below (l.argument x f i) (l.argument x f j) := by
  intro h
  rw [Below, (hnames i hi).2, (hnames j hj).2, toList_argumentName, toList_argumentName,
    List.append_assoc, List.prefix_append_right_inj, List.append_assoc,
    List.prefix_append_right_inj] at h
  exact dot_not_mem_toString j (h.subset (by simp))

end Arguments

theorem mem_vars_replacement (o : Occupant) : y ∈ (l.replacement x o).vars ↔
    (o = .const ∧ y = x) ∨ ∃ f arity, o = .functor f arity ∧ ∃ i < arity, y = l.argument x f i := by
  cases o with
  | const => simp [replacement]
  | functor f arity => simp [replacement, eq_comm]

section Choice

variable {xs : List Symbol} {choice : Symbol → Occupant} (hap : l.Apart xs)
  (hknows : ∀ x ∈ xs, l.Knows x) (hnames : ∀ x ∈ xs, l.Names x (choice x))

include hap hknows

theorem Apart.eq_of_below (hx : x ∈ xs) (hy : y ∈ xs) (hxs : l.Below x s) (hys : l.Below y s) : x = y := by
  rcases Below.comparable (hknows x hx) (hknows y hy) hxs hys with heq | hbelow | hbelow
  · exact heq
  · exact absurd hbelow (hap x hx y hy)
  · exact absurd hbelow (hap y hy x hx)

include hnames

/-- Different variables are replaced by terms without a common variable. -/
theorem Apart.eq_of_mem_replacement (hx : x ∈ xs) (hy : y ∈ xs)
    (hsx : s ∈ (l.replacement x (choice x)).vars) (hsy : s ∈ (l.replacement y (choice y)).vars) : x = y := by
  have hnx := hnames x hx
  have hny := hnames y hy
  rcases (mem_vars_replacement _).1 hsx with ⟨-, rfl⟩ | ⟨f, arity, hf, i, hi, rfl⟩
  · rcases (mem_vars_replacement _).1 hsy with ⟨-, heq⟩ | ⟨g, arity', hg, j, hj, rfl⟩
    · exact heq
    · rw [hg] at hny
      exact absurd (below_argument hny hj) (hap y hy _ hx)
  · rw [hf] at hnx
    rcases (mem_vars_replacement _).1 hsy with ⟨-, rfl⟩ | ⟨g, arity', hg, j, hj, heq⟩
    · exact absurd (below_argument hnx hi) (hap x hx _ hy)
    · rw [hg] at hny
      refine hap.eq_of_below hknows hx hy (below_argument hnx hi) ?_
      rw [heq]
      exact below_argument hny hj

/-- The variables of the terms in place of variables that are apart are apart again. -/
theorem Apart.replacement : l.Apart (xs.flatMap fun x => (l.replacement x (choice x)).vars) := by
  intro s hs t ht hbelow
  obtain ⟨x, hx, hsx⟩ := List.mem_flatMap.1 hs
  obtain ⟨y, hy, hty⟩ := List.mem_flatMap.1 ht
  have hnx := hnames x hx
  have hny := hnames y hy
  rcases (mem_vars_replacement _).1 hsx with ⟨hcx, rfl⟩ | ⟨f, arity, hf, i, hi, rfl⟩
  · rcases (mem_vars_replacement _).1 hty with ⟨-, rfl⟩ | ⟨g, arity', hg, j, hj, rfl⟩
    · exact hap s hx t hy hbelow
    · rw [hg] at hny
      obtain rfl := hap.eq_of_below hknows hx hy hbelow (below_argument hny hj)
      rw [hcx] at hg
      cases hg
  · rw [hf] at hnx
    have hbelow' := (below_argument hnx hi).trans hbelow
    rcases (mem_vars_replacement _).1 hty with ⟨-, rfl⟩ | ⟨g, arity', hg, j, hj, rfl⟩
    · exact hap x hx t hy hbelow'
    · rw [hg] at hny
      obtain rfl := hap.eq_of_below hknows hx hy hbelow' (below_argument hny hj)
      obtain ⟨rfl, rfl⟩ : f = g ∧ arity = arity' := by simpa [hf] using hg
      exact not_below_argument hnx hi hj hbelow

end Choice

end Lexicon

end GameCircuit
