import GameCircuit.Proofs.Conclusions

/-!
# Linking what holds at the start

What holds at the start joins the proposition about the next state if that decides the one about the
state, and gets a transition of its own otherwise (`Assembly.Decides`).  `Assembly.Realizes` says what
feeds the named propositions once everything that holds at the start is linked.
-/

namespace GameCircuit

/-- It is before the first state, and the formulas conclude that `x` holds at the start. -/
def ConcludesAtStart (φs : List (Formula Symbol)) (I : Set (Atom Symbol)) (x : Term Symbol) : Prop :=
  ⟨Keyword.start, []⟩ ∈ I ∧ Concludes φs I ⟨Keyword.init, [x]⟩

theorem concludesAtStart_iff {φs : List (Formula Symbol)} {I : Set (Atom Symbol)} {x : Term Symbol} :
    ConcludesAtStart φs I x ↔ ∃ φ ∈ φs, φ.head? = some ⟨Keyword.init, [x]⟩ ∧ φ.AppliesAtStart I := by
  rw [ConcludesAtStart, concludes_iff]
  constructor
  · rintro ⟨hstart, φ, hφ, hhead, happlies⟩
    exact ⟨φ, hφ, hhead, hstart, happlies⟩
  · rintro ⟨φ, hφ, hhead, hstart, happlies⟩
    exact ⟨hstart, φ, hφ, hhead, happlies⟩

namespace Assembly

variable {b b' : Assembly} {φs : List (Formula Symbol)} {a : Atom Symbol} {O : Set Nat}
  {i j target : Nat} {sources : List Nat} {kind : Kind}

/-! ## Linking several components -/

/-- Links all the sources to a component. -/
def linkAll (b : Assembly) (sources : List Nat) (target : Nat) : Assembly :=
  sources.foldl (fun b source => b.link source target) b

theorem feeds_linkAll :
    (b.linkAll sources target).Feeds i j ↔ b.Feeds i j ∨ i ∈ sources ∧ j = target := by
  induction sources generalizing b with
  | nil => simp [linkAll]
  | cons source sources ih =>
    have hrest : ((b.link source target).linkAll sources target).Feeds i j ↔ _ := ih
    rw [linkAll, List.foldl_cons]
    rw [linkAll] at hrest
    rw [hrest, feeds_link, List.mem_cons]
    tauto

theorem named_linkAll : (b.linkAll sources target).Named a i ↔ b.Named a i := by
  induction sources generalizing b with
  | nil => exact Iff.rfl
  | cons source sources ih => exact ih (b := b.link source target)

theorem kinds_linkAll (b : Assembly) (sources : List Nat) (target : Nat) :
    (b.linkAll sources target).kinds = b.kinds := by
  induction sources generalizing b with
  | nil => rfl
  | cons source sources ih => exact ih (b.link source target)

theorem drivers_linkAll (b : Assembly) (sources : List Nat) (target : Nat) :
    (b.linkAll sources target).drivers = b.drivers := by
  induction sources generalizing b with
  | nil => rfl
  | cons source sources ih => exact ih (b.link source target)

theorem extends_linkAll (h : target ∈ O ∨ ∃ a, b.Named a target) :
    Extends O b (b.linkAll sources target) := by
  induction sources generalizing b with
  | nil => exact Extends.refl b
  | cons source sources ih => exact (extends_link h).trans (ih h)

theorem Regular.linkAll (h : b.Regular)
    (hsources : ∀ i ∈ sources, ∃ kind, b.kinds[i]? = some kind ∧ kind ≠ .transition)
    {name : Atom Symbol} (htarget : b.kinds[target]? = some (.proposition name none))
    (hinit : ∀ a, b.Named a target → a.relation ≠ Keyword.init) : (b.linkAll sources target).Regular := by
  induction sources generalizing b with
  | nil => exact h
  | cons source sources ih =>
    obtain ⟨kind, hkind, hne⟩ := hsources source List.mem_cons_self
    have hreg : (b.link source target).Regular := by
      refine h.link (Array.getElem?_eq_some_iff.1 hkind).1 (Array.getElem?_eq_some_iff.1 htarget).1
        (fun hor => ?_) (fun ht => ?_) hinit
      · rw [htarget] at hor
        simp at hor
      · rw [hkind] at ht
        exact absurd (Option.some.inj ht) hne
    exact ih hreg (fun i hi => hsources i (List.mem_cons_of_mem _ hi)) htarget hinit

/-- A proposition without a name is added, which the sources feed and which feeds the component `t`. -/
def collectFor (b : Assembly) (t : Nat) (sources : List Nat) : Assembly :=
  ((b.add (.proposition ⟨Keyword.anonymous, []⟩ none)).2.link b.kinds.size t).linkAll sources b.kinds.size

theorem feeds_collectFor {t : Nat} : (b.collectFor t sources).Feeds i j ↔
    (b.Feeds i j ∨ i = b.kinds.size ∧ j = t) ∨ i ∈ sources ∧ j = b.kinds.size := by
  rw [collectFor, feeds_linkAll, feeds_link]
  exact Iff.rfl

theorem getElem?_collectFor {t id : Nat} : (b.collectFor t sources).kinds[id]? =
    if id = b.kinds.size then some (.proposition ⟨Keyword.anonymous, []⟩ none) else b.kinds[id]? := by
  rw [collectFor, kinds_linkAll]
  exact getElem?_add b _

theorem named_collectFor {t : Nat} : (b.collectFor t sources).Named a i ↔ b.Named a i := named_linkAll

/-! ## One proposition about the state -/

/-- The component lets through what one of the sources says. -/
def Passes (b : Assembly) (t : Nat) (sources : List Nat) : Prop :=
  ∀ ⦃w I⦄, Obeys ∅ b w I → (w t ↔ ∃ i ∈ sources, w i)

/-- A proposition that nothing decides gets a transition, fed by the sources. -/
structure Decides (b b' : Assembly) (s t : Nat) (sources : List Nat) : Prop where
  regular : b'.Regular
  ext : Extends ∅ b b'
  drivers : b'.drivers = b.drivers
  transition : b'.kinds[t]? = some .transition
  feeds : b'.Feeds t s
  named : ∀ {a i j}, b'.Named a j → b'.Feeds i j → b.Feeds i j ∨ i = t ∧ j = s
  passes : Passes b' t sources

/-- A transition was added in front of the proposition, and nothing feeds it yet. -/
structure Awaits (b b' : Assembly) (s : Nat) : Prop where
  regular : b'.Regular
  ext : Extends ∅ b b'
  drivers : b'.drivers = b.drivers
  kind : b'.kinds[b.kinds.size]? = some .transition
  feeds_iff : ∀ {i j}, b'.Feeds i j ↔ b.Feeds i j ∨ i = b.kinds.size ∧ j = s
  unfed : ∀ i, ¬ b'.Feeds i b.kinds.size

theorem awaits_add (h : b.Regular) {s : Nat} {args : List (Term Symbol)}
    (hs : b.Named ⟨Keyword.holds, args⟩ s) :
    Awaits b ((b.add .transition).2.link b.kinds.size s) s := by
  have hslt := h.named_lt hs
  have hfeeds : ∀ {i j}, ((b.add .transition).2.link b.kinds.size s).Feeds i j ↔
      b.Feeds i j ∨ i = b.kinds.size ∧ j = s := feeds_link
  refine ⟨?_, (extends_add b .transition).trans (extends_link (.inr ⟨_, hs⟩)), rfl,
    (getElem?_add b .transition).trans (if_pos rfl), hfeeds, fun i hf => ?_⟩
  · exact (h.add (.inl rfl)).link_named (by rw [size_add]; omega) hs (fun _ => rfl)
      (by decide : Keyword.holds ≠ Keyword.init)
  · rcases hfeeds.1 hf with hold | ⟨-, heq⟩
    · exact h.fresh.2 i hold
    · omega

namespace Awaits

variable {b1 : Assembly} {s : Nat} (h : Awaits b b1 s)

include h

theorem lt : b.kinds.size < b1.kinds.size := (Array.getElem?_eq_some_iff.1 h.kind).1

theorem not_named (a : Atom Symbol) : ¬ b1.Named a b.kinds.size := h.regular.not_named h.kind rfl a

/-- What comes to feed the transition and what is added behind it leaves alone what was there. -/
theorem close (hext : Extends {j | b.kinds.size ≤ j} b1 b') : Extends ∅ b b' :=
  ((h.ext.mono (Set.empty_subset _)).trans hext).close fun _ hj => hj

theorem feeds_link_self {source : Nat} :
    (b1.link source b.kinds.size).Feeds i b.kinds.size ↔ i = source := by
  rw [feeds_link, or_iff_right (h.unfed i), and_iff_left rfl]

/-- The only source feeds the transition. -/
theorem decides_link {source : Nat} {kind : Kind} (hkind : b.kinds[source]? = some kind)
    (hne : kind ≠ .transition) : Decides b (b1.link source b.kinds.size) s b.kinds.size [source] := by
  have hkind1 := h.ext.kinds hkind
  have hreg : (b1.link source b.kinds.size).Regular := by
    refine h.regular.link (Array.getElem?_eq_some_iff.1 hkind1).1 h.lt (fun _ => h.unfed)
      (fun hkind' => ?_) fun a ha => absurd ha (h.not_named a)
    exact absurd (Option.some.inj (hkind1.symm.trans hkind')) hne
  refine ⟨hreg, h.close (extends_link (.inl (Nat.le_refl _))), h.drivers, h.kind,
    feeds_link.2 (.inl (h.feeds_iff.2 (.inr ⟨rfl, rfl⟩))), fun ha hf => ?_, fun w I hw => ?_⟩
  · rcases feeds_link.1 hf with hold | ⟨-, rfl⟩
    · exact h.feeds_iff.1 hold
    · exact absurd ha (h.not_named _)
  · rw [hw.law h.kind (Set.notMem_empty _) h.not_named, Drives]
    simp only [h.feeds_link_self, List.mem_singleton]

theorem extends_collectFor :
    Extends {j | b.kinds.size ≤ j} b1 (b1.collectFor b.kinds.size sources) := by
  have hext : Extends {j | b.kinds.size ≤ j} b1
      ((b1.add (.proposition ⟨Keyword.anonymous, []⟩ none)).2.link b1.kinds.size b.kinds.size) :=
    ((extends_add b1 _).mono (Set.empty_subset _)).trans (extends_link (.inl (Nat.le_refl _)))
  exact hext.trans (extends_linkAll (.inl h.lt.le))

theorem feeds_collectFor_self :
    (b1.collectFor b.kinds.size sources).Feeds i b.kinds.size ↔ i = b1.kinds.size := by
  rw [feeds_collectFor, or_iff_right (h.unfed i)]
  simp [h.lt.ne]

theorem feeds_collectFor_collector :
    (b1.collectFor b.kinds.size sources).Feeds i b1.kinds.size ↔ i ∈ sources := by
  rw [feeds_collectFor, or_iff_right (b := i ∈ sources ∧ b1.kinds.size = b1.kinds.size)]
  · exact and_iff_left rfl
  · rintro (hold | ⟨-, heq⟩)
    · exact h.regular.fresh.2 i hold
    · exact h.lt.ne heq.symm

theorem not_named_collector (a : Atom Symbol) :
    ¬ (b1.collectFor b.kinds.size sources).Named a b1.kinds.size := fun ha =>
  h.regular.fresh.1 a (named_collectFor.1 ha)

theorem regular_collectFor
    (hsources : ∀ i ∈ sources, ∃ kind, b.kinds[i]? = some kind ∧ kind ≠ .transition) :
    (b1.collectFor b.kinds.size sources).Regular := by
  have hlt := h.lt
  have hgetElem : ∀ {id : Nat}, ((b1.add (.proposition ⟨Keyword.anonymous, []⟩ none)).2.link b1.kinds.size
      b.kinds.size).kinds[id]? = _ := getElem?_add b1 _
  refine Regular.linkAll ?_ (fun i hi => ?_) (hgetElem.trans (if_pos rfl)) fun a ha =>
    absurd ha (h.regular.fresh.1 a)
  · refine (h.regular.add (.inr rfl)).link (by rw [size_add]; omega) (by rw [size_add]; omega)
      (fun _ => h.unfed) (fun hkind => ?_) fun a ha => absurd ha (h.not_named a)
    rw [getElem?_add, if_pos rfl] at hkind
    cases hkind
  · obtain ⟨kind, hkind, hne⟩ := hsources i hi
    have hkind1 := h.ext.kinds hkind
    refine ⟨kind, ?_, hne⟩
    rw [hgetElem, if_neg (Array.getElem?_eq_some_iff.1 hkind1).1.ne]
    exact hkind1

/-- A proposition collects the sources and feeds the transition. -/
theorem decides_collectFor
    (hsources : ∀ i ∈ sources, ∃ kind, b.kinds[i]? = some kind ∧ kind ≠ .transition) :
    Decides b (b1.collectFor b.kinds.size sources) s b.kinds.size sources := by
  have hreg := h.regular_collectFor hsources
  have hext : Extends {j | b.kinds.size ≤ j} b1 (b1.collectFor b.kinds.size sources) := h.extends_collectFor
  have hkind := hext.kinds h.kind
  refine ⟨hreg, h.close hext, (drivers_linkAll _ _ _).trans h.drivers, hkind,
    hext.feeds (h.feeds_iff.2 (.inr ⟨rfl, rfl⟩)), fun {a i j} ha hf => ?_, fun w I hw => ?_⟩
  · rcases feeds_collectFor.1 hf with (hold | ⟨-, rfl⟩) | ⟨-, rfl⟩
    · exact h.feeds_iff.1 hold
    · exact absurd ha (hreg.not_named hkind rfl _)
    · exact absurd ha (h.not_named_collector a)
  · rw [hw.law hkind (Set.notMem_empty _) (hreg.not_named hkind rfl), Drives]
    simp only [h.feeds_collectFor_self, exists_eq_left]
    rw [hw.law (getElem?_collectFor.trans (if_pos rfl)) (Set.notMem_empty _) h.not_named_collector, Drives]
    simp only [h.feeds_collectFor_collector]

end Awaits

theorem addDriver_spec (h : b.Regular) {s : Nat} {args : List (Term Symbol)}
    (hs : b.Named ⟨Keyword.holds, args⟩ s) {sources : Array Nat}
    (hsources : ∀ i ∈ sources.toList, ∃ kind, b.kinds[i]? = some kind ∧ kind ≠ .transition) :
    Decides b ((b.addDriver s sources).2.linkAll sources.toList (b.addDriver s sources).1) s b.kinds.size
      sources.toList := by
  have hawaits := awaits_add h hs
  unfold addDriver
  dsimp only
  split_ifs with hone
  · obtain ⟨source, hsource⟩ : ∃ source, sources.toList = [source] :=
      List.length_eq_one_iff.1 (by simpa using hone)
    obtain ⟨kind, hkind, hne⟩ := hsources source (by simp [hsource])
    rw [hsource]
    exact hawaits.decides_link hkind hne
  · exact hawaits.decides_collectFor hsources

/-! ## Everything that holds at the start -/

/-- The sources say just which formulas about the start apply. -/
structure Pending (φs : List (Formula Symbol)) (b : Assembly) (x : Term Symbol) (sources : List Nat) :
    Prop where
  exists_formula : ∃ φ ∈ φs, φ.head? = some ⟨Keyword.init, [x]⟩
  kind : ∀ i ∈ sources, ∃ kind, b.kinds[i]? = some kind ∧ kind ≠ .transition
  sound : ∀ i ∈ sources, ∃ φ ∈ φs, φ.head? = some ⟨Keyword.init, [x]⟩ ∧ Computes ∅ b i φ.AppliesAtStart
  complete : ∀ φ ∈ φs, φ.head? = some ⟨Keyword.init, [x]⟩ → ∃ i ∈ sources, Computes ∅ b i φ.AppliesAtStart

namespace Pending

variable {x : Term Symbol}

theorem grow (h : Pending φs b x sources) (hext : Extends ∅ b b') : Pending φs b' x sources where
  exists_formula := h.exists_formula
  kind i hi := by
    obtain ⟨kind, hkind, hne⟩ := h.kind i hi
    exact ⟨kind, hext.kinds hkind, hne⟩
  sound i hi := by
    obtain ⟨φ, hφ, hhead, hcomputes⟩ := h.sound i hi
    exact ⟨φ, hφ, hhead, hcomputes.grow hext⟩
  complete φ hφ hhead := by
    obtain ⟨i, hi, hcomputes⟩ := h.complete φ hφ hhead
    exact ⟨i, hi, hcomputes.grow hext⟩

/-- What lets the sources through says what is concluded at the start. -/
theorem computes (h : Pending φs b x sources) {t : Nat} (ht : Passes b t sources) :
    Computes ∅ b t fun I => ConcludesAtStart φs I x := by
  intro w I hw
  refine (ht hw).trans (Iff.trans ?_ concludesAtStart_iff.symm)
  constructor
  · rintro ⟨i, hi, hwi⟩
    obtain ⟨φ, hφ, hhead, hcomputes⟩ := h.sound i hi
    exact ⟨φ, hφ, hhead, (hcomputes hw).1 hwi⟩
  · rintro ⟨φ, hφ, hhead, happlies⟩
    obtain ⟨i, hi, hcomputes⟩ := h.complete φ hφ hhead
    exact ⟨i, hi, (hcomputes hw).2 happlies⟩

end Pending

/-- The component says that a formula with the head `a` applies.  One about the start may speak through the
proposition about the next state. -/
def Says (φs : List (Formula Symbol)) (b : Assembly) (a : Atom Symbol) (i : Nat) : Prop :=
  (∃ φ ∈ φs, φ.head? = some a ∧ Computes ∅ b i φ.Applies) ∨ ∃ x, a = ⟨Keyword.next, [x]⟩ ∧
    ∃ φ ∈ φs, φ.head? = some ⟨Keyword.init, [x]⟩ ∧ Computes ∅ b i φ.AppliesAtStart

/-- A transition that says what is concluded at the start, with nothing left in `rest`. -/
def Begins (φs : List (Formula Symbol)) (rest : List (Atom Symbol × Array Nat)) (b : Assembly)
    (args : List (Term Symbol)) (t : Nat) : Prop :=
  b.kinds[t]? = some .transition ∧ ∃ x, args = [x] ∧ (∀ p ∈ rest, p.1 ≠ ⟨Keyword.holds, [x]⟩) ∧
    (∃ φ ∈ φs, φ.head? = some ⟨Keyword.init, [x]⟩) ∧ Computes ∅ b t fun I => ConcludesAtStart φs I x

/-- The proposition about the state is fed, and the formula feeds what decides it. -/
def Joined (b : Assembly) (φ : Formula Symbol) (x : Term Symbol) : Prop :=
  ∃ s t, b.Named ⟨Keyword.holds, [x]⟩ s ∧ b.Feeds t s ∧
    ∀ n, b.drivers.get? s = some n → ∃ i, b.Feeds i n ∧ Computes ∅ b i φ.AppliesAtStart

theorem Says.grow (h : Says φs b a i) (hext : Extends ∅ b b') : Says φs b' a i := by
  refine h.imp ?_ ?_
  · rintro ⟨φ, hφ, hhead, hcomputes⟩
    exact ⟨φ, hφ, hhead, hcomputes.grow hext⟩
  · rintro ⟨x, hx, φ, hφ, hhead, hcomputes⟩
    exact ⟨x, hx, φ, hφ, hhead, hcomputes.grow hext⟩

theorem Begins.grow {rest rest' : List (Atom Symbol × Array Nat)} {args : List (Term Symbol)}
    (h : Begins φs rest b args i) (hext : Extends ∅ b b') (hrest : rest' ⊆ rest) :
    Begins φs rest' b' args i := by
  obtain ⟨hkind, x, hx, hnot, hexists, hcomputes⟩ := h
  exact ⟨hext.kinds hkind, x, hx, fun p hp => hnot p (hrest hp), hexists, hcomputes.grow hext⟩

theorem Joined.grow {φ : Formula Symbol} {x : Term Symbol} (h : Joined b φ x) (hext : Extends ∅ b b')
    (hdrivers : b'.drivers = b.drivers) : Joined b' φ x := by
  obtain ⟨s, t, hs, hf, hn⟩ := h
  refine ⟨s, t, hext.named hs, hext.feeds hf, fun n hget => ?_⟩
  rw [hdrivers] at hget
  obtain ⟨i, hi, hcomputes⟩ := hn n hget
  exact ⟨i, hext.feeds hi, hcomputes.grow hext⟩

/-- What feeds the named propositions, with `rest` still to be linked. -/
structure Realizes (φs : List (Formula Symbol)) (rest : List (Atom Symbol × Array Nat)) (b : Assembly) :
    Prop where
  regular : b.Regular
  driver : ∀ {s n}, b.drivers.get? s = some n → DrivenBy b s n
  -- what decides the state is what a formula concludes about the next one
  driven : ∀ {s n}, b.drivers.get? s = some n →
    ∃ x, b.Named ⟨Keyword.next, [x]⟩ n ∧ ∃ φ ∈ φs, φ.head? = some ⟨Keyword.next, [x]⟩
  next : ∀ {args n i}, b.Named ⟨Keyword.next, args⟩ n → b.Feeds i n → ∃ s, b.drivers.get? s = some n
  unique : ∀ {args s t t'}, b.Named ⟨Keyword.holds, args⟩ s → b.Feeds t s → b.Feeds t' s → t' = t
  -- if no proposition decides it, it says what is concluded at the start
  state : ∀ {args s t}, b.Named ⟨Keyword.holds, args⟩ s → b.Feeds t s →
    (b.drivers.get? s).isSome = true ∨ Begins φs rest b args t
  sound : ∀ {a id i}, b.Named a id → a.relation ≠ Keyword.holds → b.Feeds i id → Says φs b a i
  complete : ∀ φ ∈ φs, ∀ {a}, φ.head? = some a → a.relation ≠ Keyword.init → Cited b φ a
  -- a formula about the start is still to be linked, or feeds what decides the state
  start : ∀ φ ∈ φs, ∀ {args}, φ.head? = some ⟨Keyword.init, args⟩ → ∃ x, args = [x] ∧
    ((∃ sources, (⟨Keyword.holds, [x]⟩, sources) ∈ rest) ∨ Joined b φ x)
  pending : ∀ {name sources}, (name, sources) ∈ rest →
    ∃ x, name = ⟨Keyword.holds, [x]⟩ ∧ Pending φs b x sources.toList
  nodup : (rest.map Prod.fst).Nodup

namespace Realizes

variable {rest : List (Atom Symbol × Array Nat)}

/-- Before anything that holds at the start is linked. -/
theorem of_represents (h : Represents φs b) : Realizes φs b.initial.toList b where
  regular := h.regular
  driver := h.linked.driver
  driven hs := by
    obtain ⟨x, -, -, hn, -⟩ := h.linked.driver hs
    obtain ⟨i, hi⟩ := h.driven hs
    obtain ⟨φ, hφ, hhead, -⟩ := h.cites.sound hn (by decide : Keyword.next ≠ Keyword.holds) hi
    exact ⟨x, hn, φ, hφ, hhead⟩
  next := h.linked.next
  unique hs ht ht' := (h.linked.fed hs ht).2 _ ht'
  state hs ht := .inl (h.linked.fed hs ht).1
  sound ha hrel hf := .inl (h.cites.sound ha hrel hf)
  complete := h.cites.complete
  start φ hφ _ hhead := by
    obtain ⟨x, hx, sources, hget, -⟩ := h.cites.start_complete φ hφ hhead
    exact ⟨x, hx, .inl ⟨sources, OrderedMap.mem_toList_iff.2 hget⟩⟩
  pending hmem := by
    obtain ⟨x, rfl, hexists, hsources⟩ := h.cites.start_sound (OrderedMap.mem_toList_iff.1 hmem)
    refine ⟨x, rfl, hexists, fun i hi => (hsources i hi).1, fun i hi => (hsources i hi).2,
      fun φ hφ hhead => ?_⟩
    obtain ⟨x', hx', sources', hget, i, hi, hcomputes⟩ := h.cites.start_complete φ hφ hhead
    obtain rfl := (List.cons.inj hx').1
    obtain rfl := Option.some.inj (hget.symm.trans (OrderedMap.mem_toList_iff.1 hmem))
    exact ⟨i, hi, hcomputes⟩
  nodup := OrderedMap.nodup_keys _

/-- What is linked anew, by `N`, has to say what it should. -/
theorem grow {rest' : List (Atom Symbol × Array Nat)} {N : Atom Symbol → Nat → Nat → Prop}
    (h : Realizes φs rest b) (hreg : b'.Regular) (hext : Extends ∅ b b') (hdrivers : b'.drivers = b.drivers)
    (hrest : rest'.Sublist rest)
    (hnamed : ∀ {a i j}, b'.Named a j → b'.Feeds i j → b.Named a j ∧ b.Feeds i j ∨ N a i j)
    (hnext : ∀ {args i n}, N ⟨Keyword.next, args⟩ i n → ∃ s, b.drivers.get? s = some n)
    (hunique : ∀ {args t s}, N ⟨Keyword.holds, args⟩ t s → ∀ t', b'.Feeds t' s → t' = t)
    (hstate : ∀ {args t s}, N ⟨Keyword.holds, args⟩ t s → Begins φs rest' b' args t)
    (hsound : ∀ {a i id}, a.relation ≠ Keyword.holds → N a i id → Says φs b' a i)
    (hstart : ∀ φ ∈ φs, ∀ {x sources}, φ.head? = some ⟨Keyword.init, [x]⟩ →
      (⟨Keyword.holds, [x]⟩, sources) ∈ rest → (⟨Keyword.holds, [x]⟩, sources) ∈ rest' ∨ Joined b' φ x) :
    Realizes φs rest' b' where
  regular := hreg
  driver hs := by
    rw [hdrivers] at hs
    exact (h.driver hs).grow h.regular hext
  driven hs := by
    rw [hdrivers] at hs
    obtain ⟨x, hn, hhead⟩ := h.driven hs
    exact ⟨x, hext.named hn, hhead⟩
  next hn hf := by
    rw [hdrivers]
    rcases hnamed hn hf with ⟨hn', hf'⟩ | hnew
    · exact h.next hn' hf'
    · exact hnext hnew
  unique {args s t t'} hs ht ht' := by
    rcases hnamed hs ht with ⟨hs', hold⟩ | hnew
    · rcases hnamed hs ht' with ⟨-, hold'⟩ | hnew'
      · exact h.unique hs' hold hold'
      · exact (hunique hnew' t ht).symm
    · exact hunique hnew t' ht'
  state hs ht := by
    rw [hdrivers]
    rcases hnamed hs ht with ⟨hs', hold⟩ | hnew
    · exact (h.state hs' hold).imp_right fun hbegins => hbegins.grow hext hrest.subset
    · exact .inr (hstate hnew)
  sound ha hrel hf := by
    rcases hnamed ha hf with ⟨ha', hold⟩ | hnew
    · exact (h.sound ha' hrel hold).grow hext
    · exact hsound hrel hnew
  complete φ hφ _ hhead hrel := (h.complete φ hφ hhead hrel).grow hext
  start φ hφ _ hhead := by
    obtain ⟨x, rfl, ⟨sources, hmem⟩ | hjoined⟩ := h.start φ hφ hhead
    · refine ⟨x, rfl, (hstart φ hφ hhead hmem).imp_left fun hmem' => ⟨sources, hmem'⟩⟩
    · exact ⟨x, rfl, .inr (hjoined.grow hext hdrivers)⟩
  pending hmem := by
    obtain ⟨x, hx, hpending⟩ := h.pending (hrest.subset hmem)
    exact ⟨x, hx, hpending.grow hext⟩
  nodup := h.nodup.sublist (hrest.map Prod.fst)

/-- Building inside changes nothing. -/
theorem inner (h : Realizes φs rest b) (hreg : b'.Regular) (hinner : Inner b b') (hext : Extends ∅ b b') :
    Realizes φs rest b' :=
  h.grow (N := fun _ _ _ => False) hreg hext hinner.drivers (List.Sublist.refl rest)
    (fun ha hf => .inl (hinner.named ha hf)) False.elim False.elim False.elim (fun _ => False.elim)
    fun _ _ _ _ _ hmem => .inl hmem

variable {x : Term Symbol} {sources : Array Nat} {s t n : Nat}

/-- What holds at the start joins the proposition that decides the state. -/
theorem join (h : Realizes φs ((⟨Keyword.holds, [x]⟩, sources) :: rest) b)
    (hs : b.Named ⟨Keyword.holds, [x]⟩ s) (hd : b.drivers.get? s = some n) :
    Realizes φs rest (b.linkAll sources.toList n) := by
  obtain ⟨x', t, hs', hn, -, hf, -⟩ := h.driver hd
  obtain rfl := (List.cons.inj (Atom.mk.inj (h.regular.named_inj hs' hs)).2).1
  obtain ⟨x'', hx'', hpending⟩ := h.pending List.mem_cons_self
  obtain rfl := (List.cons.inj (Atom.mk.inj hx'').2).1
  have hreg : (b.linkAll sources.toList n).Regular := by
    refine h.regular.linkAll hpending.kind (h.regular.named_kind hn) fun a ha => ?_
    rw [h.regular.named_inj ha hn]
    exact (by decide : Keyword.next ≠ Keyword.init)
  have hext : Extends ∅ b (b.linkAll sources.toList n) := extends_linkAll (.inr ⟨_, hn⟩)
  refine h.grow (N := fun a i j => a = ⟨Keyword.next, [x']⟩ ∧ i ∈ sources.toList ∧ j = n) hreg hext
    (drivers_linkAll b _ _) (List.sublist_cons_self _ _) (fun ha hf => ?_) ?_ ?_ ?_ ?_ ?_
  · have ha' := named_linkAll.1 ha
    rcases feeds_linkAll.1 hf with hold | ⟨hi, rfl⟩
    · exact .inl ⟨ha', hold⟩
    · exact .inr ⟨h.regular.named_inj ha' hn, hi, rfl⟩
  · rintro args i n' ⟨-, -, rfl⟩
    exact ⟨s, hd⟩
  · rintro args t s ⟨heq, -⟩
    exact absurd (congrArg Atom.relation heq) (by decide : Keyword.holds ≠ Keyword.next)
  · rintro args t s ⟨heq, -⟩
    exact absurd (congrArg Atom.relation heq) (by decide : Keyword.holds ≠ Keyword.next)
  · rintro a i id - ⟨rfl, hi, rfl⟩
    obtain ⟨φ, hφ, hhead, hcomputes⟩ := hpending.sound i hi
    exact .inr ⟨x', rfl, φ, hφ, hhead, hcomputes.grow hext⟩
  · intro φ hφ y sources' hhead hmem
    rcases List.mem_cons.1 hmem with heq | hmem'
    · obtain rfl := (List.cons.inj (Atom.mk.inj (Prod.mk.inj heq).1).2).1
      refine .inr ⟨s, t, named_linkAll.2 hs, hext.feeds hf, fun n' hn' => ?_⟩
      rw [drivers_linkAll] at hn'
      obtain rfl := Option.some.inj (hd.symm.trans hn')
      obtain ⟨i, hi, hcomputes⟩ := hpending.complete φ hφ hhead
      exact ⟨i, feeds_linkAll.2 (.inr ⟨hi, rfl⟩), hcomputes.grow hext⟩
    · exact .inl hmem'

/-- What holds at the start gets a transition of its own. -/
theorem decide (h : Realizes φs ((⟨Keyword.holds, [x]⟩, sources) :: rest) b)
    (hs : b.Named ⟨Keyword.holds, [x]⟩ s) (hd : b.drivers.get? s = none)
    (hdecides : Decides b b' s t sources.toList) : Realizes φs rest b' := by
  obtain ⟨x', hx', hpending⟩ := h.pending List.mem_cons_self
  obtain rfl := (List.cons.inj (Atom.mk.inj hx').2).1
  have hunfed : ∀ t', ¬ b.Feeds t' s := by
    intro t' ht'
    rcases h.state hs ht' with hsome | ⟨-, y, hy, hnot, -⟩
    · simp [hd] at hsome
    · obtain rfl := (List.cons.inj hy).1
      exact hnot _ List.mem_cons_self rfl
  have hs' := hdecides.ext.named hs
  have hother : ∀ {i}, b'.Feeds i s → i = t := fun hf =>
    ((hdecides.named hs' hf).resolve_left (hunfed _)).1
  refine h.grow (N := fun a i j => a = ⟨Keyword.holds, [x]⟩ ∧ i = t ∧ j = s) hdecides.regular hdecides.ext
    hdecides.drivers (List.sublist_cons_self _ _) (fun ha hf => ?_) ?_ ?_ ?_ ?_ ?_
  · rcases hdecides.named ha hf with hold | ⟨rfl, rfl⟩
    · exact .inl ⟨hdecides.ext.named_old ha (h.regular.feeds_lt hold).2, hold⟩
    · exact .inr ⟨hdecides.regular.named_inj ha hs', rfl, rfl⟩
  · rintro args i n ⟨heq, -⟩
    exact absurd (congrArg Atom.relation heq) (by decide : Keyword.next ≠ Keyword.holds)
  · rintro args t' s' ⟨-, rfl, rfl⟩ t'' ht''
    exact hother ht''
  · rintro args t' s' ⟨heq, rfl, rfl⟩
    refine ⟨hdecides.transition, x, (Atom.mk.inj heq).2, fun p hp hname => ?_, hpending.exists_formula,
      (hpending.grow hdecides.ext).computes hdecides.passes⟩
    exact (List.nodup_cons.1 h.nodup).1 (List.mem_map.2 ⟨p, hp, hname⟩)
  · rintro a i id hrel ⟨rfl, -, -⟩
    exact absurd rfl hrel
  · intro φ hφ y sources' hhead hmem
    rcases List.mem_cons.1 hmem with heq | hmem'
    · obtain rfl := (List.cons.inj (Atom.mk.inj (Prod.mk.inj heq).1).2).1
      refine .inr ⟨s, t, hs', hdecides.feeds, fun n hn => ?_⟩
      rw [hdecides.drivers, hd] at hn
      cases hn
    · exact .inl hmem'

theorem wireInitial {name : Atom Symbol} (h : Realizes φs ((name, sources) :: rest) b) :
    Realizes φs rest (b.wireInitial name sources) := by
  obtain ⟨x, rfl, hpending⟩ := h.pending List.mem_cons_self
  obtain ⟨hreg, hext, hinner, hs⟩ := named_spec (O := ∅) h.regular ⟨Keyword.holds, [x]⟩
  have h1 := h.inner hreg hinner hext
  unfold Assembly.wireInitial
  dsimp only
  cases hd : (b.named ⟨Keyword.holds, [x]⟩).2.drivers.get? (b.named ⟨Keyword.holds, [x]⟩).1 with
  | some n => exact h1.join hs hd
  | none => exact h1.decide hs hd (addDriver_spec hreg hs (hpending.grow hext).kind)

theorem wireAll (h : Realizes φs rest b) :
    Realizes φs [] (rest.foldl (fun b (name, sources) => b.wireInitial name sources) b) := by
  induction rest generalizing b with
  | nil => exact h
  | cons p rest ih => exact ih h.wireInitial

/-- A proposition about the state that is fed is one that the formulas speak about. -/
theorem exists_head {args : List (Term Symbol)} (h : Realizes φs [] b) (hs : b.Named ⟨Keyword.holds, args⟩ s)
    (ht : b.Feeds t s) : ∃ x, args = [x] ∧
      ∃ φ ∈ φs, φ.head? = some ⟨Keyword.next, [x]⟩ ∨ φ.head? = some ⟨Keyword.init, [x]⟩ := by
  rcases h.state hs ht with hsome | ⟨-, x, hx, -, ⟨φ, hφ, hhead⟩, -⟩
  · obtain ⟨n, hd⟩ := Option.isSome_iff_exists.1 hsome
    obtain ⟨x, -, hs', hn, -⟩ := h.driver hd
    obtain ⟨x', hn', φ, hφ, hhead⟩ := h.driven hd
    rw [h.regular.named_inj hn' hn] at hhead
    exact ⟨x, (Atom.mk.inj (h.regular.named_inj hs hs')).2, φ, hφ, .inl hhead⟩
  · exact ⟨x, hx, φ, hφ, .inr hhead⟩

/-- A formula about the start feeds what decides the state. -/
theorem exists_feeds_start {φ : Formula Symbol} (h : Realizes φs [] b) (hφ : φ ∈ φs)
    (hhead : φ.head? = some ⟨Keyword.init, [x]⟩) (hs : b.Named ⟨Keyword.holds, [x]⟩ s)
    (hd : b.drivers.get? s = some n) : ∃ i, b.Feeds i n ∧ Computes ∅ b i φ.AppliesAtStart := by
  obtain ⟨x', hx', hor⟩ := h.start φ hφ hhead
  obtain rfl := (List.cons.inj hx').1
  obtain ⟨s', -, hs', -, hjoined⟩ := hor.resolve_left fun ⟨_, hmem⟩ => List.not_mem_nil hmem
  obtain rfl := hs'.eq hs
  exact hjoined n hd

end Realizes

/-- Once everything that holds at the start is linked, just what the formulas conclude is. -/
theorem realizes_wireAllInitial (h : Represents φs b) : Realizes φs [] b.wireAllInitial :=
  (Realizes.of_represents h).wireAll

end Assembly

end GameCircuit
