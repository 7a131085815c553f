import GameCircuit.Circuit.Assembly
import GameCircuit.Proofs.Meaning
import GameCircuit.Proofs.OrderedMaps
import GameCircuit.Proofs.Sequences

/-!
# What the components of an assembly compute

Truth values obey an assembly under an interpretation if each named proposition says whether its atom is
in the interpretation, and every other component has the value that the components feeding it give
(`Assembly.Obeys`).

An assembly only ever grows (`Assembly.Extends`): components and names stay, and of the components that
are there only named propositions are fed anew, and those that are still open.  A component therefore
goes on to compute what it computes (`Assembly.Computes`), and what is proved of a literal or a gate when
it is added holds of the whole circuit.
-/

namespace GameCircuit

namespace Assembly

/-- The component `i` feeds the component `j`. -/
def Feeds (b : Assembly) (i j : Nat) : Prop := i ∈ b.feeders j

/-- `id` is the proposition of the atom. -/
def Named (b : Assembly) (a : Atom Symbol) (id : Nat) : Prop := b.names.get? a = some id

/-- The value that the components feeding a component give it, by what it is. -/
def Drives (b : Assembly) (w : Nat → Prop) (id : Nat) : Kind → Prop
  | .proposition _ _ => ∃ i, b.Feeds i id ∧ w i
  | .and => ∀ i, b.Feeds i id → w i
  | .or => ∃ i, b.Feeds i id ∧ w i
  | .not => ¬ ∃ i, b.Feeds i id ∧ w i
  | .constant value => value = true
  | .transition => ∃ i, b.Feeds i id ∧ w i

/-- The truth values agree with the interpretation on the named propositions, and every other component, those
in `O` aside, has the value that the components feeding it give. -/
structure Obeys (O : Set Nat) (b : Assembly) (w : Nat → Prop) (I : Set (Atom Symbol)) : Prop where
  named : ∀ {a id}, b.Named a id → (w id ↔ a ∈ I)
  constant : ∀ {id : Nat} {value : Bool}, b.kinds[id]? = some (.constant value) → (w id ↔ value = true)
  law : ∀ {id : Nat} {kind : Kind}, b.kinds[id]? = some kind → id ∉ O → (∀ a, ¬ b.Named a id) →
    (w id ↔ b.Drives w id kind)

/-- The component has the value that `P` gives for the interpretation, whatever feeds the components in
`O`. -/
def Computes (O : Set Nat) (b : Assembly) (id : Nat) (P : Set (Atom Symbol) → Prop) : Prop :=
  ∀ ⦃w I⦄, Obeys O b w I → (w id ↔ P I)

variable {b b' : Assembly} {O O' : Set Nat} {w : Nat → Prop} {I : Set (Atom Symbol)} {a : Atom Symbol}
  {i j id : Nat} {kind : Kind} {P : Set (Atom Symbol) → Prop}

theorem Named.eq (h : b.Named a i) (h' : b.Named a j) : i = j := Option.some.inj (h.symm.trans h')

theorem Named.computes (h : b.Named a id) : Computes O b id fun I => a ∈ I := fun _ _ hw => hw.named h

theorem drives_congr (h : ∀ i, b'.Feeds i id ↔ b.Feeds i id) : b'.Drives w id kind ↔ b.Drives w id kind := by
  cases kind <;> simp only [Drives, h]

theorem Obeys.mono (h : Obeys O b w I) (hO : O ⊆ O') : Obeys O' b w I :=
  ⟨h.named, h.constant, fun hid hmem => h.law hid fun hmem' => hmem (hO hmem')⟩

theorem Computes.mono (h : Computes O' b id P) (hO : O ⊆ O') : Computes O b id P :=
  fun _ _ hw => h (hw.mono hO)

/-! ## Growth -/

/-- What assembling leaves alone: of the components that are there, only named propositions and those in
`O` are fed anew. -/
structure Extends (O : Set Nat) (b b' : Assembly) : Prop where
  kinds : ∀ {id : Nat} {kind : Kind}, b.kinds[id]? = some kind → b'.kinds[id]? = some kind
  named : ∀ {a id}, b.Named a id → b'.Named a id
  named_old : ∀ {a id}, b'.Named a id → id < b.kinds.size → b.Named a id
  feeds : ∀ {i j}, b.Feeds i j → b'.Feeds i j
  feeds_old : ∀ {i j}, b'.Feeds i j → j < b.kinds.size → j ∉ O → (∀ a, ¬ b.Named a j) → b.Feeds i j

namespace Extends

theorem refl (b : Assembly) : Extends O b b :=
  ⟨fun h => h, fun h => h, fun h _ => h, fun h => h, fun h _ _ _ => h⟩

theorem mono (h : Extends O b b') (hO : O ⊆ O') : Extends O' b b' :=
  ⟨h.kinds, h.named, h.named_old, h.feeds, fun hf hlt hj => h.feeds_old hf hlt fun hjO => hj (hO hjO)⟩

theorem size_le (h : Extends O b b') : b.kinds.size ≤ b'.kinds.size := by
  by_contra hlt
  have hlast : b'.kinds.size < b.kinds.size := Nat.lt_of_not_le hlt
  have hkind := h.kinds (Array.getElem?_eq_getElem hlast)
  exact absurd (Array.getElem?_eq_some_iff.1 hkind).1 (Nat.lt_irrefl _)

/-- A component that is there has a name later only if it has it now. -/
theorem not_named (h : Extends O b b') (hid : b.kinds[id]? = some kind) (hnot : ∀ a, ¬ b.Named a id) :
    ∀ a, ¬ b'.Named a id :=
  fun a ha => hnot a (h.named_old ha (Array.getElem?_eq_some_iff.1 hid).1)

theorem trans {b1 b2 b3 : Assembly} (h1 : Extends O b1 b2) (h2 : Extends O b2 b3) : Extends O b1 b3 where
  kinds h := h2.kinds (h1.kinds h)
  named h := h2.named (h1.named h)
  named_old h hlt := h1.named_old (h2.named_old h (Nat.lt_of_lt_of_le hlt h1.size_le)) hlt
  feeds h := h2.feeds (h1.feeds h)
  feeds_old h hlt hO hnot := by
    have hlt2 := Nat.lt_of_lt_of_le hlt h1.size_le
    refine h1.feeds_old (h2.feeds_old h hlt2 hO fun a ha => ?_) hlt hO hnot
    exact hnot a (h1.named_old ha hlt)

/-- What is open only among the components that were added is closed for those that were there. -/
theorem close (h : Extends O b b') (hO : ∀ j ∈ O, b.kinds.size ≤ j) : Extends ∅ b b' where
  kinds := h.kinds
  named := h.named
  named_old := h.named_old
  feeds := h.feeds
  feeds_old hf hlt _ hnot := h.feeds_old hf hlt (fun hj => absurd hlt (Nat.not_lt.2 (hO _ hj))) hnot

theorem feeds_iff (h : Extends O b b') (hid : b.kinds[id]? = some kind) (hnot : ∀ a, ¬ b.Named a id)
    (hO : id ∉ O) : b'.Feeds i id ↔ b.Feeds i id :=
  ⟨fun hf => h.feeds_old hf (Array.getElem?_eq_some_iff.1 hid).1 hO hnot, h.feeds⟩

/-- What the components obey later they obey now. -/
theorem obeys (h : Extends O b b') (hw : Obeys O b' w I) : Obeys O b w I where
  named ha := hw.named (h.named ha)
  constant hid := hw.constant (h.kinds hid)
  law hid hO hnot :=
    (hw.law (h.kinds hid) hO (h.not_named hid hnot)).trans (drives_congr fun _ => h.feeds_iff hid hnot hO)

end Extends

theorem Computes.grow (h : Computes O b id P) (hb : Extends O b b') : Computes O b' id P :=
  fun _ _ hw => h (hb.obeys hw)

/-! ## Elementary operations -/

theorem feeds_link {s t : Nat} : (b.link s t).Feeds i j ↔ b.Feeds i j ∨ i = s ∧ j = t :=
  Neighbours.mem_of_note

theorem feeds_unlink {s t : Nat} : (b.unlink s t).Feeds i j ↔ b.Feeds i j ∧ ¬ (i = s ∧ j = t) :=
  Neighbours.mem_of_forget

theorem getElem?_add (b : Assembly) (kind : Kind) :
    (b.add kind).2.kinds[id]? = if id = b.kinds.size then some kind else b.kinds[id]? :=
  Array.getElem?_push

theorem size_add (b : Assembly) (kind : Kind) : (b.add kind).2.kinds.size = b.kinds.size + 1 :=
  Array.size_push _

theorem extends_add (b : Assembly) (kind : Kind) : Extends O b (b.add kind).2 where
  kinds {id kind'} h := by
    have hlt := (Array.getElem?_eq_some_iff.1 h).1
    rw [getElem?_add, if_neg (Nat.ne_of_lt hlt)]
    exact h
  named h := h
  named_old h _ := h
  feeds h := h
  feeds_old h _ _ _ := h

/-- Feeding a component that is open or named. -/
theorem extends_link {s t : Nat} (ht : t ∈ O ∨ ∃ a, b.Named a t) : Extends O b (b.link s t) where
  kinds h := h
  named h := h
  named_old h _ := h
  feeds h := feeds_link.2 (.inl h)
  feeds_old h _ hO hnot := by
    rcases feeds_link.1 h with hold | ⟨-, rfl⟩
    · exact hold
    · rcases ht with hmem | ⟨a, ha⟩
      · exact absurd hmem hO
      · exact absurd ha (hnot a)

/-- The proposition of an atom that had none is added behind all others, and nothing else changes. -/
structure AddsName (b b' : Assembly) (a : Atom Symbol) : Prop where
  size : b'.kinds.size = b.kinds.size + 1
  kinds : ∀ {id : Nat}, id < b.kinds.size → b'.kinds[id]? = b.kinds[id]?
  kind : b'.kinds[b.kinds.size]? = some (.proposition a none)
  named_iff : ∀ {a' id}, b'.Named a' id ↔ b.Named a' id ∨ a' = a ∧ id = b.kinds.size
  feeds_iff : ∀ {i j}, b'.Feeds i j ↔ b.Feeds i j
  drivers : b'.drivers = b.drivers
  initial : b'.initial = b.initial

/-- The proposition of an atom is found, or added if there is none. -/
theorem named_cases (b : Assembly) (a : Atom Symbol) :
    (∃ id, b.Named a id ∧ b.named a = (id, b)) ∨ (b.named a).1 = b.kinds.size ∧ AddsName b (b.named a).2 a := by
  cases ha : b.names.get? a with
  | some id => exact .inl ⟨id, ha, by rw [named, ha]⟩
  | none =>
    set b' : Assembly := { (b.add (.proposition a none)).2 with names := b.names.insert a b.kinds.size } with hb'
    have heq : b.named a = (b.kinds.size, b') := by
      rw [named, ha]
      rfl
    rw [heq]
    have hself : b'.Named a b.kinds.size := OrderedMap.get?_insert_self _
    refine .inr ⟨rfl, size_add b _, fun hlt => ?_, ?_, fun {a' id} => ?_, Iff.rfl, rfl, rfl⟩
    · exact (getElem?_add b _).trans (if_neg (Nat.ne_of_lt hlt))
    · exact (getElem?_add b _).trans (if_pos rfl)
    · by_cases hne : a = a'
      · subst hne
        have hnot : ¬ b.Named a id := by
          rw [Named, ha]
          exact Option.some_ne_none id ∘ Eq.symm
        rw [or_iff_right hnot, and_iff_right rfl]
        exact ⟨fun ha' => ha'.eq hself, fun hid => hid ▸ hself⟩
      · rw [Named, hb', OrderedMap.get?_insert_of_ne _ hne, or_iff_left fun ha' => hne ha'.1.symm]
        exact Iff.rfl

namespace AddsName

variable (h : AddsName b b' a)

include h

/-- A component was there, or is the new proposition. -/
theorem kind_cases (hid : b'.kinds[id]? = some kind) :
    b.kinds[id]? = some kind ∨ id = b.kinds.size ∧ kind = .proposition a none := by
  by_cases hlt : id < b.kinds.size
  · rw [h.kinds hlt] at hid
    exact .inl hid
  · have hid' := (Array.getElem?_eq_some_iff.1 hid).1
    have hsize := h.size
    obtain rfl : id = b.kinds.size := by omega
    exact .inr ⟨rfl, Option.some.inj (hid.symm.trans h.kind)⟩

theorem kinds_old (hid : b.kinds[id]? = some kind) : b'.kinds[id]? = some kind :=
  (h.kinds (Array.getElem?_eq_some_iff.1 hid).1).trans hid

theorem named_old {a' : Atom Symbol} (ha' : b'.Named a' id) (hlt : id < b.kinds.size) : b.Named a' id := by
  rcases h.named_iff.1 ha' with hold | ⟨-, rfl⟩
  · exact hold
  · exact absurd hlt (Nat.lt_irrefl _)

theorem ext : Extends O b b' where
  kinds := h.kinds_old
  named ha := h.named_iff.2 (.inl ha)
  named_old := h.named_old
  feeds := h.feeds_iff.2
  feeds_old hf _ _ _ := h.feeds_iff.1 hf

end AddsName

/-- What every assembly satisfies. -/
structure Regular (b : Assembly) : Prop where
  named_kind : ∀ {a id}, b.Named a id → b.kinds[id]? = some (.proposition a none)
  own : ∀ {a : Atom Symbol} {id : Nat} {underlying : Option (Atom Symbol)},
    b.kinds[id]? = some (.proposition a underlying) →
    underlying = none ∧ (b.Named a id ∨ a = ⟨Keyword.anonymous, []⟩)
  feeds_lt : ∀ {i j}, b.Feeds i j → i < b.kinds.size ∧ j < b.kinds.size
  trueConstant : b.kinds[Assembly.trueConstant]? = some (.constant true)
  falseConstant : b.kinds[Assembly.falseConstant]? = some (.constant false)
  start : b.Named ⟨Keyword.start, []⟩ startProposition
  single : ∀ {i i' j : Nat}, b.kinds[j]? = some .not ∨ b.kinds[j]? = some .transition → b.Feeds i j →
    b.Feeds i' j → i = i'
  transition : ∀ {i j : Nat}, b.kinds[i]? = some .transition → b.Feeds i j →
    ∃ args, b.Named ⟨Keyword.holds, args⟩ j
  init : ∀ {i j a}, b.Named a j → a.relation = Keyword.init → ¬ b.Feeds i j

namespace Regular

theorem named_lt (h : b.Regular) (ha : b.Named a id) : id < b.kinds.size :=
  (Array.getElem?_eq_some_iff.1 (h.named_kind ha)).1

theorem named_inj (h : b.Regular) {a' : Atom Symbol} (ha : b.Named a id) (ha' : b.Named a' id) : a = a' := by
  have heq := (h.named_kind ha).symm.trans (h.named_kind ha')
  exact (Kind.proposition.inj (Option.some.inj heq)).1

/-- A component that is no proposition has no name. -/
theorem not_named (h : b.Regular) (hid : b.kinds[id]? = some kind) (hkind : kind.isProposition = false) :
    ∀ a, ¬ b.Named a id := by
  intro a ha
  have heq := (h.named_kind ha).symm.trans hid
  rw [← Option.some.inj heq] at hkind
  cases hkind

theorem add (h : b.Regular) (hkind : kind.isProposition = false ∨
    kind = .proposition ⟨Keyword.anonymous, []⟩ none) : (b.add kind).2.Regular where
  named_kind ha := (extends_add b kind (O := ∅)).kinds (h.named_kind ha)
  own hid := by
    rw [getElem?_add] at hid
    split_ifs at hid
    · rcases hkind with hkind | rfl
      · rw [Option.some.inj hid] at hkind
        cases hkind
      · obtain ⟨rfl, rfl⟩ := Kind.proposition.inj (Option.some.inj hid)
        exact ⟨rfl, .inr rfl⟩
    · exact h.own hid
  feeds_lt hf := by
    obtain ⟨h1, h2⟩ := h.feeds_lt hf
    rw [size_add]
    omega
  trueConstant := (extends_add b kind (O := ∅)).kinds h.trueConstant
  falseConstant := (extends_add b kind (O := ∅)).kinds h.falseConstant
  start := h.start
  single {i i' j} hj hi hi' := by
    have hlt := (h.feeds_lt hi).2
    rw [getElem?_add, if_neg (Nat.ne_of_lt hlt)] at hj
    exact h.single hj hi hi'
  transition {i j} hi hf := by
    have hlt := (h.feeds_lt hf).1
    rw [getElem?_add, if_neg (Nat.ne_of_lt hlt)] at hi
    exact h.transition hi hf
  init := h.init

theorem link (h : b.Regular) {s t : Nat} (hs : s < b.kinds.size) (ht : t < b.kinds.size)
    (hsingle : b.kinds[t]? = some .not ∨ b.kinds[t]? = some .transition → ∀ i, ¬ b.Feeds i t)
    (htransition : b.kinds[s]? = some .transition → ∃ args, b.Named ⟨Keyword.holds, args⟩ t)
    (hinit : ∀ a, b.Named a t → a.relation ≠ Keyword.init) : (b.link s t).Regular where
  named_kind := h.named_kind
  own := h.own
  feeds_lt hf := by
    rcases feeds_link.1 hf with hold | ⟨rfl, rfl⟩
    · exact h.feeds_lt hold
    · exact ⟨hs, ht⟩
  trueConstant := h.trueConstant
  falseConstant := h.falseConstant
  start := h.start
  single hj hi hi' := by
    rcases feeds_link.1 hi with hold | ⟨rfl, rfl⟩
    · rcases feeds_link.1 hi' with hold' | ⟨rfl, rfl⟩
      · exact h.single hj hold hold'
      · exact absurd hold (hsingle hj _)
    · rcases feeds_link.1 hi' with hold' | ⟨rfl, -⟩
      · exact absurd hold' (hsingle hj _)
      · rfl
  transition hi hf := by
    rcases feeds_link.1 hf with hold | ⟨rfl, rfl⟩
    · exact h.transition hi hold
    · exact htransition hi
  init ha hrel hf := by
    rcases feeds_link.1 hf with hold | ⟨rfl, rfl⟩
    · exact h.init ha hrel hold
    · exact hinit _ ha hrel

end Regular

/-! ## Building inside

Literals and gates feed no named proposition. -/

/-- No named proposition is fed anew, and what is known about states stays. -/
structure Inner (b b' : Assembly) : Prop where
  named : ∀ {a i j}, b'.Named a j → b'.Feeds i j → b.Named a j ∧ b.Feeds i j
  drivers : b'.drivers = b.drivers
  initial : b'.initial = b.initial

namespace Inner

theorem refl (b : Assembly) : Inner b b := ⟨fun h h' => ⟨h, h'⟩, rfl, rfl⟩

theorem trans {b1 b2 b3 : Assembly} (h1 : Inner b1 b2) (h2 : Inner b2 b3) : Inner b1 b3 where
  named ha hf := by
    obtain ⟨ha', hf'⟩ := h2.named ha hf
    exact h1.named ha' hf'
  drivers := h2.drivers.trans h1.drivers
  initial := h2.initial.trans h1.initial

theorem add (b : Assembly) (kind : Kind) : Inner b (b.add kind).2 := ⟨fun h h' => ⟨h, h'⟩, rfl, rfl⟩

theorem link {s t : Nat} (ht : ∀ a, ¬ b.Named a t) : Inner b (b.link s t) where
  named ha hf := by
    rcases feeds_link.1 hf with hold | ⟨rfl, rfl⟩
    · exact ⟨ha, hold⟩
    · exact absurd ha (ht _)
  drivers := rfl
  initial := rfl

end Inner

/-- The new component of an assembly has no name and is not fed. -/
theorem Regular.fresh (h : b.Regular) :
    (∀ a, ¬ b.Named a b.kinds.size) ∧ ∀ i, ¬ b.Feeds i b.kinds.size :=
  ⟨fun _ ha => Nat.lt_irrefl _ (h.named_lt ha), fun _ hf => Nat.lt_irrefl _ (h.feeds_lt hf).2⟩

theorem AddsName.inner (h : AddsName b b' a) (hreg : b.Regular) : Inner b b' where
  named ha hf := by
    have hold := h.feeds_iff.1 hf
    exact ⟨h.named_old ha (hreg.feeds_lt hold).2, hold⟩
  drivers := h.drivers
  initial := h.initial

theorem AddsName.regular (h : AddsName b b' a) (hreg : b.Regular) : b'.Regular where
  named_kind ha := by
    rcases h.named_iff.1 ha with hold | ⟨rfl, rfl⟩
    · exact h.kinds_old (hreg.named_kind hold)
    · exact h.kind
  own hid := by
    rcases h.kind_cases hid with hold | ⟨rfl, heq⟩
    · exact ⟨(hreg.own hold).1, (hreg.own hold).2.imp_left fun ha => h.named_iff.2 (.inl ha)⟩
    · obtain ⟨rfl, rfl⟩ := Kind.proposition.inj heq
      exact ⟨rfl, .inl (h.named_iff.2 (.inr ⟨rfl, rfl⟩))⟩
  feeds_lt hf := by
    obtain ⟨h1, h2⟩ := hreg.feeds_lt (h.feeds_iff.1 hf)
    have hsize := h.size
    omega
  trueConstant := h.kinds_old hreg.trueConstant
  falseConstant := h.kinds_old hreg.falseConstant
  start := h.named_iff.2 (.inl hreg.start)
  single hj hi hi' := by
    rw [h.feeds_iff] at hi hi'
    rw [h.kinds (hreg.feeds_lt hi).2] at hj
    exact hreg.single hj hi hi'
  transition hi hf := by
    rw [h.feeds_iff] at hf
    rw [h.kinds (hreg.feeds_lt hf).1] at hi
    obtain ⟨args, hargs⟩ := hreg.transition hi hf
    exact ⟨args, h.named_iff.2 (.inl hargs)⟩
  init ha hrel hf := by
    rw [h.feeds_iff] at hf
    exact hreg.init (h.named_old ha (hreg.feeds_lt hf).2) hrel hf

/-- The proposition of an atom is there afterwards, and nothing is fed. -/
theorem named_spec (h : b.Regular) (a : Atom Symbol) :
    (b.named a).2.Regular ∧ Extends O b (b.named a).2 ∧ Inner b (b.named a).2 ∧
      (b.named a).2.Named a (b.named a).1 := by
  rcases b.named_cases a with ⟨id, ha, heq⟩ | ⟨hid, hadds⟩
  · rw [heq]
    exact ⟨h, Extends.refl b, Inner.refl b, ha⟩
  · exact ⟨hadds.regular h, hadds.ext, hadds.inner h, hadds.named_iff.2 (.inr ⟨rfl, hid⟩)⟩

/-- Adds a component that is fed by another one. -/
def addFed (b : Assembly) (source : Nat) (kind : Kind) : Assembly := (b.add kind).2.link source b.kinds.size

/-- The new component is fed by one component only, and nothing else is. -/
structure Fed (b : Assembly) (source : Nat) (kind : Kind) : Prop where
  regular : (b.addFed source kind).Regular
  ext : Extends ∅ b (b.addFed source kind)
  inner : Inner b (b.addFed source kind)
  is_kind : (b.addFed source kind).kinds[b.kinds.size]? = some kind
  not_named : ∀ a, ¬ (b.addFed source kind).Named a b.kinds.size
  feeds_iff : ∀ i, (b.addFed source kind).Feeds i b.kinds.size ↔ i = source

theorem size_addFed {source : Nat} : (b.addFed source kind).kinds.size = b.kinds.size + 1 := size_add b kind

/-- A component may be fed by any that is no transition. -/
theorem Regular.fed (h : b.Regular) {source : Nat} {kind' : Kind}
    (hsource : b.kinds[source]? = some kind') (hkind' : kind' ≠ .transition)
    (hkind : kind.isProposition = false ∨ kind = .proposition ⟨Keyword.anonymous, []⟩ none) :
    Fed b source kind := by
  obtain ⟨hnot, hunfed⟩ := h.fresh
  have hadd := h.add hkind
  have hext := extends_add b kind (O := {b.kinds.size})
  have hlt := (Array.getElem?_eq_some_iff.1 hsource).1
  have hsize := size_add b kind
  have hself : (b.add kind).2.kinds[b.kinds.size]? = some kind := by rw [getElem?_add, if_pos rfl]
  refine ⟨hadd.link (by omega) (by omega) (fun _ => hunfed) (fun ht => ?_) (fun a ha => absurd ha (hnot a)),
    (hext.trans (extends_link (.inl rfl))).close fun j hj => Nat.le_of_eq hj.symm,
    (Inner.add b kind).trans (Inner.link hnot), hself, hnot, fun i => ?_⟩
  · rw [hext.kinds hsource] at ht
    exact absurd (Option.some.inj ht) hkind'
  · rw [addFed, feeds_link]
    exact ⟨fun hor => hor.elim (fun hf => absurd hf (hunfed i)) (·.1), fun heq => .inr ⟨heq, rfl⟩⟩

/-- What the new component gets from its source. -/
theorem Fed.law {source : Nat} (h : Fed b source kind) (hw : Obeys O (b.addFed source kind) w I)
    (hO : b.kinds.size ∉ O) : w b.kinds.size ↔ (b.addFed source kind).Drives w b.kinds.size kind :=
  hw.law h.is_kind hO h.not_named

/-- The component of a literal. -/
structure IsInput (b b' : Assembly) (id : Nat) (P : Set (Atom Symbol) → Prop) : Prop where
  regular : b'.Regular
  ext : Extends ∅ b b'
  inner : Inner b b'
  kind : ∃ name, b'.kinds[id]? = some (.proposition name none)
  -- it computes `P`, whatever comes to feed the components that were there
  computes : Computes {j | j < b.kinds.size} b' id P

/-- Every atom that is accepted gets a component. -/
theorem atomInput_spec (h : b.Regular) {relation : Symbol} (hrun : b.atomInput relation a = .ok (id, b')) :
    IsInput b b' id fun I => a.TrueIn I := by
  unfold atomInput at hrun
  split_ifs at hrun with hd
  · split at hrun
    · rename_i s t hargs
      set source := if s = t then falseConstant else trueConstant with hsource
      obtain ⟨rfl, rfl⟩ : b.kinds.size = id ∧
          b.addFed source (.proposition ⟨Keyword.anonymous, []⟩ none) = b' :=
        Prod.mk.inj (Except.ok.inj hrun)
      have hconstant : b.kinds[source]? = some (.constant (decide (s ≠ t))) := by
        by_cases hst : s = t
        · simp [hsource, hst, h.falseConstant]
        · simp [hsource, hst, h.trueConstant]
      have hfed : Fed b source (.proposition ⟨Keyword.anonymous, []⟩ none) :=
        h.fed hconstant (by simp) (.inr rfl)
      refine ⟨hfed.regular, hfed.ext, hfed.inner, ⟨_, hfed.is_kind⟩, fun w I hw => ?_⟩
      have hvalue := hw.constant (hfed.ext.kinds hconstant)
      rw [hfed.law hw (Nat.lt_irrefl _), Atom.trueIn_of_distinct hd, Drives, Atom.Differs, hargs]
      simp only [hfed.feeds_iff, exists_eq_left]
      rw [hvalue, decide_eq_true_iff]
    · cases hrun
  · obtain ⟨hreg, hext, hinner, hnamed⟩ := named_spec (O := ∅) h a
    rw [Except.ok.inj hrun] at hreg hext hinner hnamed
    refine ⟨hreg, hext, hinner, ⟨_, hreg.named_kind hnamed⟩, fun w I hw => ?_⟩
    rw [Atom.trueIn_of_ne_distinct hd]
    exact hnamed.computes hw

/-- Every literal that is accepted gets a component. -/
theorem literalInput_spec (h : b.Regular) {relation : Symbol} {φ : Formula Symbol}
    (hrun : b.literalInput relation φ = .ok (id, b')) : IsInput b b' id fun I => φ.TrueIn I := by
  unfold literalInput at hrun
  split at hrun
  · exact atomInput_spec h hrun
  · rename_i a
    cases hatom : b.atomInput relation a with
    | error e => simp [hatom] at hrun
    | ok r =>
      obtain ⟨input, b1⟩ := r
      obtain ⟨hreg1, hext1, hinner1, ⟨name, hinput⟩, hcomputes⟩ := atomInput_spec h hatom
      rw [hatom] at hrun
      -- the gate and the proposition are added first and then linked
      have hgate : Fed b1 input .not := hreg1.fed hinput (by simp) (.inl rfl)
      have hout : Fed (b1.addFed input .not) b1.kinds.size (.proposition ⟨Keyword.anonymous, []⟩ none) :=
        hgate.regular.fed hgate.is_kind (by simp) (.inr rfl)
      obtain ⟨rfl, rfl⟩ : (b1.addFed input .not).kinds.size = id ∧
          (b1.addFed input .not).addFed b1.kinds.size (.proposition ⟨Keyword.anonymous, []⟩ none) = b' :=
        Prod.mk.inj (Except.ok.inj hrun)
      have hle := hext1.size_le
      refine ⟨hout.regular, hext1.trans (hgate.ext.trans hout.ext),
        hinner1.trans (hgate.inner.trans hout.inner),
        ⟨_, hout.is_kind⟩, fun w I hw => ?_⟩
      have hwgate := (hout.ext.mono (Set.empty_subset _)).obeys hw
      have hinputlaw := hcomputes ((hgate.ext.mono (Set.empty_subset _)).obeys hwgate)
      have hgatelaw := hgate.law hwgate (Nat.not_lt.2 hle)
      rw [hout.law hw (Nat.not_lt.2 (by rw [size_addFed]; omega)), Drives]
      simp only [hout.feeds_iff, exists_eq_left]
      rw [hgatelaw, Drives]
      simp only [hgate.feeds_iff, exists_eq_left]
      rw [hinputlaw, Formula.trueIn_neg, Formula.trueIn_atom]
  · cases hrun

/-! ## Gates -/

theorem addLiteral_ok {relation : Symbol} {gate : Nat} {φ : Formula Symbol}
    (hrun : addLiteral relation gate b φ = .ok b') :
    ∃ input b0, b.literalInput relation φ = .ok (input, b0) ∧ b' = b0.link input gate := by
  unfold addLiteral at hrun
  cases hinput : b.literalInput relation φ with
  | error e => simp [hinput] at hrun
  | ok r =>
    obtain ⟨input, b0⟩ := r
    exact ⟨input, b0, rfl, by simpa [hinput, eq_comm] using hrun⟩

/-- The component `gate` is an `and` over components that compute the conditions. -/
structure Collects (gate : Nat) (conditions : List (Set (Atom Symbol) → Prop)) (b : Assembly) : Prop where
  regular : b.Regular
  kind : b.kinds[gate]? = some .and
  sound : ∀ {i}, b.Feeds i gate → ∃ P ∈ conditions, Computes {j | j ≤ gate} b i P
  -- each condition is computed by something that feeds the gate
  complete : ∀ P ∈ conditions, ∃ i, b.Feeds i gate ∧ Computes {j | j ≤ gate} b i P

namespace Collects

variable {gate : Nat} {conditions : List (Set (Atom Symbol) → Prop)}

theorem not_named (h : Collects gate conditions b) : ∀ a, ¬ b.Named a gate :=
  h.regular.not_named h.kind rfl

/-- A new gate collects nothing. -/
theorem add (h : b.Regular) : Collects b.kinds.size [] (b.add .and).2 where
  regular := h.add (.inl rfl)
  kind := by rw [getElem?_add, if_pos rfl]
  sound hf := absurd hf (h.fresh.2 _)
  complete _ hP := absurd hP List.not_mem_nil

/-- The gate keeps what it collects while nothing that is there is fed. -/
theorem grow (h : Collects gate conditions b) (hreg : b'.Regular) (hext : Extends ∅ b b') :
    Collects gate conditions b' where
  regular := hreg
  kind := hext.kinds h.kind
  sound hf := by
    obtain ⟨P, hP, hcomputes⟩ := h.sound ((hext.feeds_iff h.kind h.not_named (Set.notMem_empty _)).1 hf)
    exact ⟨P, hP, hcomputes.grow (hext.mono (Set.empty_subset _))⟩
  complete P hP := by
    obtain ⟨i, hf, hcomputes⟩ := h.complete P hP
    exact ⟨i, hext.feeds hf, hcomputes.grow (hext.mono (Set.empty_subset _))⟩

/-- One more component is linked to the gate. -/
theorem link (h : Collects gate conditions b) {source : Nat} (hkind : b.kinds[source]? = some kind)
    (htransition : kind ≠ .transition) (hP : Computes {j | j ≤ gate} b source P) :
    Collects gate (conditions ++ [P]) (b.link source gate) ∧ Extends {gate} b (b.link source gate) ∧
      Inner b (b.link source gate) := by
  have hext : Extends {gate} b (b.link source gate) := extends_link (.inl rfl)
  have hmono : Extends {j | j ≤ gate} b (b.link source gate) :=
    hext.mono fun j (hj : j = gate) => Nat.le_of_eq hj
  refine ⟨⟨?_, h.kind, fun {i} hf => ?_, fun P' hP' => ?_⟩, hext, Inner.link h.not_named⟩
  · refine h.regular.link (Array.getElem?_eq_some_iff.1 hkind).1 (Array.getElem?_eq_some_iff.1 h.kind).1
      (fun hor => ?_) (fun ht => ?_) fun a ha => absurd ha (h.not_named a)
    · rw [h.kind] at hor
      simp at hor
    · rw [hkind] at ht
      exact absurd (Option.some.inj ht) htransition
  · rcases feeds_link.1 hf with hold | ⟨rfl, -⟩
    · obtain ⟨P', hP', hcomputes⟩ := h.sound hold
      exact ⟨P', List.mem_append_left _ hP', hcomputes.grow hmono⟩
    · exact ⟨P, List.mem_append_right _ (List.mem_singleton.2 rfl), hP.grow hmono⟩
  · rcases List.mem_append.1 hP' with hold | hnew
    · obtain ⟨i, hf, hcomputes⟩ := h.complete P' hold
      exact ⟨i, feeds_link.2 (.inl hf), hcomputes.grow hmono⟩
    · obtain rfl := List.mem_singleton.1 hnew
      exact ⟨source, feeds_link.2 (.inr ⟨rfl, rfl⟩), hP.grow hmono⟩

/-- The gate says whether all the conditions hold. -/
theorem computes (h : Collects gate conditions b) :
    Computes {j | j < gate} b gate fun I => ∀ P ∈ conditions, P I := by
  intro w I hw
  have hw' : Obeys {j | j ≤ gate} b w I := hw.mono fun j (hj : j < gate) => Nat.le_of_lt hj
  rw [hw.law h.kind (Nat.lt_irrefl gate) h.not_named, Drives]
  constructor
  · intro hall P hP
    obtain ⟨i, hf, hcomputes⟩ := h.complete P hP
    exact (hcomputes hw').1 (hall i hf)
  · intro hall i hf
    obtain ⟨P, hP, hcomputes⟩ := h.sound hf
    exact (hcomputes hw').2 (hall P hP)

/-- Literals are linked to the gate one after the other. -/
theorem literals {relation : Symbol} {body : List (Formula Symbol)} (h : Collects gate conditions b)
    (hrun : foldSteps (addLiteral relation gate) b body = .ok b') :
    Collects gate (conditions ++ body.map fun φ I => φ.TrueIn I) b' ∧ Extends {gate} b b' ∧ Inner b b' := by
  induction body generalizing b conditions with
  | nil =>
    obtain rfl : b = b' := Except.ok.inj hrun
    exact ⟨by simpa using h, Extends.refl b, Inner.refl b⟩
  | cons φ body ih =>
    obtain ⟨b1, hstep, hrest⟩ := foldSteps_cons_ok.1 hrun
    obtain ⟨input, b0, hinput, rfl⟩ := addLiteral_ok hstep
    have hspec := literalInput_spec h.regular hinput
    obtain ⟨name, hkind⟩ := hspec.kind
    have hlt := (Array.getElem?_eq_some_iff.1 h.kind).1
    obtain ⟨hcollects, hext, hinner⟩ := (h.grow hspec.regular hspec.ext).link hkind (by simp)
      (hspec.computes.mono fun j (hj : j ≤ gate) => Nat.lt_of_le_of_lt hj hlt)
    obtain ⟨hcollects', hext', hinner'⟩ := ih hcollects hrest
    refine ⟨?_, ((hspec.ext.mono (Set.empty_subset _)).trans hext).trans hext',
      (hspec.inner.trans hinner).trans hinner'⟩
    simpa using hcollects'

end Collects

end Assembly

end GameCircuit
