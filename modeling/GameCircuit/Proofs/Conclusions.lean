import GameCircuit.Proofs.Wiring

/-!
# The facts and rules of an assembly

After the formulas of a ground description were added, the components that feed a named proposition are
those that say that a formula with this head applies (`Assembly.Cites`).  Propositions about the state
are the exception: each is fed by at most one transition, which passes on the proposition about the next
state (`Assembly.Linked`).  What holds at the start is written down in `initial` and not linked yet.
-/

namespace GameCircuit

namespace Formula

/-- All conditions of the formula are true. -/
def Applies (φ : Formula Symbol) (I : Set (Atom Symbol)) : Prop := ∀ ψ ∈ φ.body, ψ.TrueIn I

/-- All conditions of the formula are true, before the first state. -/
def AppliesAtStart (φ : Formula Symbol) (I : Set (Atom Symbol)) : Prop :=
  ⟨Keyword.start, []⟩ ∈ I ∧ φ.Applies I

end Formula

theorem concludes_iff {φs : List (Formula Symbol)} {I : Set (Atom Symbol)} {a : Atom Symbol} :
    Concludes φs I a ↔ ∃ φ ∈ φs, φ.head? = some a ∧ φ.Applies I := by
  constructor
  · rintro (hfact | ⟨body, hrule, hbody⟩)
    · exact ⟨_, hfact, rfl, by simp [Formula.Applies, Formula.body]⟩
    · exact ⟨_, hrule, rfl, hbody⟩
  · rintro ⟨φ, hφ, hhead, happlies⟩
    cases φ with
    | atom a' =>
      obtain rfl := Option.some.inj hhead
      exact .inl hφ
    | rule a' body =>
      obtain rfl := Option.some.inj hhead
      exact .inr ⟨body, hφ, happlies⟩
    | neg φ => cases hhead
    | disj φs => cases hhead

namespace Assembly

variable {b b' : Assembly} {φs : List (Formula Symbol)} {φ : Formula Symbol} {a : Atom Symbol}
  {id source : Nat} {kind : Kind}

/-! ## The invariants -/

/-- A transition of the proposition `n` about the next state feeds the proposition `s` about the state. -/
def DrivenBy (b : Assembly) (s n : Nat) : Prop :=
  ∃ x, ∃ t : Nat, b.Named ⟨Keyword.holds, [x]⟩ s ∧ b.Named ⟨Keyword.next, [x]⟩ n ∧
    b.kinds[t]? = some .transition ∧ b.Feeds t s ∧ ∀ i, b.Feeds i t ↔ i = n

theorem DrivenBy.grow {s n : Nat} (h : DrivenBy b s n) (hb : b.Regular) (hext : Extends ∅ b b') :
    DrivenBy b' s n := by
  obtain ⟨x, t, hs, hn, hkind, hfeeds, honly⟩ := h
  exact ⟨x, t, hext.named hs, hext.named hn, hext.kinds hkind, hext.feeds hfeeds,
    fun i => (hext.feeds_iff hkind (hb.not_named hkind rfl) (Set.notMem_empty _)).trans (honly i)⟩

/-- How propositions about the state depend on those about the next state. -/
structure Linked (b : Assembly) : Prop where
  driver : ∀ {s n}, b.drivers.get? s = some n → DrivenBy b s n
  fed : ∀ {args s t}, b.Named ⟨Keyword.holds, args⟩ s → b.Feeds t s →
    (b.drivers.get? s).isSome = true ∧ ∀ t', b.Feeds t' s → t' = t
  next : ∀ {args n i}, b.Named ⟨Keyword.next, args⟩ n → b.Feeds i n → ∃ s, b.drivers.get? s = some n

/-- Something that says that the formula applies feeds the proposition of the atom. -/
def Cited (b : Assembly) (φ : Formula Symbol) (a : Atom Symbol) : Prop :=
  ∃ id i, b.Named a id ∧ b.Feeds i id ∧ Computes ∅ b i φ.Applies

theorem Cited.grow (h : Cited b φ a) (hext : Extends ∅ b b') : Cited b' φ a := by
  obtain ⟨id, i, ha, hf, hcomputes⟩ := h
  exact ⟨id, i, hext.named ha, hext.feeds hf, hcomputes.grow hext⟩

/-- The other named propositions are fed by just what says that a formula with this head applies, and just
what says so is written down for the start. -/
structure Cites (φs : List (Formula Symbol)) (b : Assembly) : Prop where
  sound : ∀ {a id i}, b.Named a id → a.relation ≠ Keyword.holds → b.Feeds i id →
    ∃ φ ∈ φs, φ.head? = some a ∧ Computes ∅ b i φ.Applies
  complete : ∀ φ ∈ φs, ∀ {a}, φ.head? = some a → a.relation ≠ Keyword.init → Cited b φ a
  -- what is written down for the start says that a formula applies
  start_sound : ∀ {name sources}, b.initial.get? name = some sources →
    ∃ x, name = ⟨Keyword.holds, [x]⟩ ∧ (∃ φ ∈ φs, φ.head? = some ⟨Keyword.init, [x]⟩) ∧
      ∀ i ∈ sources.toList, (∃ kind, b.kinds[i]? = some kind ∧ kind ≠ .transition) ∧
        ∃ φ ∈ φs, φ.head? = some ⟨Keyword.init, [x]⟩ ∧ Computes ∅ b i φ.AppliesAtStart
  start_complete : ∀ φ ∈ φs, ∀ {args}, φ.head? = some ⟨Keyword.init, args⟩ →
    ∃ x, args = [x] ∧ ∃ sources, b.initial.get? ⟨Keyword.holds, [x]⟩ = some sources ∧
      ∃ i ∈ sources.toList, Computes ∅ b i φ.AppliesAtStart

/-- What is added leaves the propositions that formulas conclude alone. -/
structure Keeps (b b' : Assembly) : Prop where
  ext : Extends ∅ b b'
  named : ∀ {a i j}, a.relation ≠ Keyword.holds → b'.Named a j → b'.Feeds i j → b.Named a j ∧ b.Feeds i j
  initial : b'.initial = b.initial

theorem Keeps.trans {b1 b2 b3 : Assembly} (h1 : Keeps b1 b2) (h2 : Keeps b2 b3) : Keeps b1 b3 where
  ext := h1.ext.trans h2.ext
  named hrel ha hf := by
    obtain ⟨ha', hf'⟩ := h2.named hrel ha hf
    exact h1.named hrel ha' hf'
  initial := h2.initial.trans h1.initial

theorem Inner.keeps (h : Inner b b') (hext : Extends ∅ b b') : Keeps b b' :=
  ⟨hext, fun _ ha hf => h.named ha hf, h.initial⟩

theorem Linked.inner (h : Linked b) (hb : b.Regular) (hinner : Inner b b') (hext : Extends ∅ b b') :
    Linked b' where
  driver hs := by
    rw [hinner.drivers] at hs
    exact (h.driver hs).grow hb hext
  fed hs hf := by
    obtain ⟨hs', hf'⟩ := hinner.named hs hf
    obtain ⟨hsome, honly⟩ := h.fed hs' hf'
    exact ⟨by rw [hinner.drivers]; exact hsome, fun t' ht' => honly t' (hinner.named hs ht').2⟩
  next hn hf := by
    obtain ⟨hn', hf'⟩ := hinner.named hn hf
    rw [hinner.drivers]
    exact h.next hn' hf'

theorem Cites.keeps (h : Cites φs b) (hkeeps : Keeps b b') : Cites φs b' where
  sound ha hrel hf := by
    obtain ⟨ha', hf'⟩ := hkeeps.named hrel ha hf
    obtain ⟨φ, hφ, hhead, hcomputes⟩ := h.sound ha' hrel hf'
    exact ⟨φ, hφ, hhead, hcomputes.grow hkeeps.ext⟩
  complete φ hφ _ hhead hrel := (h.complete φ hφ hhead hrel).grow hkeeps.ext
  start_sound hname := by
    rw [hkeeps.initial] at hname
    obtain ⟨x, hx, hexists, hsources⟩ := h.start_sound hname
    refine ⟨x, hx, hexists, fun i hi => ?_⟩
    obtain ⟨⟨kind, hkind, hne⟩, φ, hφ, hhead, hcomputes⟩ := hsources i hi
    exact ⟨⟨kind, hkeeps.ext.kinds hkind, hne⟩, φ, hφ, hhead, hcomputes.grow hkeeps.ext⟩
  start_complete φ hφ _ hhead := by
    obtain ⟨x, hx, sources, hget, i, hi, hcomputes⟩ := h.start_complete φ hφ hhead
    exact ⟨x, hx, sources, by rw [hkeeps.initial]; exact hget, i, hi, hcomputes.grow hkeeps.ext⟩

/-! ## Heads -/

/-- Linking a component to a named proposition. -/
theorem Regular.link_named (h : b.Regular) (hsource : source < b.kinds.size)
    (ha : b.Named a id) (htransition : b.kinds[source]? = some .transition → a.relation = Keyword.holds)
    (hinit : a.relation ≠ Keyword.init) : (b.link source id).Regular := by
  have hkind := h.named_kind ha
  refine h.link hsource (h.named_lt ha) (fun hor => ?_) (fun ht => ?_) fun a' ha' => ?_
  · rw [hkind] at hor
    simp at hor
  · refine ⟨a.args, ?_⟩
    rw [← htransition ht]
    exact ha
  · rw [h.named_inj ha' ha]
    exact hinit

/-- What is asked of a proposition that a formula may be linked to. -/
structure IsHead (b b' : Assembly) (a : Atom Symbol) (id : Nat) : Prop where
  regular : b'.Regular
  linked : b'.Linked
  keeps : Keeps b b'
  named : b'.Named a id
  not_state : a.relation ≠ Keyword.holds
  next : a.relation = Keyword.next → ∃ s, b'.drivers.get? s = some id
  drivers : ∀ {s n}, b'.drivers.get? s = some n → b.drivers.get? s = some n ∨ n = id

/-- A proposition about the state gets a transition `t`, fed by the proposition `n` about the next state,
which comes to decide it. -/
structure Attaches (b b' : Assembly) (n s t : Nat) : Prop where
  regular : b'.Regular
  ext : Extends ∅ b b'
  initial : b'.initial = b.initial
  undecided : b.drivers.get? s = none
  drivers : b'.drivers = b.drivers.insert s n
  driven : DrivenBy b' s n
  named : ∀ {a i j}, b'.Named a j → b'.Feeds i j → b.Named a j ∧ b.Feeds i j ∨ i = t ∧ j = s

theorem attaches_addFed {n s : Nat} {x : Term Symbol} (h : b.Regular)
    (hn : b.Named ⟨Keyword.next, [x]⟩ n) (hs : b.Named ⟨Keyword.holds, [x]⟩ s)
    (hd : b.drivers.get? s = none) :
    Attaches b { (b.addFed n .transition).link b.kinds.size s with drivers := b.drivers.insert s n } n s
      b.kinds.size := by
  have hfed : Fed b n .transition := h.fed (h.named_kind hn) (by simp) (.inl rfl)
  set b1 := b.addFed n .transition
  set b2 : Assembly := { b1.link b.kinds.size s with drivers := b.drivers.insert s n }
  have hs1 : b1.Named ⟨Keyword.holds, [x]⟩ s := hfed.ext.named hs
  have hreg : (b1.link b.kinds.size s).Regular :=
    hfed.regular.link_named (by rw [size_addFed]; omega) hs1 (fun _ => rfl)
      (by decide : Keyword.holds ≠ Keyword.init)
  have hext : Extends ∅ b (b1.link b.kinds.size s) := hfed.ext.trans (extends_link (.inr ⟨_, hs1⟩))
  have hfeeds : ∀ {i j}, b2.Feeds i j ↔ b1.Feeds i j ∨ i = b.kinds.size ∧ j = s := feeds_link
  refine ⟨⟨hreg.named_kind, hreg.own, hreg.feeds_lt, hreg.trueConstant, hreg.falseConstant, hreg.start,
    hreg.single, hreg.transition, hreg.init⟩,
    ⟨hext.kinds, hext.named, hext.named_old, hext.feeds, hext.feeds_old⟩, rfl, hd, rfl,
    ⟨x, b.kinds.size, hext.named hs, hext.named hn, hfed.is_kind, hfeeds.2 (.inr ⟨rfl, rfl⟩), fun i => ?_⟩,
    fun ha hf => ?_⟩
  · have hslt := h.named_lt hs
    rw [hfeeds, hfed.feeds_iff]
    exact ⟨fun hor => hor.elim (fun heq => heq) fun ⟨_, heq⟩ => by omega, .inl⟩
  · rcases hfeeds.1 hf with hold | hnew
    · exact .inl (hfed.inner.named ha hold)
    · exact .inr hnew

namespace Attaches

variable {n s t : Nat} (h : Attaches b b' n s t)

include h

theorem drivers_self : b'.drivers.get? s = some n := by
  rw [h.drivers]
  exact OrderedMap.get?_insert_self _

theorem drivers_of_ne {s' : Nat} (hne : s ≠ s') : b'.drivers.get? s' = b.drivers.get? s' := by
  rw [h.drivers]
  exact OrderedMap.get?_insert_of_ne _ hne

/-- Other named propositions are not fed anew. -/
theorem named_old (hrel : a.relation ≠ Keyword.holds) {i j : Nat} (ha : b'.Named a j) (hf : b'.Feeds i j) :
    b.Named a j ∧ b.Feeds i j := by
  refine (h.named ha hf).resolve_right ?_
  rintro ⟨-, rfl⟩
  obtain ⟨x, -, hs, -⟩ := h.driven
  exact hrel (congrArg Atom.relation (h.regular.named_inj ha hs))

theorem linked (hreg : b.Regular) (hlinked : b.Linked) : b'.Linked where
  driver {s' n'} hs' := by
    by_cases hne : s = s'
    · subst hne
      obtain rfl := Option.some.inj (h.drivers_self.symm.trans hs')
      exact h.driven
    · rw [h.drivers_of_ne hne] at hs'
      exact (hlinked.driver hs').grow hreg h.ext
  fed {args s' t'} hs' hf := by
    have hunfed : ∀ {i args}, b.Named ⟨Keyword.holds, args⟩ s → ¬ b.Feeds i s := by
      intro i args hs hi
      have hsome := (hlinked.fed hs hi).1
      rw [h.undecided] at hsome
      cases hsome
    rcases h.named hs' hf with ⟨hs'', hf'⟩ | ⟨rfl, rfl⟩
    · have hne : s ≠ s' := by
        rintro rfl
        exact hunfed hs'' hf'
      obtain ⟨hsome, honly⟩ := hlinked.fed hs'' hf'
      refine ⟨by rw [h.drivers_of_ne hne]; exact hsome, fun i hi => ?_⟩
      rcases h.named hs' hi with ⟨-, hold⟩ | ⟨-, rfl⟩
      · exact honly i hold
      · exact absurd rfl hne
    · refine ⟨by rw [h.drivers_self]; rfl, fun i hi => ?_⟩
      rcases h.named hs' hi with ⟨hs, hold⟩ | ⟨rfl, -⟩
      · exact absurd hold (hunfed hs)
      · rfl
  next {args n' i} hn' hf := by
    obtain ⟨hn'', hf'⟩ := h.named_old (by decide : Keyword.next ≠ Keyword.holds) hn' hf
    obtain ⟨s', hs'⟩ := hlinked.next hn'' hf'
    have hne : s ≠ s' := by
      rintro rfl
      rw [h.undecided] at hs'
      cases hs'
    exact ⟨s', (h.drivers_of_ne hne).trans hs'⟩

end Attaches

theorem addTransition_spec {n s : Nat} {x : Term Symbol} (h : b.Regular) (hlinked : b.Linked)
    (hn : b.Named ⟨Keyword.next, [x]⟩ n) (hs : b.Named ⟨Keyword.holds, [x]⟩ s) :
    IsHead b (b.addTransition n s) ⟨Keyword.next, [x]⟩ n := by
  have hne : Keyword.next ≠ Keyword.holds := by decide
  unfold addTransition
  cases hd : b.drivers.get? s with
  | some n' =>
    obtain ⟨x', t, hs', hn', -⟩ := hlinked.driver hd
    obtain ⟨-, hx⟩ := Atom.mk.inj (h.named_inj hs' hs)
    obtain rfl := (List.cons.inj hx).1
    obtain rfl := hn'.eq hn
    exact ⟨h, hlinked, ⟨Extends.refl b, fun _ ha hf => ⟨ha, hf⟩, rfl⟩, hn, hne, fun _ => ⟨s, hd⟩, .inl⟩
  | none =>
    have hattaches := attaches_addFed h hn hs hd
    refine ⟨hattaches.regular, hattaches.linked h hlinked,
      ⟨hattaches.ext, fun hrel => hattaches.named_old hrel, hattaches.initial⟩, hattaches.ext.named hn, hne,
      fun _ => ⟨s, hattaches.drivers_self⟩, fun {s' n'} hs' => ?_⟩
    by_cases hne : s = s'
    · subst hne
      exact .inr (Option.some.inj (hs'.symm.trans hattaches.drivers_self))
    · exact .inl ((hattaches.drivers_of_ne hne).symm.trans hs')

theorem head_spec (h : b.Regular) (hlinked : b.Linked) (hrun : b.head a = .ok (id, b')) :
    IsHead b b' a id := by
  unfold head at hrun
  split_ifs at hrun with hfixed hnext harity
  · obtain ⟨hreg, hext, hinner, hnamed⟩ := named_spec (O := ∅) h a
    rw [Except.ok.inj hrun] at hreg hext hinner hnamed
    exact ⟨hreg, hlinked.inner h hinner hext, hinner.keeps hext, hnamed, fun hrel => hfixed (.inl hrel),
      fun hrel => absurd hrel hnext, fun hs => .inl (by rw [← hinner.drivers]; exact hs)⟩
  · obtain ⟨x, hx⟩ : ∃ x, a.args = [x] := List.length_eq_one_iff.1 (not_not.1 harity)
    obtain ⟨relation, args⟩ := a
    obtain rfl : relation = Keyword.next := not_not.1 hnext
    obtain rfl : args = [x] := hx
    obtain ⟨hreg1, hext1, hinner1, hnamed1⟩ := named_spec (O := ∅) h ⟨Keyword.next, [x]⟩
    set b1 := (b.named ⟨Keyword.next, [x]⟩).2
    obtain ⟨hreg2, hext2, hinner2, hnamed2⟩ := named_spec (O := ∅) hreg1 ⟨Keyword.holds, [x]⟩
    set b2 := (b1.named ⟨Keyword.holds, [x]⟩).2
    obtain ⟨rfl, rfl⟩ : (b.named ⟨Keyword.next, [x]⟩).1 = id ∧
        b2.addTransition (b.named ⟨Keyword.next, [x]⟩).1 (b1.named ⟨Keyword.holds, [x]⟩).1 = b' :=
      Prod.mk.inj (Except.ok.inj hrun)
    have hinner := hinner1.trans hinner2
    have hext := hext1.trans hext2
    have hspec := addTransition_spec hreg2 (hlinked.inner h hinner hext) (hext2.named hnamed1) hnamed2
    exact ⟨hspec.regular, hspec.linked, (hinner.keeps hext).trans hspec.keeps, hspec.named, hspec.not_state,
      hspec.next, fun hs => (hspec.drivers hs).imp_left fun hs' => by rw [← hinner.drivers]; exact hs'⟩

/-! ## One more source -/

/-- The proposition that a component is linked to is the only one that is fed anew. -/
theorem Regular.feeds_link_named (h : b.Regular) (ha : b.Named a id) {a' : Atom Symbol} {i j : Nat}
    (ha' : b.Named a' j) (hf : (b.link source id).Feeds i j) :
    b.Feeds i j ∨ i = source ∧ j = id ∧ a' = a := by
  rcases feeds_link.1 hf with hold | ⟨rfl, rfl⟩
  · exact .inl hold
  · exact .inr ⟨rfl, rfl, h.named_inj ha' ha⟩

theorem Linked.link (h : b.Linked) (hreg : b.Regular) (ha : b.Named a id) (hstate : a.relation ≠ Keyword.holds)
    (hnext : a.relation = Keyword.next → ∃ s, b.drivers.get? s = some id) : (b.link source id).Linked where
  driver hs := (h.driver hs).grow hreg (extends_link (.inr ⟨a, ha⟩))
  fed {args s t} hs hf := by
    have hold : ∀ t, (b.link source id).Feeds t s → b.Feeds t s := fun t ht =>
      (hreg.feeds_link_named ha hs ht).resolve_right fun ⟨_, _, heq⟩ => hstate (heq ▸ rfl)
    obtain ⟨hsome, honly⟩ := h.fed hs (hold t hf)
    exact ⟨hsome, fun t' ht' => honly t' (hold t' ht')⟩
  next hn hf := by
    rcases hreg.feeds_link_named ha hn hf with hold | ⟨-, rfl, rfl⟩
    · exact h.next hn hold
    · exact hnext rfl

/-- Linking what says that a formula applies to the proposition that it concludes. -/
theorem Cites.link (h : Cites φs b) (hreg : b.Regular) (ha : b.Named a id) (hhead : φ.head? = some a)
    (hinit : a.relation ≠ Keyword.init) (hcomputes : Computes ∅ b source φ.Applies) :
    Cites (φs ++ [φ]) (b.link source id) := by
  have hext : Extends ∅ b (b.link source id) := extends_link (.inr ⟨a, ha⟩)
  refine ⟨fun ha' hrel hf => ?_, fun φ' hφ' _ hhead' hrel => ?_, fun hname => ?_, fun φ' hφ' _ hhead' => ?_⟩
  · rcases hreg.feeds_link_named ha ha' hf with hold | ⟨rfl, rfl, rfl⟩
    · obtain ⟨φ', hφ', hhead', hcomputes'⟩ := h.sound ha' hrel hold
      exact ⟨φ', List.mem_append_left _ hφ', hhead', hcomputes'.grow hext⟩
    · exact ⟨φ, List.mem_append_right _ (List.mem_singleton.2 rfl), hhead, hcomputes.grow hext⟩
  · rcases List.mem_append.1 hφ' with hold | hnew
    · exact (h.complete φ' hold hhead' hrel).grow hext
    · obtain rfl := List.mem_singleton.1 hnew
      obtain rfl := Option.some.inj (hhead.symm.trans hhead')
      exact ⟨id, source, ha, feeds_link.2 (.inr ⟨rfl, rfl⟩), hcomputes.grow hext⟩
  · obtain ⟨x, hx, ⟨φ', hφ', hhead'⟩, hsources⟩ := h.start_sound hname
    refine ⟨x, hx, ⟨φ', List.mem_append_left _ hφ', hhead'⟩, fun i hi => ?_⟩
    obtain ⟨hkind', φ', hφ', hhead', hcomputes'⟩ := hsources i hi
    exact ⟨hkind', φ', List.mem_append_left _ hφ', hhead', hcomputes'.grow hext⟩
  · rcases List.mem_append.1 hφ' with hold | hnew
    · obtain ⟨x, hx, sources, hget, i, hi, hcomputes'⟩ := h.start_complete φ' hold hhead'
      exact ⟨x, hx, sources, hget, i, hi, hcomputes'.grow hext⟩
    · obtain rfl := List.mem_singleton.1 hnew
      exact absurd (congrArg Atom.relation (Option.some.inj (hhead.symm.trans hhead'))) hinit

/-- Writes a component down for the start, for the proposition about the state that it may make true. -/
def writeInitial (b : Assembly) (name : Atom Symbol) (source : Nat) : Assembly :=
  { b with initial := b.initial.alter name fun sources? => (sources?.getD #[]).push source }

theorem extends_writeInitial {name : Atom Symbol} : Extends ∅ b (b.writeInitial name source) :=
  ⟨fun h => h, fun h => h, fun h _ => h, fun h => h, fun h _ _ _ => h⟩

theorem get?_writeInitial_self {name : Atom Symbol} : (b.writeInitial name source).initial.get? name =
    some (((b.initial.get? name).getD #[]).push source) :=
  OrderedMap.get?_alter_self _

theorem get?_writeInitial_of_ne {name name' : Atom Symbol} (hne : name ≠ name') :
    (b.writeInitial name source).initial.get? name' = b.initial.get? name' :=
  OrderedMap.get?_alter_of_ne _ hne

theorem addInitial_ok (hrun : b.addInitial a source = .ok b') (hinit : a.relation = Keyword.init) :
    ∃ x, a = ⟨Keyword.init, [x]⟩ ∧ b' = b.writeInitial ⟨Keyword.holds, [x]⟩ source := by
  unfold addInitial at hrun
  split_ifs at hrun with harity
  obtain ⟨x, hx⟩ : ∃ x, a.args = [x] := List.length_eq_one_iff.1 harity
  obtain ⟨relation, args⟩ := a
  obtain rfl : relation = Keyword.init := hinit
  obtain rfl : args = [x] := hx
  exact ⟨x, rfl, (Except.ok.inj hrun).symm⟩

theorem addConclusion_ok (hrun : b.addConclusion source a = .ok b') :
    ∃ id b1, b.head a = .ok (id, b1) ∧ b' = b1.link source id := by
  unfold addConclusion at hrun
  cases hb : b.head a with
  | error e => simp [hb] at hrun
  | ok r =>
    obtain ⟨id, b1⟩ := r
    exact ⟨id, b1, rfl, by simpa [hb, eq_comm] using hrun⟩

/-- What is written down for a proposition is what was, and the new component for its own. -/
theorem written_writeInitial {name name' : Atom Symbol} {i : Nat} :
    (∃ sources, (b.writeInitial name source).initial.get? name' = some sources ∧ i ∈ sources.toList) ↔
      (∃ sources, b.initial.get? name' = some sources ∧ i ∈ sources.toList) ∨ name' = name ∧ i = source := by
  by_cases hne : name = name'
  · subst hne
    cases hget : b.initial.get? name with
    | none => simp [get?_writeInitial_self, hget]
    | some sources => simp [get?_writeInitial_self, hget]
  · rw [get?_writeInitial_of_ne hne, or_iff_left fun h => hne h.1.symm]

/-- Writing down, for the start, what says that a formula applies there. -/
theorem Cites.writeInitial {x : Term Symbol} (h : Cites φs b) (hhead : φ.head? = some ⟨Keyword.init, [x]⟩)
    (hkind : b.kinds[source]? = some kind) (htransition : kind ≠ .transition)
    (hcomputes : Computes ∅ b source φ.AppliesAtStart) :
    Cites (φs ++ [φ]) (b.writeInitial ⟨Keyword.holds, [x]⟩ source) := by
  have hext : Extends ∅ b (b.writeInitial ⟨Keyword.holds, [x]⟩ source) := extends_writeInitial
  have hlast : φ ∈ φs ++ [φ] := List.mem_append_right _ (List.mem_singleton.2 rfl)
  refine ⟨fun ha hrel hf => ?_, fun φ' hφ' _ hhead' hrel => ?_, fun {name sources} hname => ?_,
    fun φ' hφ' _ hhead' => ?_⟩
  · obtain ⟨φ', hφ', hhead', hcomputes'⟩ := h.sound ha hrel hf
    exact ⟨φ', List.mem_append_left _ hφ', hhead', hcomputes'.grow hext⟩
  · rcases List.mem_append.1 hφ' with hold | hnew
    · exact (h.complete φ' hold hhead' hrel).grow hext
    · obtain rfl := List.mem_singleton.1 hnew
      obtain rfl := Option.some.inj (hhead.symm.trans hhead')
      exact absurd rfl hrel
  · obtain ⟨x', rfl, hexists⟩ : ∃ x', name = ⟨Keyword.holds, [x']⟩ ∧ ∃ φ' ∈ φs ++ [φ],
        φ'.head? = some ⟨Keyword.init, [x']⟩ := by
      by_cases hne : ⟨Keyword.holds, [x]⟩ = name
      · exact ⟨x, hne.symm, φ, hlast, hhead⟩
      · have hget : b.initial.get? name = some sources := (get?_writeInitial_of_ne hne).symm.trans hname
        obtain ⟨x', hx', ⟨φ', hφ', hhead'⟩, -⟩ := h.start_sound hget
        exact ⟨x', hx', φ', List.mem_append_left _ hφ', hhead'⟩
    refine ⟨x', rfl, hexists, fun i hi => ?_⟩
    rcases written_writeInitial.1 ⟨sources, hname, hi⟩ with ⟨sources', hget, hi'⟩ | ⟨heq, rfl⟩
    · obtain ⟨x'', heq, -, hsources⟩ := h.start_sound hget
      obtain rfl := (List.cons.inj (Atom.mk.inj heq).2).1
      obtain ⟨hkind', φ', hφ', hhead', hcomputes'⟩ := hsources i hi'
      exact ⟨hkind', φ', List.mem_append_left _ hφ', hhead', hcomputes'.grow hext⟩
    · obtain rfl := (List.cons.inj (Atom.mk.inj heq).2).1
      exact ⟨⟨kind, hkind, htransition⟩, φ, hlast, hhead, hcomputes.grow hext⟩
  · rcases List.mem_append.1 hφ' with hold | hnew
    · obtain ⟨x', hx', sources, hget, i, hi, hcomputes'⟩ := h.start_complete φ' hold hhead'
      obtain ⟨sources', hget', hi'⟩ := written_writeInitial.2 (.inl ⟨sources, hget, hi⟩)
      exact ⟨x', hx', sources', hget', i, hi', hcomputes'.grow hext⟩
    · obtain rfl := List.mem_singleton.1 hnew
      obtain rfl : [x] = _ := (Atom.mk.inj (Option.some.inj (hhead.symm.trans hhead'))).2
      obtain ⟨sources', hget', hi'⟩ := (written_writeInitial (b := b)).2 (.inr ⟨rfl, rfl⟩)
      exact ⟨x, rfl, sources', hget', source, hi', hcomputes.grow hext⟩

/-! ## Formulas -/

/-- A rule gets a gate, which its literals are linked to before the rule concludes anything. -/
theorem addFormula_rule_ok {body : List (Formula Symbol)} (hrun : b.addFormula (.rule a body) = .ok b') :
    ∃ b1, foldSteps (addLiteral a.relation b.kinds.size) (b.add .and).2 body = .ok b1 ∧
      (a.relation = Keyword.init ∧ (b1.link startProposition b.kinds.size).addInitial a b.kinds.size = .ok b' ∨
        a.relation ≠ Keyword.init ∧ b1.addConclusion b.kinds.size a = .ok b') := by
  unfold Assembly.addFormula at hrun
  dsimp only at hrun
  rw [show (b.add .and).1 = b.kinds.size from rfl] at hrun
  cases hloop : foldSteps (addLiteral a.relation b.kinds.size) (b.add .and).2 body with
  | error e =>
    rw [hloop] at hrun
    cases hrun
  | ok b1 =>
    rw [hloop] at hrun
    dsimp only at hrun
    split_ifs at hrun with hinit
    · exact ⟨b1, rfl, .inl ⟨hinit, hrun⟩⟩
    · exact ⟨b1, rfl, .inr ⟨hinit, hrun⟩⟩

section Gate

variable {relation : Symbol} {body : List (Formula Symbol)} (h : b.Regular)
  (hrun : foldSteps (addLiteral relation b.kinds.size) (b.add .and).2 body = .ok b')

include h hrun

/-- The gate of a rule. -/
theorem Regular.collects_literals :
    Collects b.kinds.size (body.map fun φ I => φ.TrueIn I) b' ∧ Extends ∅ b b' ∧ Inner b b' := by
  obtain ⟨hcollects, hext, hinner⟩ := (Collects.add h).literals hrun
  have hext' : Extends {b.kinds.size} b b' := (extends_add b .and).trans hext
  exact ⟨hcollects, hext'.close fun j hj => Nat.le_of_eq hj.symm, (Inner.add b .and).trans hinner⟩

/-- The gate of a rule about the start. -/
theorem Regular.collects_start :
    Collects b.kinds.size ((body.map fun φ I => φ.TrueIn I) ++ [fun I => ⟨Keyword.start, []⟩ ∈ I])
      (b'.link startProposition b.kinds.size) ∧
    Extends ∅ b (b'.link startProposition b.kinds.size) ∧ Inner b (b'.link startProposition b.kinds.size) := by
  obtain ⟨hcollects, hext, hinner⟩ := h.collects_literals hrun
  have hstart := hcollects.regular.start
  obtain ⟨hcollects2, hext2, hinner2⟩ := hcollects.link (hcollects.regular.named_kind hstart) (by simp)
    hstart.computes
  have hext' := (hext.mono (Set.empty_subset _)).trans hext2
  exact ⟨hcollects2, hext'.close fun j hj => Nat.le_of_eq hj.symm, hinner.trans hinner2⟩

end Gate

/-- The assembly stands for the formulas. -/
structure Represents (φs : List (Formula Symbol)) (b : Assembly) : Prop where
  regular : b.Regular
  linked : b.Linked
  driven : ∀ {s n}, b.drivers.get? s = some n → ∃ i, b.Feeds i n
  cites : Cites φs b

namespace Represents

theorem inner (h : Represents φs b) (hreg : b'.Regular) (hinner : Inner b b') (hext : Extends ∅ b b') :
    Represents φs b' where
  regular := hreg
  linked := h.linked.inner h.regular hinner hext
  driven hs := by
    rw [hinner.drivers] at hs
    obtain ⟨i, hi⟩ := h.driven hs
    exact ⟨i, hext.feeds hi⟩
  cites := h.cites.keeps (hinner.keeps hext)

/-- Linking what says that a formula applies to the proposition that the formula concludes. -/
theorem conclude (h : Represents φs b) (hrun : b.addConclusion source a = .ok b')
    (hhead : φ.head? = some a) (hinit : a.relation ≠ Keyword.init)
    (hkind : b.kinds[source]? = some kind) (htransition : kind ≠ .transition)
    (hcomputes : Computes ∅ b source φ.Applies) : Represents (φs ++ [φ]) b' := by
  obtain ⟨id, b1, hb, rfl⟩ := addConclusion_ok hrun
  obtain ⟨hreg, hlinked, hkeeps, hnamed, hstate, hnext, hdrivers⟩ := head_spec h.regular h.linked hb
  have hkind1 := hkeeps.ext.kinds hkind
  refine ⟨?_, hlinked.link hreg hnamed hstate hnext, fun hs => ?_,
    (h.cites.keeps hkeeps).link hreg hnamed hhead hinit (hcomputes.grow hkeeps.ext)⟩
  · refine hreg.link_named (Array.getElem?_eq_some_iff.1 hkind1).1 hnamed (fun ht => ?_) hinit
    rw [hkind1] at ht
    exact absurd (Option.some.inj ht) htransition
  · rcases hdrivers hs with hold | rfl
    · obtain ⟨i, hi⟩ := h.driven hold
      exact ⟨i, feeds_link.2 (.inl (hkeeps.ext.feeds hi))⟩
    · exact ⟨source, feeds_link.2 (.inr ⟨rfl, rfl⟩)⟩

/-- Writing down what says that a formula about the start applies. -/
theorem start (h : Represents φs b) (hrun : b.addInitial a source = .ok b')
    (hhead : φ.head? = some a) (hinit : a.relation = Keyword.init)
    (hkind : b.kinds[source]? = some kind) (htransition : kind ≠ .transition)
    (hcomputes : Computes ∅ b source φ.AppliesAtStart) : Represents (φs ++ [φ]) b' := by
  obtain ⟨x, rfl, rfl⟩ := addInitial_ok hrun hinit
  obtain ⟨hreg, hlinked, hdriven, hcites⟩ := h
  exact ⟨⟨hreg.named_kind, hreg.own, hreg.feeds_lt, hreg.trueConstant, hreg.falseConstant, hreg.start,
      hreg.single, hreg.transition, hreg.init⟩, ⟨hlinked.driver, hlinked.fed, hlinked.next⟩, hdriven,
    hcites.writeInitial hhead hkind htransition hcomputes⟩

theorem addFormula (h : Represents φs b) (hrun : b.addFormula φ = .ok b') : Represents (φs ++ [φ]) b' := by
  cases φ with
  | atom a =>
    rw [Assembly.addFormula] at hrun
    split_ifs at hrun with hinit
    · refine h.start hrun rfl hinit (h.regular.named_kind h.regular.start) (by simp) fun w I hw => ?_
      rw [hw.named h.regular.start, Formula.AppliesAtStart, and_iff_left]
      simp [Formula.Applies, Formula.body]
    · refine h.conclude hrun rfl hinit h.regular.trueConstant (by simp) fun w I hw => ?_
      rw [hw.constant h.regular.trueConstant]
      simp [Formula.Applies, Formula.body]
  | rule a body =>
    obtain ⟨b1, hloop, ⟨hinit, hadd⟩ | ⟨hinit, hadd⟩⟩ := addFormula_rule_ok hrun
    · obtain ⟨hcollects, hext, hinner⟩ := h.regular.collects_start hloop
      have hrep := h.inner hcollects.regular hinner hext
      refine hrep.start hadd rfl hinit hcollects.kind (by simp) fun w I hw => ?_
      rw [hcollects.computes.mono (Set.empty_subset _) hw, Formula.AppliesAtStart, Formula.Applies]
      simp [Formula.body, or_imp, forall_and, and_comm]
    · obtain ⟨hcollects, hext, hinner⟩ := h.regular.collects_literals hloop
      have hrep := h.inner hcollects.regular hinner hext
      refine hrep.conclude hadd rfl hinit hcollects.kind (by simp) fun w I hw => ?_
      rw [hcollects.computes.mono (Set.empty_subset _) hw, Formula.Applies]
      simp [Formula.body]
  | neg φ => cases hrun
  | disj φs => cases hrun

theorem addFormulas {ψs : List (Formula Symbol)} (h : Represents φs b)
    (hrun : foldSteps Assembly.addFormula b ψs = .ok b') : Represents (φs ++ ψs) b' := by
  induction ψs generalizing b φs with
  | nil =>
    obtain rfl : b = b' := Except.ok.inj hrun
    simpa using h
  | cons ψ ψs ih =>
    obtain ⟨b1, hstep, hrest⟩ := foldSteps_cons_ok.1 hrun
    simpa using ih (h.addFormula hstep) hrest

end Represents

theorem named_initialAssembly_iff :
    initialAssembly.Named a id ↔ a = ⟨Keyword.start, []⟩ ∧ id = startProposition := by
  unfold Named initialAssembly
  by_cases ha : ⟨Keyword.start, []⟩ = a
  · subst ha
    simp [eq_comm]
  · rw [OrderedMap.get?_insert_of_ne _ ha, OrderedMap.get?_empty]
    simp [Ne.symm ha]

theorem not_feeds_initialAssembly (i j : Nat) : ¬ initialAssembly.Feeds i j := by
  show i ∉ Neighbours.empty.of j
  simp

theorem represents_initialAssembly : Represents [] initialAssembly where
  regular :=
    { named_kind := fun ha => by
        obtain ⟨rfl, rfl⟩ := named_initialAssembly_iff.1 ha
        rfl
      own := fun {a id underlying} hid => by
        have hlt : id < 3 := (Array.getElem?_eq_some_iff.1 hid).1
        match id, hlt with
        | 0, _ => cases hid
        | 1, _ => cases hid
        | 2, _ =>
          cases hid
          exact ⟨rfl, .inl (named_initialAssembly_iff.2 ⟨rfl, rfl⟩)⟩
      feeds_lt := fun hf => absurd hf (not_feeds_initialAssembly _ _)
      trueConstant := rfl
      falseConstant := rfl
      start := named_initialAssembly_iff.2 ⟨rfl, rfl⟩
      single := fun _ hf => absurd hf (not_feeds_initialAssembly _ _)
      transition := fun _ hf => absurd hf (not_feeds_initialAssembly _ _)
      init := fun _ _ hf => not_feeds_initialAssembly _ _ hf }
  linked :=
    { driver := fun hs => by simp [initialAssembly] at hs
      fed := fun _ hf => absurd hf (not_feeds_initialAssembly _ _)
      next := fun _ hf => absurd hf (not_feeds_initialAssembly _ _) }
  driven := fun hs => by simp [initialAssembly] at hs
  cites :=
    { sound := fun _ _ hf => absurd hf (not_feeds_initialAssembly _ _)
      complete := fun _ hφ => absurd hφ List.not_mem_nil
      start_sound := fun hname => by simp [initialAssembly] at hname
      start_complete := fun _ hφ => absurd hφ List.not_mem_nil }

end Assembly

end GameCircuit
