import GameCircuit.Proofs.StartWiring

/-!
# Which component speaks for a formula

A formula speaks through one component: a fact through the constant that is true, or the proposition of the start
if it says what holds there, and a rule through an `and` gate of its own.  `Assembly.Traces` lists the formulas
with these components, and says that they are just what feeds the named propositions.  `Assembly.Wires` says the
same once everything that holds at the start is linked.

On the way no negation and no transition stays unfed, and every transition feeds one proposition about the state
(`Assembly.Neat`).
-/

namespace GameCircuit

namespace Assembly

variable {b b' : Assembly} {O : Set Nat} {a : Atom Symbol} {φ : Formula Symbol} {φs : List (Formula Symbol)}
  {i j id source : Nat} {kind : Kind}

/-! ## Negations and transitions -/

/-- The component is fed, and it feeds just one proposition about the state. -/
def PassesOn (b : Assembly) (t : Nat) : Prop :=
  (∃ i, b.Feeds i t) ∧ ∃ x s, b.Named ⟨Keyword.holds, [x]⟩ s ∧ ∀ j, b.Feeds t j ↔ j = s

/-- No negation and no transition is loose. -/
structure Neat (b : Assembly) : Prop where
  negation : ∀ {id : Nat}, b.kinds[id]? = some .not → ∃ i, b.Feeds i id
  transition : ∀ {t : Nat}, b.kinds[t]? = some .transition → PassesOn b t

namespace Neat

/-- What is added must not be loose, and no transition that is there may feed anything new. -/
theorem grow (h : b.Neat) (hext : Extends O b b')
    (hnegation : ∀ {id : Nat}, b.kinds.size ≤ id → b'.kinds[id]? = some .not → ∃ i, b'.Feeds i id)
    (htransition : ∀ {t : Nat}, b.kinds.size ≤ t → b'.kinds[t]? = some .transition → PassesOn b' t)
    (hold : ∀ {t j : Nat}, b.kinds[t]? = some .transition → b'.Feeds t j → b.Feeds t j) : b'.Neat := by
  have hkinds : ∀ {id : Nat}, id < b.kinds.size → b'.kinds[id]? = b.kinds[id]? := fun hlt =>
    (hext.kinds (Array.getElem?_eq_getElem hlt)).trans (Array.getElem?_eq_getElem hlt).symm
  constructor
  · intro id hid
    by_cases hlt : id < b.kinds.size
    · rw [hkinds hlt] at hid
      obtain ⟨i, hi⟩ := h.negation hid
      exact ⟨i, hext.feeds hi⟩
    · exact hnegation (Nat.le_of_not_lt hlt) hid
  · intro t ht
    by_cases hlt : t < b.kinds.size
    · rw [hkinds hlt] at ht
      obtain ⟨⟨i, hi⟩, x, s, hs, honly⟩ := h.transition ht
      refine ⟨⟨i, hext.feeds hi⟩, x, s, hext.named hs, fun j => ⟨fun hj => (honly j).1 (hold ht hj), fun hj => ?_⟩⟩
      exact hext.feeds ((honly j).2 hj)
    · exact htransition (Nat.le_of_not_lt hlt) ht

/-- Adding something that is neither a negation nor a transition. -/
theorem add (h : b.Neat) (hnot : kind ≠ .not) (htransition : kind ≠ .transition) : (b.add kind).2.Neat := by
  have hnew : ∀ {id : Nat} {kind' : Kind}, b.kinds.size ≤ id → (b.add kind).2.kinds[id]? = some kind' →
      kind' = kind := by
    intro id kind' hle hid
    rw [getElem?_add] at hid
    split_ifs at hid with heq
    · exact (Option.some.inj hid).symm
    · have hlt := (Array.getElem?_eq_some_iff.1 hid).1
      omega
  refine h.grow (extends_add b kind (O := ∅)) (fun hle hid => ?_) (fun hle ht => ?_) fun _ hf => hf
  · exact absurd (hnew hle hid).symm hnot
  · exact absurd (hnew hle ht).symm htransition

theorem named (h : b.Neat) (a : Atom Symbol) : (b.named a).2.Neat := by
  rcases b.named_cases a with ⟨id, -, heq⟩ | ⟨-, hadds⟩
  · rw [heq]
    exact h
  · have hnew : ∀ {id : Nat} {kind : Kind}, b.kinds.size ≤ id → (b.named a).2.kinds[id]? = some kind →
        kind = .proposition a none := by
      intro id kind hle hid
      rcases hadds.kind_cases hid with hold | ⟨-, heq⟩
      · exact absurd (Array.getElem?_eq_some_iff.1 hold).1 (Nat.not_lt.2 hle)
      · exact heq
    refine h.grow (hadds.ext (O := ∅)) (fun hle hid => ?_) (fun hle ht => ?_) fun _ hf => hadds.feeds_iff.1 hf
    · cases hnew hle hid
    · cases hnew hle ht

/-- Linking something that is no transition. -/
theorem link (h : b.Neat) {target : Nat} (hsource : b.kinds[source]? = some kind) (hkind : kind ≠ .transition)
    (ht : target ∈ O ∨ ∃ a, b.Named a target) : (b.link source target).Neat := by
  have hsize : ∀ {id : Nat} {kind : Kind}, b.kinds.size ≤ id → (b.link source target).kinds[id]? ≠ some kind := by
    intro id kind hle hid
    have hlt : id < b.kinds.size := (Array.getElem?_eq_some_iff.1 hid).1
    omega
  refine h.grow (extends_link ht) (fun hle hid => absurd hid (hsize hle)) (fun hle ht => absurd ht (hsize hle)) ?_
  intro t j hkind' hf
  rcases feeds_link.1 hf with hold | ⟨rfl, -⟩
  · exact hold
  · exact absurd (Option.some.inj (hsource.symm.trans hkind')) hkind

theorem linkAll (h : b.Neat) {sources : List Nat} {target : Nat}
    (hsources : ∀ i ∈ sources, ∃ kind, b.kinds[i]? = some kind ∧ kind ≠ .transition)
    (ht : target ∈ O ∨ ∃ a, b.Named a target) : (b.linkAll sources target).Neat := by
  induction sources generalizing b with
  | nil => exact h
  | cons source sources ih =>
    obtain ⟨kind, hkind, hne⟩ := hsources source List.mem_cons_self
    exact ih (h.link hkind hne ht) (fun i hi => hsources i (List.mem_cons_of_mem _ hi)) ht

/-- Adding something that something else, no transition, feeds. -/
theorem addFed (h : b.Neat) (hfed : Fed b source kind) {kind' : Kind} (hsource : b.kinds[source]? = some kind')
    (hkind' : kind' ≠ .transition) (hkind : kind ≠ .transition) : (b.addFed source kind).Neat := by
  have hsize : (b.addFed source kind).kinds.size = b.kinds.size + 1 := size_addFed
  have hlast : ∀ {id : Nat} {k : Kind}, b.kinds.size ≤ id → (b.addFed source kind).kinds[id]? = some k →
      id = b.kinds.size := by
    intro id k hle hid
    have hlt := (Array.getElem?_eq_some_iff.1 hid).1
    omega
  refine h.grow hfed.ext (fun hle hid => ?_) (fun hle ht => ?_) fun {t j} ht hf => ?_
  · obtain rfl := hlast hle hid
    exact ⟨source, (hfed.feeds_iff source).2 rfl⟩
  · obtain rfl := hlast hle ht
    exact absurd (Option.some.inj (hfed.is_kind.symm.trans ht)) hkind
  · rcases feeds_link.1 hf with hold | ⟨rfl, -⟩
    · exact hold
    · exact absurd (Option.some.inj (hsource.symm.trans ht)) hkind'

theorem atomInput (h : b.Neat) (hreg : b.Regular) {relation : Symbol}
    (hrun : b.atomInput relation a = .ok (id, b')) : b'.Neat := by
  unfold Assembly.atomInput at hrun
  split_ifs at hrun
  · split at hrun
    · rename_i s t hargs
      set source := if s = t then falseConstant else trueConstant with hsource
      obtain ⟨-, rfl⟩ : b.kinds.size = id ∧ b.addFed source (.proposition ⟨Keyword.anonymous, []⟩ none) = b' :=
        Prod.mk.inj (Except.ok.inj hrun)
      obtain ⟨value, hconstant⟩ : ∃ value, b.kinds[source]? = some (.constant value) := by
        by_cases hst : s = t
        · exact ⟨false, by simp [hsource, hst, hreg.falseConstant]⟩
        · exact ⟨true, by simp [hsource, hst, hreg.trueConstant]⟩
      exact h.addFed (hreg.fed hconstant (by simp) (.inr rfl)) hconstant (by simp) (by simp)
    · cases hrun
  · have hneat := h.named a
    rw [Except.ok.inj hrun] at hneat
    exact hneat

theorem literalInput (h : b.Neat) (hreg : b.Regular) {relation : Symbol}
    (hrun : b.literalInput relation φ = .ok (id, b')) : b'.Neat := by
  unfold Assembly.literalInput at hrun
  split at hrun
  · exact h.atomInput hreg hrun
  · rename_i a
    cases hatom : b.atomInput relation a with
    | error e => simp [hatom] at hrun
    | ok r =>
      obtain ⟨input, b1⟩ := r
      obtain ⟨hreg1, -, -, ⟨name, hinput⟩, -⟩ := atomInput_spec hreg hatom
      rw [hatom] at hrun
      have hgate : Fed b1 input .not := hreg1.fed hinput (by simp) (.inl rfl)
      have hout : Fed (b1.addFed input .not) b1.kinds.size (.proposition ⟨Keyword.anonymous, []⟩ none) :=
        hgate.regular.fed hgate.is_kind (by simp) (.inr rfl)
      obtain ⟨-, rfl⟩ : (b1.addFed input .not).kinds.size = id ∧
          (b1.addFed input .not).addFed b1.kinds.size (.proposition ⟨Keyword.anonymous, []⟩ none) = b' :=
        Prod.mk.inj (Except.ok.inj hrun)
      have hneat := (h.atomInput hreg hatom).addFed hgate hinput (by simp) (by simp)
      exact hneat.addFed hout hgate.is_kind (by simp) (by simp)
  · cases hrun

theorem literals (h : b.Neat) {gate : Nat} {conditions : List (Set (Atom Symbol) → Prop)} {relation : Symbol}
    {body : List (Formula Symbol)} (hcollects : Collects gate conditions b)
    (hrun : foldSteps (addLiteral relation gate) b body = .ok b') : b'.Neat := by
  induction body generalizing b conditions with
  | nil =>
    obtain rfl : b = b' := Except.ok.inj hrun
    exact h
  | cons φ body ih =>
    obtain ⟨b1, hstep, hrest⟩ := foldSteps_cons_ok.1 hrun
    have hone : foldSteps (addLiteral relation gate) b [φ] = .ok b1 := foldSteps_cons_ok.2 ⟨b1, hstep, rfl⟩
    have hcollects1 := (hcollects.literals hone).1
    obtain ⟨input, b0, hinput, rfl⟩ := addLiteral_ok hstep
    obtain ⟨name, hkind⟩ := (literalInput_spec hcollects.regular hinput).kind
    have hneat := (h.literalInput hcollects.regular hinput).link (O := {gate}) hkind (by simp) (.inl rfl)
    exact ih hneat hcollects1 hrest

theorem addTransition (h : b.Neat) (hreg : b.Regular) {x : Term Symbol} {n s : Nat}
    (hn : b.Named ⟨Keyword.next, [x]⟩ n) (hs : b.Named ⟨Keyword.holds, [x]⟩ s) : (b.addTransition n s).Neat := by
  unfold Assembly.addTransition
  split_ifs with hd
  · exact h
  · have hattaches := attaches_addFed hreg hn hs (Option.not_isSome_iff_eq_none.1 hd)
    set b2 : Assembly := { (b.addFed n .transition).link b.kinds.size s with drivers := b.drivers.insert s n }
    show b2.Neat
    have hfeeds : ∀ {i j}, b2.Feeds i j ↔ (b.Feeds i j ∨ i = n ∧ j = b.kinds.size) ∨ i = b.kinds.size ∧ j = s := by
      intro i j
      show ((b.addFed n .transition).link b.kinds.size s).Feeds i j ↔ _
      rw [feeds_link, Assembly.addFed, feeds_link]
      exact Iff.rfl
    have hkinds : ∀ {id : Nat} {kind : Kind}, b.kinds.size ≤ id → b2.kinds[id]? = some kind →
        id = b.kinds.size ∧ kind = .transition := by
      intro id kind hle hid
      have hid' : (b.add .transition).2.kinds[id]? = some kind := hid
      rw [getElem?_add] at hid'
      split_ifs at hid' with heq
      · exact ⟨heq, (Option.some.inj hid').symm⟩
      · have hlt := (Array.getElem?_eq_some_iff.1 hid').1
        omega
    have hnlt := hreg.named_lt hn
    refine h.grow hattaches.ext (fun hle hid => ?_) (fun hle ht => ?_) fun {t j} ht hf => ?_
    · cases (hkinds hle hid).2
    · obtain ⟨rfl, -⟩ := hkinds hle ht
      refine ⟨⟨n, hfeeds.2 (.inl (.inr ⟨rfl, rfl⟩))⟩, x, s, hattaches.ext.named hs, fun j => ?_⟩
      rw [hfeeds]
      refine ⟨fun hor => ?_, fun hj => .inr ⟨rfl, hj⟩⟩
      rcases hor with (hold | ⟨heq, -⟩) | ⟨-, hj⟩
      · exact absurd (hreg.feeds_lt hold).1 (Nat.lt_irrefl _)
      · omega
      · exact hj
    · rcases hfeeds.1 hf with (hold | ⟨rfl, -⟩) | ⟨rfl, -⟩
      · exact hold
      · cases ht.symm.trans (hreg.named_kind hn)
      · exact absurd (Array.getElem?_eq_some_iff.1 ht).1 (Nat.lt_irrefl _)

theorem head (h : b.Neat) (hreg : b.Regular) (hrun : b.head a = .ok (id, b')) : b'.Neat := by
  unfold Assembly.head at hrun
  split_ifs at hrun with hfixed hnext harity
  · have hneat := h.named a
    rw [Except.ok.inj hrun] at hneat
    exact hneat
  · obtain ⟨x, hx⟩ : ∃ x, a.args = [x] := List.length_eq_one_iff.1 (not_not.1 harity)
    obtain ⟨relation, args⟩ := a
    obtain rfl : relation = Keyword.next := not_not.1 hnext
    obtain rfl : args = [x] := hx
    obtain ⟨hreg1, -, -, hn⟩ := named_spec (O := ∅) hreg ⟨Keyword.next, [x]⟩
    obtain ⟨hreg2, hext2, -, hs⟩ := named_spec (O := ∅) hreg1 ⟨Keyword.holds, [x]⟩
    have hneat2 := (h.named ⟨Keyword.next, [x]⟩).named ⟨Keyword.holds, [x]⟩
    obtain ⟨-, rfl⟩ := Prod.mk.inj (Except.ok.inj hrun)
    exact hneat2.addTransition hreg2 (hext2.named hn) hs

end Neat

theorem neat_initialAssembly : initialAssembly.Neat where
  negation {id} hid := by
    have hlt : id < 3 := (Array.getElem?_eq_some_iff.1 hid).1
    obtain rfl | rfl | rfl : id = 0 ∨ id = 1 ∨ id = 2 := by omega
    all_goals cases hid
  transition {t} ht := by
    have hlt : t < 3 := (Array.getElem?_eq_some_iff.1 ht).1
    obtain rfl | rfl | rfl : t = 0 ∨ t = 1 ∨ t = 2 := by omega
    all_goals cases ht

/-! ## Formulas -/

/-- `i` is the component that speaks for the formula. -/
def SpeaksFor (b : Assembly) (i : Nat) : Formula Symbol → Prop
  | .atom a => i = if a.relation = Keyword.init then startProposition else trueConstant
  | .rule _ _ => b.kinds[i]? = some .and
  | .neg _ | .disj _ => False

/-- The gate of a rule. -/
def ruleGate? : Formula Symbol × Nat → Option Nat
  | (.rule _ _, i) => some i
  | _ => none

/-- The components that say what holds at the start, in the order of the formulas. -/
def startOrigins (origins : List (Formula Symbol × Nat)) (x : Term Symbol) : List Nat :=
  (origins.filter fun p => p.1.head? = some ⟨Keyword.init, [x]⟩).map Prod.snd

/-- Just the components that speak for formulas with this head feed a named proposition, those about the state
aside, and just those that speak for formulas about the start are written down. -/
structure Traces (origins : List (Formula Symbol × Nat)) (b : Assembly) : Prop where
  neat : b.Neat
  speaks : ∀ {φ i}, (φ, i) ∈ origins → SpeaksFor b i φ
  nodup : (origins.filterMap ruleGate?).Nodup
  sound : ∀ {a id i}, b.Named a id → a.relation ≠ Keyword.holds → b.Feeds i id →
    ∃ φ, (φ, i) ∈ origins ∧ φ.head? = some a
  complete : ∀ {φ i a}, (φ, i) ∈ origins → φ.head? = some a → a.relation ≠ Keyword.init →
    ∃ id, b.Named a id ∧ b.Feeds i id
  initial : ∀ x, ((b.initial.get? ⟨Keyword.holds, [x]⟩).getD #[]).toList = startOrigins origins x

theorem mem_startOrigins {origins : List (Formula Symbol × Nat)} {x : Term Symbol} :
    i ∈ startOrigins origins x ↔ ∃ φ, (φ, i) ∈ origins ∧ φ.head? = some ⟨Keyword.init, [x]⟩ := by
  simp [startOrigins]

theorem mem_origins_append {origins : List (Formula Symbol × Nat)} {ψ : Formula Symbol} :
    (ψ, i) ∈ origins ++ [(φ, source)] ↔ (ψ, i) ∈ origins ∨ ψ = φ ∧ i = source := by
  rw [List.mem_append, List.mem_singleton, Prod.mk.injEq]

theorem startOrigins_append {origins : List (Formula Symbol × Nat)} {x : Term Symbol} :
    startOrigins (origins ++ [(φ, i)]) x =
      startOrigins origins x ++ if φ.head? = some ⟨Keyword.init, [x]⟩ then [i] else [] := by
  rw [startOrigins, List.filter_append, List.map_append, startOrigins]
  refine congrArg _ ?_
  split_ifs with h
  · simp [h]
  · simp [h]

theorem SpeaksFor.grow (h : SpeaksFor b i φ) (hext : Extends O b b') : SpeaksFor b' i φ := by
  cases φ with
  | atom a => exact h
  | rule head body => exact hext.kinds h
  | neg φ => exact h
  | disj φs => exact h

/-- What speaks for a formula is no transition. -/
theorem SpeaksFor.exists_kind (h : SpeaksFor b i φ) (hreg : b.Regular) :
    ∃ kind, b.kinds[i]? = some kind ∧ kind ≠ .transition := by
  cases φ with
  | atom a =>
    obtain rfl : i = if a.relation = Keyword.init then startProposition else trueConstant := h
    split_ifs
    · exact ⟨_, hreg.named_kind hreg.start, by simp⟩
    · exact ⟨_, hreg.trueConstant, by simp⟩
  | rule head body => exact ⟨.and, h, by simp⟩
  | neg φ => exact h.elim
  | disj φs => exact h.elim

namespace Traces

variable {origins : List (Formula Symbol × Nat)}

theorem keeps (h : Traces origins b) (hneat : b'.Neat) (hkeeps : Keeps b b') : Traces origins b' where
  neat := hneat
  speaks hφ := (h.speaks hφ).grow hkeeps.ext
  nodup := h.nodup
  sound ha hrel hf := by
    obtain ⟨ha', hf'⟩ := hkeeps.named hrel ha hf
    exact h.sound ha' hrel hf'
  complete hφ hhead hrel := by
    obtain ⟨id, ha, hf⟩ := h.complete hφ hhead hrel
    exact ⟨id, hkeeps.ext.named ha, hkeeps.ext.feeds hf⟩
  initial x := by
    rw [hkeeps.initial]
    exact h.initial x

/-- The gate of a new rule speaks for no other. -/
theorem nodup_append (h : Traces origins b) (hnew : ∀ head body, φ = .rule head body → b.kinds.size ≤ i) :
    ((origins ++ [(φ, i)]).filterMap ruleGate?).Nodup := by
  rw [List.filterMap_append]
  refine List.Nodup.append h.nodup ?_ ?_
  · cases φ with
    | rule head body => exact List.nodup_singleton i
    | atom a => exact List.nodup_nil
    | neg φ => exact List.nodup_nil
    | disj φs => exact List.nodup_nil
  · intro k hk hk'
    obtain ⟨⟨ψ, k'⟩, hψ, hgate⟩ := List.mem_filterMap.1 hk
    cases φ with
    | rule head body =>
      obtain rfl : k = i := by simpa [ruleGate?] using hk'
      have hle := hnew head body rfl
      cases ψ with
      | rule head' body' =>
        obtain rfl : k' = k := by simpa [ruleGate?] using hgate
        have hkind : b.kinds[k']? = some .and := h.speaks hψ
        have hlt := (Array.getElem?_eq_some_iff.1 hkind).1
        omega
      | atom a => cases hgate
      | neg ψ => cases hgate
      | disj ψs => cases hgate
    | atom a => cases hk'
    | neg φ => cases hk'
    | disj φs => cases hk'

/-- Linking what speaks for a formula to the proposition that the formula concludes. -/
theorem conclude (h : Traces origins b) (hreg : b.Regular) (hlinked : b.Linked)
    (hrun : b.addConclusion source a = .ok b') (hhead : φ.head? = some a) (hinit : a.relation ≠ Keyword.init)
    (hspeaks : SpeaksFor b source φ) (hnodup : ((origins ++ [(φ, source)]).filterMap ruleGate?).Nodup) :
    Traces (origins ++ [(φ, source)]) b' := by
  obtain ⟨id, b1, hb, rfl⟩ := addConclusion_ok hrun
  have hspec := head_spec hreg hlinked hb
  have h1 := h.keeps (h.neat.head hreg hb) hspec.keeps
  have hspeaks1 := hspeaks.grow hspec.keeps.ext
  obtain ⟨kind, hkind, hne⟩ := hspeaks1.exists_kind hspec.regular
  have hext : Extends ∅ b1 (b1.link source id) := extends_link (.inr ⟨a, hspec.named⟩)
  refine ⟨h1.neat.link (O := ∅) hkind hne (.inr ⟨a, hspec.named⟩), fun hψ => ?_, hnodup, fun ha' hrel hf => ?_,
    fun {ψ i a'} hψ hhead' hrel => ?_, fun x => ?_⟩
  · rcases mem_origins_append.1 hψ with hold | ⟨rfl, rfl⟩
    · exact (h1.speaks hold).grow hext
    · exact hspeaks1.grow hext
  · rcases hspec.regular.feeds_link_named hspec.named ha' hf with hold | ⟨rfl, rfl, rfl⟩
    · obtain ⟨ψ, hψ, hhead'⟩ := h1.sound ha' hrel hold
      exact ⟨ψ, mem_origins_append.2 (.inl hψ), hhead'⟩
    · exact ⟨φ, mem_origins_append.2 (.inr ⟨rfl, rfl⟩), hhead⟩
  · rcases mem_origins_append.1 hψ with hold | ⟨rfl, rfl⟩
    · obtain ⟨id', ha', hf⟩ := h1.complete hold hhead' hrel
      exact ⟨id', ha', hext.feeds hf⟩
    · obtain rfl := Option.some.inj (hhead.symm.trans hhead')
      exact ⟨id, hspec.named, feeds_link.2 (.inr ⟨rfl, rfl⟩)⟩
  · rw [startOrigins_append, if_neg, List.append_nil]
    · exact h1.initial x
    · rw [hhead]
      exact fun heq => hinit (congrArg Atom.relation (Option.some.inj heq))

/-- Writing down what speaks for a formula about the start. -/
theorem start (h : Traces origins b) (hrun : b.addInitial a source = .ok b') (hhead : φ.head? = some a)
    (hinit : a.relation = Keyword.init) (hspeaks : SpeaksFor b source φ)
    (hnodup : ((origins ++ [(φ, source)]).filterMap ruleGate?).Nodup) : Traces (origins ++ [(φ, source)]) b' := by
  obtain ⟨y, rfl, rfl⟩ := addInitial_ok hrun hinit
  have hext : Extends ∅ b (b.writeInitial ⟨Keyword.holds, [y]⟩ source) := extends_writeInitial
  refine ⟨⟨h.neat.negation, h.neat.transition⟩, fun hψ => ?_, hnodup, fun ha hrel hf => ?_,
    fun {ψ i a'} hψ hhead' hrel => ?_, fun x => ?_⟩
  · rcases mem_origins_append.1 hψ with hold | ⟨rfl, rfl⟩
    · exact (h.speaks hold).grow hext
    · exact hspeaks.grow hext
  · obtain ⟨ψ, hψ, hhead'⟩ := h.sound ha hrel hf
    exact ⟨ψ, mem_origins_append.2 (.inl hψ), hhead'⟩
  · rcases mem_origins_append.1 hψ with hold | ⟨rfl, rfl⟩
    · exact h.complete hold hhead' hrel
    · obtain rfl := Option.some.inj (hhead.symm.trans hhead')
      exact absurd rfl hrel
  · rw [startOrigins_append, hhead]
    by_cases hxy : y = x
    · subst hxy
      rw [get?_writeInitial_self, if_pos rfl, Option.getD_some, Array.toList_push, h.initial]
    · rw [get?_writeInitial_of_ne (by simpa using hxy), if_neg (by simpa using hxy), List.append_nil]
      exact h.initial x

theorem addFormula (h : Traces origins b) (hrep : Represents φs b) (hrun : b.addFormula φ = .ok b') :
    ∃ i, Traces (origins ++ [(φ, i)]) b' := by
  cases φ with
  | atom a =>
    have hnodup : ∀ i, ((origins ++ [(Formula.atom a, i)]).filterMap ruleGate?).Nodup := fun i =>
      h.nodup_append fun _ _ heq => by cases heq
    rw [Assembly.addFormula] at hrun
    split_ifs at hrun with hinit
    · exact ⟨_, h.start hrun rfl hinit (if_pos hinit).symm (hnodup _)⟩
    · exact ⟨_, h.conclude hrep.regular hrep.linked hrun rfl hinit (if_neg hinit).symm (hnodup _)⟩
  | rule a body =>
    have hnodup : ((origins ++ [(Formula.rule a body, b.kinds.size)]).filterMap ruleGate?).Nodup :=
      h.nodup_append fun _ _ _ => Nat.le_refl _
    obtain ⟨b1, hloop, hadd⟩ := addFormula_rule_ok hrun
    obtain ⟨hcollects, hext, hinner⟩ := hrep.regular.collects_literals hloop
    have hneat : b1.Neat := (h.neat.add (by simp) (by simp)).literals (Collects.add hrep.regular) hloop
    rcases hadd with ⟨hinit, hadd⟩ | ⟨hinit, hadd⟩
    · have hstart := hcollects.regular.named_kind hcollects.regular.start
      obtain ⟨hcollects2, hext2, hinner2⟩ := hrep.regular.collects_start hloop
      have hneat2 := hneat.link (O := {b.kinds.size}) hstart (by simp) (.inl rfl)
      exact ⟨_, (h.keeps hneat2 (hinner2.keeps hext2)).start hadd rfl hinit hcollects2.kind hnodup⟩
    · have hrep1 := hrep.inner hcollects.regular hinner hext
      exact ⟨_, (h.keeps hneat (hinner.keeps hext)).conclude hrep1.regular hrep1.linked hadd rfl hinit
        hcollects.kind hnodup⟩
  | neg φ => cases hrun
  | disj φs => cases hrun

theorem addFormulas {ψs : List (Formula Symbol)} (h : Traces origins b) (hrep : Represents φs b)
    (hrun : foldSteps Assembly.addFormula b ψs = .ok b') :
    ∃ origins', origins'.map Prod.fst = ψs ∧ Traces (origins ++ origins') b' := by
  induction ψs generalizing b φs origins with
  | nil =>
    obtain rfl : b = b' := Except.ok.inj hrun
    exact ⟨[], rfl, by simpa using h⟩
  | cons ψ ψs ih =>
    obtain ⟨b1, hstep, hrest⟩ := foldSteps_cons_ok.1 hrun
    obtain ⟨i, h1⟩ := h.addFormula hrep hstep
    obtain ⟨origins', rfl, h'⟩ := ih h1 (hrep.addFormula hstep) hrest
    exact ⟨(ψ, i) :: origins', rfl, by simpa using h'⟩

end Traces

theorem traces_initialAssembly : Traces [] initialAssembly where
  neat := neat_initialAssembly
  speaks hφ := absurd hφ List.not_mem_nil
  nodup := List.nodup_nil
  sound _ _ hf := absurd hf (not_feeds_initialAssembly _ _)
  complete hφ := absurd hφ List.not_mem_nil
  initial x := by simp [initialAssembly, startOrigins]

/-! ## The start -/

/-- The transition is fed by the only source, or by a proposition without a name that just the sources
feed. -/
def HandsOver (b : Assembly) (sources : List Nat) (t : Nat) : Prop :=
  (∃ i, sources = [i] ∧ ∀ j, b.Feeds j t ↔ j = i) ∨
    sources.length ≠ 1 ∧ ∃ d : Nat, b.kinds[d]? = some (.proposition ⟨Keyword.anonymous, []⟩ none) ∧
      (∀ a, ¬ b.Named a d) ∧ (∀ j, b.Feeds j t ↔ j = d) ∧ ∀ j, b.Feeds j d ↔ j ∈ sources

theorem HandsOver.grow {sources : List Nat} {t : Nat} (h : HandsOver b sources t) (hreg : b.Regular)
    (ht : b.kinds[t]? = some .transition) (hext : Extends ∅ b b') : HandsOver b' sources t := by
  have hfeeds : ∀ {j}, b'.Feeds j t ↔ b.Feeds j t :=
    hext.feeds_iff ht (hreg.not_named ht rfl) (Set.notMem_empty _)
  rcases h with ⟨i, hi, honly⟩ | ⟨hlen, d, hd, hnot, honly, hsources⟩
  · exact .inl ⟨i, hi, fun j => hfeeds.trans (honly j)⟩
  · refine .inr ⟨hlen, d, hext.kinds hd, hext.not_named hd hnot, fun j => hfeeds.trans (honly j), fun j => ?_⟩
    exact (hext.feeds_iff hd hnot (Set.notMem_empty _)).trans (hsources j)

/-- A transition `t` was added to hand over what the sources say. -/
structure Hands (b b' : Assembly) (t : Nat) (sources : List Nat) : Prop where
  passes : PassesOn b' t
  handsOver : HandsOver b' sources t
  new : ∀ {id : Nat} {kind : Kind}, b.kinds.size ≤ id → b'.kinds[id]? = some kind →
    id = t ∨ kind = .proposition ⟨Keyword.anonymous, []⟩ none
  kind : b'.kinds[t]? = some .transition
  old : ∀ {t' j : Nat}, b.kinds[t']? = some .transition → b'.Feeds t' j → b.Feeds t' j

theorem Hands.neat {t : Nat} {sources : List Nat} (h : Hands b b' t sources) (hb : b.Neat)
    (hext : Extends O b b') : b'.Neat := by
  refine hb.grow hext (fun hle hid => ?_) (fun hle ht => ?_) h.old
  · rcases h.new hle hid with rfl | heq
    · cases h.kind.symm.trans hid
    · cases heq
  · rcases h.new hle ht with rfl | heq
    · exact h.passes
    · cases heq

section AddDriver

variable {x : Term Symbol} {b1 : Assembly} {s : Nat} {sources : List Nat} (h : Awaits b b1 s) (hreg : b.Regular)
  (hs : b.Named ⟨Keyword.holds, [x]⟩ s)

include h hreg hs

/-- The new transition hands over what comes to feed it, as long as nothing else that is linked is a transition. -/
theorem Awaits.hands (hext : Extends {j | b.kinds.size ≤ j} b1 b')
    (hfeeds : ∀ {i j}, b'.Feeds i j → b1.Feeds i j ∨ ∃ kind, b'.kinds[i]? = some kind ∧ kind ≠ .transition)
    (hfed : ∃ i, b'.Feeds i b.kinds.size) (hhands : HandsOver b' sources b.kinds.size)
    (hnew : ∀ {id : Nat} {kind : Kind}, b.kinds.size ≤ id → b'.kinds[id]? = some kind →
      id = b.kinds.size ∨ kind = .proposition ⟨Keyword.anonymous, []⟩ none) :
    Hands b b' b.kinds.size sources := by
  have hold : ∀ {t j : Nat}, b'.kinds[t]? = some .transition → b'.Feeds t j → b1.Feeds t j := by
    intro t j ht hf
    refine (hfeeds hf).resolve_right ?_
    rintro ⟨kind, hkind, hne⟩
    exact hne (Option.some.inj (hkind.symm.trans ht))
  have hkind := hext.kinds h.kind
  refine ⟨⟨hfed, x, s, hext.named (h.ext.named hs), fun j => ⟨fun hf => ?_, ?_⟩⟩, hhands, hnew, hkind,
    fun {t j} ht hf => ?_⟩
  · rcases h.feeds_iff.1 (hold hkind hf) with hf' | ⟨-, hj⟩
    · exact absurd (hreg.feeds_lt hf').1 (Nat.lt_irrefl _)
    · exact hj
  · rintro rfl
    exact hext.feeds (h.feeds_iff.2 (.inr ⟨rfl, rfl⟩))
  · rcases h.feeds_iff.1 (hold (hext.kinds (h.ext.kinds ht)) hf) with hf' | ⟨rfl, -⟩
    · exact hf'
    · exact absurd (Array.getElem?_eq_some_iff.1 ht).1 (Nat.lt_irrefl _)

variable (hlast : ∀ {id : Nat} {kind : Kind}, b.kinds.size ≤ id → b1.kinds[id]? = some kind → id = b.kinds.size)

include hlast

theorem hands_link (hsource : b.kinds[source]? = some kind) (hkind : kind ≠ .transition) :
    Hands b (b1.link source b.kinds.size) b.kinds.size [source] := by
  refine h.hands hreg hs (extends_link (.inl (Nat.le_refl _))) (fun hf => ?_) ⟨source, h.feeds_link_self.2 rfl⟩
    (.inl ⟨source, rfl, fun _ => h.feeds_link_self⟩) fun hle hid => .inl (hlast hle hid)
  rcases feeds_link.1 hf with hold | ⟨rfl, -⟩
  · exact .inl hold
  · exact .inr ⟨kind, h.ext.kinds hsource, hkind⟩

theorem hands_collectFor (hlen : sources.length ≠ 1)
    (hsources : ∀ i ∈ sources, ∃ kind, b.kinds[i]? = some kind ∧ kind ≠ .transition) :
    Hands b (b1.collectFor b.kinds.size sources) b.kinds.size sources := by
  have hext : Extends {j | b.kinds.size ≤ j} b1 (b1.collectFor b.kinds.size sources) := h.extends_collectFor
  have hcollector : (b1.collectFor b.kinds.size sources).kinds[b1.kinds.size]? =
      some (.proposition ⟨Keyword.anonymous, []⟩ none) := getElem?_collectFor.trans (if_pos rfl)
  refine h.hands hreg hs hext (fun hf => ?_) ⟨_, h.feeds_collectFor_self.2 rfl⟩
    (.inr ⟨hlen, _, hcollector, h.not_named_collector, fun _ => h.feeds_collectFor_self,
      fun _ => h.feeds_collectFor_collector⟩) fun hle hid => ?_
  · rcases feeds_collectFor.1 hf with (hold | ⟨rfl, -⟩) | ⟨hmem, -⟩
    · exact .inl hold
    · exact .inr ⟨_, hcollector, by simp⟩
    · obtain ⟨kind, hkind, hne⟩ := hsources _ hmem
      exact .inr ⟨kind, hext.kinds (h.ext.kinds hkind), hne⟩
  · rw [getElem?_collectFor] at hid
    split_ifs at hid
    · exact .inr (Option.some.inj hid).symm
    · exact .inl (hlast hle hid)

end AddDriver

theorem hands_addDriver {x : Term Symbol} {s : Nat} (hreg : b.Regular) (hs : b.Named ⟨Keyword.holds, [x]⟩ s)
    {sources : Array Nat}
    (hsources : ∀ i ∈ sources.toList, ∃ kind, b.kinds[i]? = some kind ∧ kind ≠ .transition) :
    Hands b ((b.addDriver s sources).2.linkAll sources.toList (b.addDriver s sources).1) b.kinds.size
      sources.toList := by
  have hawaits := awaits_add hreg hs
  have hlast : ∀ {id : Nat} {kind : Kind}, b.kinds.size ≤ id →
      ((b.add .transition).2.link b.kinds.size s).kinds[id]? = some kind → id = b.kinds.size := by
    intro id kind hle hid
    have hsize : ((b.add .transition).2.link b.kinds.size s).kinds.size = b.kinds.size + 1 := size_add b .transition
    have hlt := (Array.getElem?_eq_some_iff.1 hid).1
    omega
  unfold addDriver
  dsimp only
  split_ifs with hone
  · obtain ⟨source, hsource⟩ : ∃ source, sources.toList = [source] :=
      List.length_eq_one_iff.1 (by simpa using hone)
    obtain ⟨kind, hkind, hne⟩ := hsources source (by simp [hsource])
    rw [hsource]
    exact hands_link hawaits hreg hs hlast hkind hne
  · exact hands_collectFor hawaits hreg hs hlast (by simpa using hone) hsources

/-- What holds at the start, `x`, is linked to what decides it.  If that is the proposition about the next
state, all that speaks for it feeds this one; and otherwise a transition hands it over. -/
def Started (origins : List (Formula Symbol × Nat)) (b : Assembly) (x : Term Symbol) : Prop :=
  ∃ s, b.Named ⟨Keyword.holds, [x]⟩ s ∧
    (∀ n, b.drivers.get? s = some n → ∀ i ∈ startOrigins origins x, b.Feeds i n) ∧
    (b.drivers.get? s = none → ∃ t : Nat, b.kinds[t]? = some .transition ∧ b.Feeds t s ∧
      HandsOver b (startOrigins origins x) t)

theorem Started.grow {origins : List (Formula Symbol × Nat)} {x : Term Symbol} (h : Started origins b x)
    (hreg : b.Regular) (hext : Extends ∅ b b') (hdrivers : b'.drivers = b.drivers) : Started origins b' x := by
  obtain ⟨s, hs, hjoined, hown⟩ := h
  refine ⟨s, hext.named hs, fun n hn i hi => ?_, fun hnone => ?_⟩
  · rw [hdrivers] at hn
    exact hext.feeds (hjoined n hn i hi)
  · rw [hdrivers] at hnone
    obtain ⟨t, ht, hf, hover⟩ := hown hnone
    exact ⟨t, hext.kinds ht, hext.feeds hf, hover.grow hreg ht hext⟩

/-- Which components feed the named propositions, those about the state aside, with `rest` still to be linked. -/
structure Wires (origins : List (Formula Symbol × Nat)) (rest : List (Atom Symbol × Array Nat)) (b : Assembly) :
    Prop where
  neat : b.Neat
  speaks : ∀ {φ i}, (φ, i) ∈ origins → SpeaksFor b i φ
  nodup : (origins.filterMap ruleGate?).Nodup
  -- a formula about the start may speak through the proposition about the next state
  sound : ∀ {a id i}, b.Named a id → a.relation ≠ Keyword.holds → b.Feeds i id →
    (∃ φ, (φ, i) ∈ origins ∧ φ.head? = some a) ∨ ∃ x, a = ⟨Keyword.next, [x]⟩ ∧ i ∈ startOrigins origins x
  complete : ∀ {φ i a}, (φ, i) ∈ origins → φ.head? = some a → a.relation ≠ Keyword.init →
    ∃ id, b.Named a id ∧ b.Feeds i id
  start : ∀ {x}, startOrigins origins x ≠ [] →
    (∃ sources, (⟨Keyword.holds, [x]⟩, sources) ∈ rest) ∨ Started origins b x
  pending : ∀ {x sources}, (⟨Keyword.holds, [x]⟩, sources) ∈ rest → sources.toList = startOrigins origins x

namespace Wires

variable {origins : List (Formula Symbol × Nat)} {rest : List (Atom Symbol × Array Nat)} {x : Term Symbol}
  {sources : Array Nat} {s n : Nat}

/-- Before anything that holds at the start is linked. -/
theorem of_traces (h : Traces origins b) : Wires origins b.initial.toList b where
  neat := h.neat
  speaks := h.speaks
  nodup := h.nodup
  sound ha hrel hf := .inl (h.sound ha hrel hf)
  complete := h.complete
  start {x} hne := by
    refine .inl ?_
    cases hget : b.initial.get? ⟨Keyword.holds, [x]⟩ with
    | none =>
      have hinitial := h.initial x
      rw [hget] at hinitial
      exact absurd hinitial.symm hne
    | some sources => exact ⟨sources, OrderedMap.mem_toList_iff.2 hget⟩
  pending {x sources} hmem := by
    have hinitial := h.initial x
    rw [OrderedMap.mem_toList_iff.1 hmem] at hinitial
    exact hinitial

/-- What is linked anew, by `N`, has to speak for the right formulas. -/
theorem grow {rest' : List (Atom Symbol × Array Nat)} {N : Atom Symbol → Nat → Nat → Prop}
    (h : Wires origins rest b) (hreg : b.Regular) (hneat : b'.Neat) (hext : Extends ∅ b b')
    (hdrivers : b'.drivers = b.drivers) (hrest : rest' ⊆ rest)
    (hnamed : ∀ {a i j}, b'.Named a j → b'.Feeds i j → b.Named a j ∧ b.Feeds i j ∨ N a i j)
    (hsound : ∀ {a i j}, a.relation ≠ Keyword.holds → N a i j →
      ∃ x, a = ⟨Keyword.next, [x]⟩ ∧ i ∈ startOrigins origins x)
    (hstart : ∀ {x sources}, startOrigins origins x ≠ [] → (⟨Keyword.holds, [x]⟩, sources) ∈ rest →
      (⟨Keyword.holds, [x]⟩, sources) ∈ rest' ∨ Started origins b' x) : Wires origins rest' b' where
  neat := hneat
  speaks hφ := (h.speaks hφ).grow hext
  nodup := h.nodup
  sound ha hrel hf := by
    rcases hnamed ha hf with ⟨ha', hf'⟩ | hnew
    · exact h.sound ha' hrel hf'
    · exact .inr (hsound hrel hnew)
  complete hφ hhead hrel := by
    obtain ⟨id, ha, hf⟩ := h.complete hφ hhead hrel
    exact ⟨id, hext.named ha, hext.feeds hf⟩
  start hne := by
    rcases h.start hne with ⟨sources, hmem⟩ | hstarted
    · exact (hstart hne hmem).imp_left fun hmem' => ⟨sources, hmem'⟩
    · exact .inr (hstarted.grow hreg hext hdrivers)
  pending hmem := h.pending (hrest hmem)

/-- Building inside changes nothing. -/
theorem inner (h : Wires origins rest b) (hreg : b.Regular) (hneat : b'.Neat) (hinner : Inner b b')
    (hext : Extends ∅ b b') : Wires origins rest b' :=
  h.grow (N := fun _ _ _ => False) hreg hneat hext hinner.drivers (List.Subset.refl rest)
    (fun ha hf => .inl (hinner.named ha hf)) (fun _ => False.elim) fun _ hmem => .inl hmem

/-- What speaks for the start are no transitions. -/
theorem exists_kind (h : Wires origins ((⟨Keyword.holds, [x]⟩, sources) :: rest) b) (hreg : b.Regular) :
    ∀ i ∈ sources.toList, ∃ kind, b.kinds[i]? = some kind ∧ kind ≠ .transition := by
  intro i hi
  rw [h.pending List.mem_cons_self] at hi
  obtain ⟨φ, hφ, -⟩ := mem_startOrigins.1 hi
  exact (h.speaks hφ).exists_kind hreg

/-- What holds at the start joins the proposition that decides the state. -/
theorem join (h : Wires origins ((⟨Keyword.holds, [x]⟩, sources) :: rest) b) (hreg : b.Regular)
    (hs : b.Named ⟨Keyword.holds, [x]⟩ s) (hn : b.Named ⟨Keyword.next, [x]⟩ n) (hd : b.drivers.get? s = some n) :
    Wires origins rest (b.linkAll sources.toList n) := by
  have hpending := h.pending List.mem_cons_self
  have hext : Extends ∅ b (b.linkAll sources.toList n) := extends_linkAll (.inr ⟨_, hn⟩)
  have hneat := h.neat.linkAll (O := ∅) (h.exists_kind hreg) (.inr ⟨_, hn⟩)
  refine h.grow (N := fun a i j => a = ⟨Keyword.next, [x]⟩ ∧ i ∈ sources.toList ∧ j = n) hreg hneat hext
    (drivers_linkAll b _ _) (List.subset_cons_self _ _) (fun ha hf => ?_) ?_ ?_
  · have ha' := named_linkAll.1 ha
    rcases feeds_linkAll.1 hf with hold | ⟨hi, rfl⟩
    · exact .inl ⟨ha', hold⟩
    · exact .inr ⟨hreg.named_inj ha' hn, hi, rfl⟩
  · rintro a i j - ⟨rfl, hi, -⟩
    exact ⟨x, rfl, hpending ▸ hi⟩
  · intro y sources' _ hmem
    rcases List.mem_cons.1 hmem with heq | hmem'
    · obtain rfl := (List.cons.inj (Atom.mk.inj (Prod.mk.inj heq).1).2).1
      refine .inr ⟨s, named_linkAll.2 hs, fun n' hn' i hi => ?_, fun hnone => ?_⟩
      · rw [drivers_linkAll] at hn'
        obtain rfl := Option.some.inj (hd.symm.trans hn')
        exact feeds_linkAll.2 (.inr ⟨hpending ▸ hi, rfl⟩)
      · rw [drivers_linkAll, hd] at hnone
        cases hnone
    · exact .inl hmem'

/-- What holds at the start gets a transition of its own. -/
theorem decide {t : Nat} (h : Wires origins ((⟨Keyword.holds, [x]⟩, sources) :: rest) b) (hreg : b.Regular)
    (hs : b.Named ⟨Keyword.holds, [x]⟩ s) (hd : b.drivers.get? s = none)
    (hdecides : Decides b b' s t sources.toList) (hhands : Hands b b' t sources.toList) :
    Wires origins rest b' := by
  have hs' := hdecides.ext.named hs
  refine h.grow (N := fun a i j => a = ⟨Keyword.holds, [x]⟩ ∧ i = t ∧ j = s) hreg
    (hhands.neat h.neat hdecides.ext) hdecides.ext hdecides.drivers (List.subset_cons_self _ _) (fun ha hf => ?_) ?_ ?_
  · rcases hdecides.named ha hf with hold | ⟨rfl, rfl⟩
    · exact .inl ⟨hdecides.ext.named_old ha (hreg.feeds_lt hold).2, hold⟩
    · exact .inr ⟨hdecides.regular.named_inj ha hs', rfl, rfl⟩
  · rintro a i j hrel ⟨rfl, -, -⟩
    exact absurd rfl hrel
  · intro y sources' _ hmem
    rcases List.mem_cons.1 hmem with heq | hmem'
    · obtain rfl := (List.cons.inj (Atom.mk.inj (Prod.mk.inj heq).1).2).1
      refine .inr ⟨s, hs', fun n hn => ?_, fun _ => ⟨t, hhands.kind, hdecides.feeds, ?_⟩⟩
      · rw [hdecides.drivers, hd] at hn
        cases hn
      · rw [← h.pending List.mem_cons_self]
        exact hhands.handsOver
    · exact .inl hmem'

theorem wireInitial {name : Atom Symbol} (h : Wires origins ((name, sources) :: rest) b)
    (hreal : Realizes φs ((name, sources) :: rest) b) : Wires origins rest (b.wireInitial name sources) := by
  obtain ⟨x, rfl, -⟩ := hreal.pending List.mem_cons_self
  obtain ⟨hreg, hext, hinner, hs⟩ := named_spec (O := ∅) hreal.regular ⟨Keyword.holds, [x]⟩
  have h1 := h.inner hreal.regular (h.neat.named _) hinner hext
  have hreal1 := hreal.inner hreg hinner hext
  unfold Assembly.wireInitial
  dsimp only
  cases hd : (b.named ⟨Keyword.holds, [x]⟩).2.drivers.get? (b.named ⟨Keyword.holds, [x]⟩).1 with
  | some n =>
    obtain ⟨x', -, hs', hn, -⟩ := hreal1.driver hd
    obtain rfl := (List.cons.inj (Atom.mk.inj (hreg.named_inj hs' hs)).2).1
    exact h1.join hreg hs hn hd
  | none =>
    have hkinds := h1.exists_kind hreg
    exact h1.decide hreg hs hd (addDriver_spec hreg hs hkinds) (hands_addDriver hreg hs hkinds)

theorem wireAll (h : Wires origins rest b) (hreal : Realizes φs rest b) :
    Wires origins [] (rest.foldl (fun b (name, sources) => b.wireInitial name sources) b) := by
  induction rest generalizing b with
  | nil => exact h
  | cons p rest ih => exact ih (h.wireInitial hreal) hreal.wireInitial

end Wires

/-- Once everything that holds at the start is linked, just what speaks for the formulas is. -/
theorem wires_wireAllInitial {origins : List (Formula Symbol × Nat)} (h : Traces origins b) (hrep : Represents φs b) :
    Wires origins [] b.wireAllInitial :=
  (Wires.of_traces h).wireAll (Realizes.of_represents hrep)

end Assembly

end GameCircuit
