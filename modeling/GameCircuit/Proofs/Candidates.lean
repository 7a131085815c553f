import GameCircuit.Proofs.Outlines
import Mathlib.Data.Option.Basic

/-!
# What a variable may stand for, read off its places

What a variable of a rule may stand for depends on the sites at which it stands in the literals of the body
(`Formula.profile`) and on what stands there (`judge`).  If the lookups change in their order alone, so does what
a variable may stand for (`judge_rel`); and its order is that of one site, apart from what stands elsewhere only
(`exists_led_of_judge`).
-/

namespace GameCircuit

variable {look look' : Site → List Occupant} {depth : Nat} {x : Symbol} {o : Occupant} {os xs ys : List Occupant}

namespace Evidence

/-- What an atom says about a variable that stands at these sites of it. -/
def ofSites (look : Site → List Occupant) (depth : Nat) (sites : List Site) : Evidence where
  allowed :=
    match sites.map look with
    | [] => none
    | os :: oss => if (os :: oss).any List.isEmpty then none else some (oss.foldl inBoth os)
  tooDeep := sites.any fun s => decide (depth < s.path.length)

/-- What a disjunction of atoms says about a variable that stands at these sites of them. -/
def ofAlternatives (look : Site → List Occupant) (depth : Nat) (alternatives : List (List Site)) : Evidence :=
  alternatives.foldr (fun sites rest => (ofSites look depth sites).either rest) ⟨some [], false⟩

theorem ofAlternatives_cons (sites : List Site) (alternatives : List (List Site)) :
    ofAlternatives look depth (sites :: alternatives) =
      (ofSites look depth sites).either (ofAlternatives look depth alternatives) := rfl

theorem either_none (e : Evidence) : e.either ⟨some [], false⟩ = e := by
  obtain ⟨allowed, tooDeep⟩ := e
  cases allowed with
  | none => rfl
  | some xs => simp [either, inEither]

theorem both_assoc (e e' e'' : Evidence) : (e.both e').both e'' = e.both (e'.both e'') := by
  obtain ⟨allowed, tooDeep⟩ := e
  obtain ⟨allowed', tooDeep'⟩ := e'
  obtain ⟨allowed'', tooDeep''⟩ := e''
  cases allowed <;> cases allowed' <;> cases allowed'' <;>
    simp [both, Bool.or_assoc, inBoth, List.filter_filter, Bool.and_comm]

theorem silent_both (e : Evidence) : silent.both e = e := by
  obtain ⟨allowed, tooDeep⟩ := e
  cases allowed <;> rfl

theorem allowed_both_of_none {e : Evidence} (h : e.allowed = none) (e' : Evidence) :
    (e.both e').allowed = e'.allowed := by
  rw [both, h]

/-- What a literal allows, others only narrow. -/
theorem allowed_both_of_some {e : Evidence} (h : e.allowed = some xs) (e' : Evidence) :
    ∃ p : Occupant → Bool, (e.both e').allowed = some (xs.filter p) := by
  rw [both, h]
  cases e'.allowed with
  | none => exact ⟨fun _ => true, by rw [List.filter_true]⟩
  | some ys => exact ⟨fun o => ys.contains o, rfl⟩

theorem all_cons (e : Evidence) (es : List Evidence) : all (e :: es) = e.both (all es) := by
  suffices hfold : ∀ e, es.foldl both e = e.both (all es) by
    rw [all, List.foldl_cons, silent_both]
    exact hfold e
  induction es with
  | nil => exact fun e => (both_silent e).symm
  | cons e' es ih =>
    intro e
    have hall : all (e' :: es) = e'.both (all es) := by
      show es.foldl both (silent.both e') = _
      rw [silent_both, ih]
    rw [List.foldl_cons, ih, both_assoc, hall]

end Evidence

/-- What a variable may stand for, if it stands at these sites in the literals of a body. -/
def judge (look : Site → List Occupant) (depth : Nat) (profile : List (List (List Site))) :
    Option (List Occupant) :=
  let e := Evidence.all (profile.map (Evidence.ofAlternatives look depth))
  if e.tooDeep then none else e.allowed

namespace Formula

/-- The sites of a variable in the alternatives of a literal; a negated atom says nothing about them. -/
def places (x : Symbol) : Formula Symbol → List (List Site)
  | .atom a => [a.places x]
  | .disj alternatives => alternatives.map fun φ =>
      match φ with
      | .atom a => a.places x
      | _ => []
  | .neg _ | .rule _ _ => [[]]

/-- The sites of a variable in the literals of a rule. -/
def profile (x : Symbol) (φ : Formula Symbol) : List (List (List Site)) := φ.body.map (places x)

end Formula

theorem Atom.evidence_eq (occupancy : Occupancy) (depth : Nat) (x : Symbol) (a : Atom Symbol) :
    a.evidence occupancy depth x = Evidence.ofSites occupancy.lookup depth (a.places x) := by
  rw [evidence, Evidence.ofSites, places, List.map_map, List.any_map]
  cases a.pathsTo x with
  | nil => rfl
  | cons path paths => rfl

theorem Formula.evidence_eq (occupancy : Occupancy) (depth : Nat) (x : Symbol) (φ : Formula Symbol) :
    φ.evidence occupancy depth x = Evidence.ofAlternatives occupancy.lookup depth (φ.places x) := by
  cases φ with
  | atom a =>
    rw [evidence, places, Atom.evidence_eq, Evidence.ofAlternatives_cons]
    exact (Evidence.either_none _).symm
  | neg φ => rfl
  | rule head body => rfl
  | disj φs =>
    induction φs with
    | nil => rfl
    | cons φ φs ih =>
      rw [evidence_disj_cons, places, List.map_cons, Evidence.ofAlternatives_cons, ih]
      cases φ with
      | atom a =>
        simp only [Atom.evidence_eq]
        rfl
      | neg φ => rfl
      | rule head body => rfl
      | disj ψs => rfl

theorem Clause.candidates_eq (occupancy : Occupancy) (depth : Nat) (c : Clause Symbol) (x : Symbol) :
    c.candidates occupancy depth x = judge occupancy.lookup depth (c.toFormula.profile x) := by
  have hbody : c.body.map (Formula.evidence occupancy depth x) =
      (c.toFormula.profile x).map (Evidence.ofAlternatives occupancy.lookup depth) := by
    rw [Formula.profile, List.map_map]
    exact List.map_congr_left fun φ _ => φ.evidence_eq occupancy depth x
  rw [candidates, judge, hbody]

/-- The variables of a formula that may stand for function terms, with what they may stand for. -/
def Formula.options (look : Site → List Occupant) (depth : Nat) (φ : Formula Symbol) : List (Symbol × List Occupant) :=
  φ.vars.eraseDups.filterMap fun x =>
    match judge look depth (φ.profile x) with
    | some os => if os.any Occupant.isFunctor then some (x, os) else none
    | none => none

theorem Formula.compoundVariables_eq (occupancy : Occupancy) (depth : Nat) (φ : Formula Symbol) :
    φ.compoundVariables occupancy depth = φ.options occupancy.lookup depth := by
  have hother : φ.body = [] → φ.options occupancy.lookup depth = [] := by
    intro hbody
    refine List.filterMap_eq_nil_iff.2 fun x _ => ?_
    rw [profile, hbody]
    rfl
  cases φ with
  | rule head body =>
    refine List.filterMap_congr fun x _ => ?_
    rw [Clause.candidates_eq]
    rfl
  | atom a => exact (hother rfl).symm
  | neg φ => exact (hother rfl).symm
  | disj φs => exact (hother rfl).symm

/-! ## Lookups that agree -/

/-- The ways in which lookups are put together keep the relation `R`. -/
structure Respected (R : List Occupant → List Occupant → Prop) : Prop where
  nil : R [] []
  empty : ∀ {xs ys}, R xs ys → xs.isEmpty = ys.isEmpty
  both : ∀ {xs xs' ys ys'}, R xs xs' → R ys ys' → R (inBoth xs ys) (inBoth xs' ys')
  either : ∀ {xs xs' ys ys'}, R xs xs' → R ys ys' → R (inEither xs ys) (inEither xs' ys')

/-- The variable is too deep for both, or it is so for neither and `R` relates what they allow. -/
def Evidence.Matches (R : List Occupant → List Occupant → Prop) (e e' : Evidence) : Prop :=
  e.tooDeep = e'.tooDeep ∧ (e.tooDeep = false → Option.Rel R e.allowed e'.allowed)

theorem isSome_eq_of_rel {α β : Type} {R : α → β → Prop} {a : Option α} {b : Option β} (h : Option.Rel R a b) :
    a.isSome = b.isSome := by
  cases h <;> rfl

section Matches

variable {R : List Occupant → List Occupant → Prop} (hR : Respected R)
  (hlook : ∀ s : Site, s.path.length ≤ depth → R (look s) (look' s))

include hR

theorem Evidence.Matches.both {e e' d d' : Evidence} (he : e.Matches R e') (hd : d.Matches R d') :
    (e.both d).Matches R (e'.both d') := by
  obtain ⟨allowed, tooDeep⟩ := e
  obtain ⟨allowed', tooDeep'⟩ := e'
  obtain ⟨allowed₁, tooDeep₁⟩ := d
  obtain ⟨allowed₁', tooDeep₁'⟩ := d'
  refine ⟨?_, fun hdeep => ?_⟩
  · rw [Evidence.both, Evidence.both]
    exact congrArg₂ (· || ·) he.1 hd.1
  · obtain ⟨hde, hdd⟩ : tooDeep = false ∧ tooDeep₁ = false := by simpa [Evidence.both] using hdeep
    have hrel := he.2 hde
    have hrel' := hd.2 hdd
    cases hrel with
    | none => exact hrel'
    | some h =>
      cases hrel' with
      | none => exact .some h
      | some h' => exact .some (hR.both h h')

theorem Evidence.Matches.either {e e' d d' : Evidence} (he : e.Matches R e') (hd : d.Matches R d') :
    (e.either d).Matches R (e'.either d') := by
  obtain ⟨allowed, tooDeep⟩ := e
  obtain ⟨allowed', tooDeep'⟩ := e'
  obtain ⟨rfl, hrel⟩ : tooDeep = tooDeep' ∧ (tooDeep = false → Option.Rel R allowed allowed') := he
  cases tooDeep with
  | true =>
    -- what is too deep stays so, whatever it allows
    have hdeep : ∀ (allowed : Option (List Occupant)) (d : Evidence), (Evidence.either ⟨allowed, true⟩ d).tooDeep =
        true := by
      intro allowed d
      cases allowed <;> rfl
    refine ⟨(hdeep _ _).trans (hdeep _ _).symm, fun hfalse => ?_⟩
    rw [hdeep] at hfalse
    cases hfalse
  | false =>
    cases hrel rfl with
    | none => exact ⟨rfl, fun _ => .none⟩
    | some h =>
      refine ⟨hd.1, fun hdeep => ?_⟩
      have hrest := hd.2 hdeep
      rw [Evidence.either, Evidence.either]
      cases hallowed : d.allowed with
      | none =>
        rw [hallowed] at hrest
        cases hallowed' : d'.allowed with
        | none => exact .none
        | some ys => rw [hallowed'] at hrest; cases hrest
      | some ys =>
        rw [hallowed] at hrest
        cases hallowed' : d'.allowed with
        | none => rw [hallowed'] at hrest; cases hrest
        | some ys' =>
          rw [hallowed'] at hrest
          cases hrest with
          | some h' => exact .some (hR.either h h')

include hlook

theorem Evidence.matches_ofSites (sites : List Site) :
    (Evidence.ofSites look depth sites).Matches R (Evidence.ofSites look' depth sites) := by
  refine ⟨rfl, fun hdeep => ?_⟩
  have hshallow : ∀ s ∈ sites, R (look s) (look' s) := by
    intro s hs
    refine hlook s ?_
    have hnot := List.any_eq_false.1 hdeep s hs
    simpa using hnot
  rw [Evidence.ofSites, Evidence.ofSites]
  cases sites with
  | nil => exact .none
  | cons s sites =>
    have hany : ((s :: sites).map look).any List.isEmpty = ((s :: sites).map look').any List.isEmpty := by
      rw [List.any_map, List.any_map]
      refine Bool.eq_iff_iff.2 ?_
      simp only [List.any_eq_true, Function.comp_apply]
      refine exists_congr fun t => and_congr_right fun ht => ?_
      rw [hR.empty (hshallow t ht)]
    have hfold : ∀ xs ys, R xs ys → R ((sites.map look).foldl inBoth xs) ((sites.map look').foldl inBoth ys) := by
      obtain ⟨-, htail⟩ := List.forall_mem_cons.1 hshallow
      clear hany hdeep hshallow
      induction sites with
      | nil => exact fun xs ys h => h
      | cons t sites ih =>
        intro xs ys h
        obtain ⟨ht, htail⟩ := List.forall_mem_cons.1 htail
        exact ih htail _ _ (hR.both h ht)
    simp only [List.map_cons] at hany ⊢
    rw [hany]
    split_ifs
    · exact .none
    · exact .some (hfold _ _ (hshallow s List.mem_cons_self))

theorem Evidence.matches_ofAlternatives (alternatives : List (List Site)) :
    (Evidence.ofAlternatives look depth alternatives).Matches R (Evidence.ofAlternatives look' depth alternatives) := by
  induction alternatives with
  | nil => exact ⟨rfl, fun _ => .some hR.nil⟩
  | cons sites alternatives ih =>
    rw [Evidence.ofAlternatives_cons, Evidence.ofAlternatives_cons]
    exact (Evidence.matches_ofSites hR hlook sites).either hR ih

theorem Evidence.matches_all (profile : List (List (List Site))) :
    (Evidence.all (profile.map (Evidence.ofAlternatives look depth))).Matches R
      (Evidence.all (profile.map (Evidence.ofAlternatives look' depth))) := by
  induction profile with
  | nil => exact ⟨rfl, fun _ => .none⟩
  | cons alternatives profile ih =>
    rw [List.map_cons, List.map_cons, Evidence.all_cons, Evidence.all_cons]
    exact (Evidence.matches_ofAlternatives hR hlook alternatives).both hR ih

/-- What a variable may stand for is related if what stands at the sites that are not too deep is. -/
theorem judge_rel (profile : List (List (List Site))) :
    Option.Rel R (judge look depth profile) (judge look' depth profile) := by
  obtain ⟨hdeep, hrel⟩ := Evidence.matches_all hR hlook profile
  rw [judge, judge, ← hdeep]
  split_ifs with hd
  · exact .none
  · exact hrel (by simpa using hd)

end Matches

theorem respected_eq : Respected Eq where
  nil := rfl
  empty h := by rw [h]
  both h h' := by rw [h, h']
  either h h' := by rw [h, h']

theorem judge_congr (hlook : ∀ s : Site, s.path.length ≤ depth → look s = look' s)
    (profile : List (List (List Site))) : judge look depth profile = judge look' depth profile := by
  have hrel := judge_rel respected_eq hlook profile
  generalize judge look depth profile = a, judge look' depth profile = b at hrel
  cases hrel with
  | none => rfl
  | some h => rw [h]

/-- What a variable may stand for stands somewhere. -/
theorem exists_mem_of_judge {profile : List (List (List Site))} (h : judge look depth profile = some os)
    (ho : o ∈ os) : ∃ s, o ∈ look s := by
  have hR : Respected fun xs ys => xs = ys ∧ ∀ o ∈ xs, ∃ s, o ∈ look s := by
    refine ⟨⟨rfl, by simp⟩, fun h => by rw [h.1], fun h h' => ?_, fun h h' => ?_⟩
    · exact ⟨by rw [h.1, h'.1], fun o ho => h.2 o (List.mem_filter.1 ho).1⟩
    · refine ⟨by rw [h.1, h'.1], fun o ho => ?_⟩
      rcases List.mem_append.1 ho with hxs | hys
      · exact h.2 o hxs
      · exact h'.2 o (List.mem_filter.1 hys).1
  have hrel : Option.Rel _ (judge look depth profile) (judge look depth profile) :=
    judge_rel hR (fun s _ => ⟨rfl, fun o ho => ⟨s, ho⟩⟩) profile
  rw [h] at hrel
  cases hrel with
  | some hos => exact hos.2 o ho

/-- Both lists have the same members, each once. -/
def Rearranged (xs ys : List Occupant) : Prop := xs.Nodup ∧ ys.Nodup ∧ ∀ o, o ∈ xs ↔ o ∈ ys

theorem respected_rearranged : Respected Rearranged where
  nil := ⟨List.nodup_nil, List.nodup_nil, fun _ => Iff.rfl⟩
  empty {xs ys} h := by
    rw [Bool.eq_iff_iff, List.isEmpty_iff, List.isEmpty_iff, List.eq_nil_iff_forall_not_mem,
      List.eq_nil_iff_forall_not_mem]
    exact forall_congr' fun o => not_congr (h.2.2 o)
  both h h' := by
    refine ⟨h.1.filter _, h.2.1.filter _, fun o => ?_⟩
    simp [inBoth, h.2.2, h'.2.2]
  either {xs xs' ys ys'} h h' := by
    have hnodup : ∀ {xs ys : List Occupant}, xs.Nodup → ys.Nodup → (inEither xs ys).Nodup := by
      intro xs ys hxs hys
      refine List.nodup_append.2 ⟨hxs, hys.filter _, fun o ho o' ho' heq => ?_⟩
      simp only [List.mem_filter, Bool.not_eq_true', List.contains_eq_mem, decide_eq_false_iff_not] at ho'
      exact ho'.2 (heq ▸ ho)
    refine ⟨hnodup h.1 h'.1, hnodup h.2.1 h'.2.1, fun o => ?_⟩
    simp [inEither, h.2.2, h'.2.2]

/-! ## The order of what a variable may stand for -/

/-- The list holds what stands at all the sites in the order of the site `π`, and all else behind it. -/
def Led (look : Site → List Occupant) (π : Site) (sites : List Site) (os : List Occupant) : Prop :=
  os = (look π).filter (fun o => decide (o ∈ os ∧ ∀ s ∈ sites, o ∈ look s)) ++
    os.filter fun o => decide (¬ ∀ s ∈ sites, o ∈ look s)

section Led

variable {π : Site} {sites : List Site}

theorem Led.filter (h : Led look π sites os) (p : Occupant → Bool) : Led look π sites (os.filter p) := by
  rw [Led]
  conv_lhs => rw [h]
  rw [List.filter_append, List.filter_filter, List.filter_filter, List.filter_filter]
  congr 1
  · refine List.filter_congr fun o _ => ?_
    by_cases hp : p o = true
    · simp [hp]
    · simp [hp]
  · exact List.filter_congr fun o _ => Bool.and_comm _ _

theorem foldl_inBoth_map (look : Site → List Occupant) (sites : List Site) (xs : List Occupant) :
    (sites.map look).foldl inBoth xs = xs.filter fun o => decide (∀ s ∈ sites, o ∈ look s) := by
  induction sites generalizing xs with
  | nil => simp
  | cons s sites ih =>
    rw [List.map_cons, List.foldl_cons, ih, inBoth, List.filter_filter]
    refine List.filter_congr fun o _ => ?_
    simp [Bool.and_comm]

/-- What stands at all sites of an alternative is in the order of its first site. -/
theorem led_inEither (h : (Evidence.ofSites look depth (π :: sites)).allowed = some xs) (ys : List Occupant) :
    Led look π (π :: sites) (inEither xs ys) := by
  have hxs : xs = (look π).filter fun o => decide (∀ s ∈ π :: sites, o ∈ look s) := by
    rw [Evidence.ofSites] at h
    simp only [List.map_cons] at h
    split_ifs at h
    obtain rfl := Option.some.inj h
    rw [foldl_inBoth_map]
    refine List.filter_congr fun o ho => ?_
    simp [ho]
  have hmem : ∀ o, o ∈ xs ↔ ∀ s ∈ π :: sites, o ∈ look s := by
    intro o
    rw [hxs, List.mem_filter, decide_eq_true_iff]
    exact ⟨fun ho => ho.2, fun ho => ⟨ho π List.mem_cons_self, ho⟩⟩
  rw [Led]
  simp only [← hmem]
  rw [inEither]
  congr 1
  · conv_lhs => rw [hxs]
    refine List.filter_congr fun o _ => ?_
    simp only [← hmem, List.mem_append, decide_eq_decide]
    tauto
  · rw [List.filter_append, List.filter_filter]
    have hnone : xs.filter (fun o => decide (o ∉ xs)) = [] := by simp
    rw [hnone, List.nil_append]
    refine List.filter_congr fun o _ => ?_
    simp

/-- An alternative that restricts a variable leads what its literal allows. -/
theorem exists_led_of_allowed {alternatives : List (List Site)}
    (hdeep : (Evidence.ofAlternatives look depth alternatives).tooDeep = false)
    (h : (Evidence.ofAlternatives look depth alternatives).allowed = some os) (hne : os ≠ []) :
    ∃ π sites, π ∈ sites ∧ sites ∈ alternatives ∧ (∀ s ∈ sites, s.path.length ≤ depth) ∧ ∀ look' os',
      (Evidence.ofAlternatives look' depth alternatives).allowed = some os' → Led look' π sites os' := by
  cases alternatives with
  | nil => exact absurd (Option.some.inj h).symm hne
  | cons sites alternatives =>
    have hor : (Evidence.ofSites look depth sites).tooDeep = false := by
      cases hallowed : (Evidence.ofSites look depth sites).allowed with
      | none =>
        rw [Evidence.ofAlternatives_cons, Evidence.either, hallowed] at hdeep
        exact hdeep
      | some xs =>
        rw [Evidence.ofAlternatives_cons, Evidence.either, hallowed] at hdeep
        exact (Bool.or_eq_false_iff.1 hdeep).1
    have hshallow : ∀ s ∈ sites, s.path.length ≤ depth := by
      intro s hs
      simpa using List.any_eq_false.1 hor s hs
    cases sites with
    | nil =>
      rw [Evidence.ofAlternatives_cons] at h
      cases h
    | cons π sites =>
      refine ⟨π, π :: sites, List.mem_cons_self, List.mem_cons_self, hshallow, fun look' os' h' => ?_⟩
      rw [Evidence.ofAlternatives_cons, Evidence.either] at h'
      cases hallowed : (Evidence.ofSites look' depth (π :: sites)).allowed with
      | none =>
        rw [hallowed] at h'
        exact absurd (hallowed.symm.trans h') (by simp)
      | some xs =>
        rw [hallowed] at h'
        obtain ⟨ys, -, rfl⟩ := Option.map_eq_some_iff.1 h'
        exact led_inEither hallowed ys

/-- What a variable may stand for is in the order of one site of it, apart from what does not stand at all sites of
some alternative; the site is the same for all lookups that differ in their order alone. -/
theorem exists_led_of_judge {profile : List (List (List Site))} (h : judge look depth profile = some os)
    (hne : os ≠ []) : ∃ π sites, π ∈ sites ∧ (∃ alternatives ∈ profile, sites ∈ alternatives) ∧
      (∀ s ∈ sites, s.path.length ≤ depth) ∧
      ∀ look', (∀ s : Site, s.path.length ≤ depth → Rearranged (look s) (look' s)) →
        ∀ os', judge look' depth profile = some os' → Led look' π sites os' := by
  have hallowed : ∀ {look : Site → List Occupant} {os}, judge look depth profile = some os →
      (Evidence.all (profile.map (Evidence.ofAlternatives look depth))).tooDeep = false ∧
        (Evidence.all (profile.map (Evidence.ofAlternatives look depth))).allowed = some os := by
    intro look os h
    rw [judge] at h
    split_ifs at h with hdeep
    exact ⟨by simpa using hdeep, h⟩
  obtain ⟨hdeep, hos⟩ := hallowed h
  suffices hled : ∃ π sites, π ∈ sites ∧ (∃ alternatives ∈ profile, sites ∈ alternatives) ∧
      (∀ s ∈ sites, s.path.length ≤ depth) ∧
      ∀ look', (∀ s : Site, s.path.length ≤ depth → Rearranged (look s) (look' s)) → ∀ os',
        (Evidence.all (profile.map (Evidence.ofAlternatives look' depth))).allowed = some os' →
          Led look' π sites os' by
    obtain ⟨π, sites, hπ, hsites, hshallow, hall⟩ := hled
    exact ⟨π, sites, hπ, hsites, hshallow, fun look' hlook' os' h' => hall look' hlook' os' (hallowed h').2⟩
  clear h hallowed
  induction profile with
  | nil => cases hos
  | cons alternatives profile ih =>
    rw [List.map_cons, Evidence.all_cons] at hdeep hos
    obtain ⟨hdeep₁, hdeep₂⟩ := Bool.or_eq_false_iff.1 hdeep
    -- whether the literal restricts the variable does not depend on the order
    have hsome : ∀ look', (∀ s : Site, s.path.length ≤ depth → Rearranged (look s) (look' s)) →
        (Evidence.ofAlternatives look depth alternatives).allowed.isSome =
          (Evidence.ofAlternatives look' depth alternatives).allowed.isSome := fun look' hlook' =>
      isSome_eq_of_rel ((Evidence.matches_ofAlternatives respected_rearranged hlook' alternatives).2 hdeep₁)
    cases hfirst : (Evidence.ofAlternatives look depth alternatives).allowed with
    | none =>
      rw [Evidence.allowed_both_of_none hfirst] at hos
      obtain ⟨π, sites, hπ, ⟨alternatives', halternatives', hsites⟩, hshallow, hall⟩ := ih hdeep₂ hos
      refine ⟨π, sites, hπ, ⟨alternatives', List.mem_cons_of_mem _ halternatives', hsites⟩, hshallow,
        fun look' hlook' os' h' => hall look' hlook' os' ?_⟩
      have hnone := hsome look' hlook'
      rw [hfirst, Option.isSome_none, eq_comm, Option.isSome_eq_false_iff, Option.isNone_iff_eq_none] at hnone
      rwa [List.map_cons, Evidence.all_cons, Evidence.allowed_both_of_none hnone] at h'
    | some zs =>
      have hzs : zs ≠ [] := by
        rintro rfl
        obtain ⟨p, hp⟩ := Evidence.allowed_both_of_some hfirst
          (Evidence.all (profile.map (Evidence.ofAlternatives look depth)))
        exact hne (Option.some.inj (hos.symm.trans hp))
      obtain ⟨π, sites, hπ, hsites, hshallow, hall⟩ := exists_led_of_allowed hdeep₁ hfirst hzs
      refine ⟨π, sites, hπ, ⟨alternatives, List.mem_cons_self, hsites⟩, hshallow, fun look' hlook' os' h' => ?_⟩
      have hfirst' := hsome look' hlook'
      rw [hfirst, Option.isSome_some, eq_comm, Option.isSome_iff_exists] at hfirst'
      obtain ⟨zs', hzs'⟩ := hfirst'
      rw [List.map_cons, Evidence.all_cons] at h'
      obtain ⟨p, hp⟩ := Evidence.allowed_both_of_some hzs'
        (Evidence.all (profile.map (Evidence.ofAlternatives look' depth)))
      obtain rfl := Option.some.inj (h'.symm.trans hp)
      exact (hall look' zs' hzs').filter p

end Led

theorem Rearranged.eq_of_const (h : Rearranged xs ys) (hconst : ∀ o ∈ xs, o = .const) : xs = ys := by
  have hshort : ∀ zs : List Occupant, zs.Nodup → (∀ o ∈ zs, o = .const) → zs = [] ∨ zs = [.const] := by
    intro zs hnodup hzs
    rcases zs with _ | ⟨o, _ | ⟨o', zs⟩⟩
    · exact .inl rfl
    · exact .inr (by rw [hzs o List.mem_cons_self])
    · have heq : o = o' := (hzs o (by simp)).trans (hzs o' (by simp)).symm
      exact absurd (heq ▸ List.mem_cons_self) (List.nodup_cons.1 hnodup).1
  have hys : ∀ o ∈ ys, o = .const := fun o ho => hconst o ((h.2.2 o).2 ho)
  rcases hshort xs h.1 hconst with rfl | rfl
  · exact (List.eq_nil_iff_forall_not_mem.2 fun o ho => List.not_mem_nil ((h.2.2 o).2 ho)).symm
  · rcases hshort ys h.2.1 hys with rfl | rfl
    · exact absurd ((h.2.2 _).1 (List.mem_singleton_self _)) List.not_mem_nil
    · rfl

/-- If the functions that a variable may stand for stand at all its sites, they are in the order of one of them, and
only a constant may come behind what that site gives. -/
theorem exists_order_of_judge {profile : List (List (List Site))} (h : judge look depth profile = some os)
    (hne : os ≠ []) (hfull : ∀ o ∈ os, o.isFunctor = true → ∀ alternatives ∈ profile, ∀ sites ∈ alternatives,
      ∀ s ∈ sites, s.path.length ≤ depth → o ∈ look s) :
    ∃ π : Site, ∃ early : Occupant → Bool, ∃ late : List Occupant,
      (∃ alternatives ∈ profile, ∃ sites ∈ alternatives, π ∈ sites) ∧ π.path.length ≤ depth ∧
      (∀ o ∈ late, o = .const) ∧
      ∀ look', (∀ s : Site, s.path.length ≤ depth → Rearranged (look s) (look' s)) →
        judge look' depth profile = some ((look' π).filter early ++ late) := by
  obtain ⟨π, sites, hπ, ⟨alternatives, halternatives, hsites⟩, hshallow, hled⟩ := exists_led_of_judge h hne
  have hlate : ∀ o ∈ os.filter fun o => decide (¬ ∀ s ∈ sites, o ∈ look s), o = .const := by
    intro o ho
    obtain ⟨hmem, hnot⟩ := List.mem_filter.1 ho
    cases o with
    | const => rfl
    | functor f arity =>
      refine absurd (fun s hs => ?_) (of_decide_eq_true hnot)
      exact hfull _ hmem rfl alternatives halternatives sites hsites s hs (hshallow s hs)
  refine ⟨π, fun o => decide (o ∈ os ∧ ∀ s ∈ sites, o ∈ look s), _,
    ⟨alternatives, halternatives, sites, hsites, hπ⟩, hshallow π hπ, hlate, fun look' hlook' => ?_⟩
  have hsome := isSome_eq_of_rel (judge_rel respected_rearranged hlook' profile)
  rw [h, Option.isSome_some, eq_comm, Option.isSome_iff_exists] at hsome
  obtain ⟨os', hos'⟩ := hsome
  have hrel : Rearranged os os' := by
    have hjudge := judge_rel respected_rearranged hlook' profile
    rw [h, hos'] at hjudge
    cases hjudge with
    | some hrel => exact hrel
  have hsame : ∀ o, (∀ s ∈ sites, o ∈ look s) ↔ ∀ s ∈ sites, o ∈ look' s := fun o =>
    forall₂_congr fun s hs => (hlook' s (hshallow s hs)).2.2 o
  have hrest : os.filter (fun o => decide (¬ ∀ s ∈ sites, o ∈ look s)) =
      os'.filter fun o => decide (¬ ∀ s ∈ sites, o ∈ look' s) := by
    refine Rearranged.eq_of_const ⟨hrel.1.filter _, hrel.2.1.filter _, fun o => ?_⟩ hlate
    simp only [List.mem_filter, hrel.2.2, hsame]
  rw [hos', hrest]
  refine congrArg some ((hled look' hlook' os' hos').trans ?_)
  simp only [hrel.2.2, hsame]

/-! ## The places of the variables of a variant -/

/-- No name stands in the terms for two of the variables, or twice in the term for one. -/
structure Naming.Separates (ν : Naming) (choice : Symbol → Occupant) (xs : List Symbol) : Prop where
  apart : ∀ x ∈ xs, ∀ y ∈ xs, ∀ z, z ∈ (ν.term x (choice x)).vars → z ∈ (ν.term y (choice y)).vars → x = y
  injective : ∀ x ∈ xs, ∀ f arity, choice x = .functor f arity → ∀ i < arity, ∀ j < arity, ν x f i = ν x f j → i = j

section Places

variable {σ : Symbol → Term Symbol} {y z : Symbol} {g : Path → Path}
  (honce : ∀ path, (((σ y).walk path).filter (·.2 = .free z)).map Prod.fst = [g path])

include honce

theorem Atom.places_subst {a : Atom Symbol} (honly : ∀ x ∈ a.vars, z ∈ (σ x).vars → x = y) :
    (a.subst σ).places z = (a.places y).map fun s => ⟨s.relation, g s.path⟩ := by
  rw [places, places, pathsTo_subst honly honce, List.map_map, List.map_map]
  rfl

theorem Formula.places_subst {φ : Formula Symbol} (honly : ∀ x ∈ φ.vars, z ∈ (σ x).vars → x = y) :
    (φ.subst σ).places z = (φ.places y).map (List.map fun s => ⟨s.relation, g s.path⟩) := by
  cases φ with
  | atom a =>
    have hatom : ∀ x ∈ a.vars, z ∈ (σ x).vars → x = y := fun x hx =>
      honly x (List.mem_flatMap.2 ⟨a, List.mem_singleton_self a, hx⟩)
    rw [subst_atom, places, places, Atom.places_subst honce hatom]
    rfl
  | neg φ => rfl
  | rule head body =>
    rw [subst_rule]
    rfl
  | disj φs =>
    rw [subst_disj, places, places, List.map_map, List.map_map]
    refine List.map_congr_left fun φ hφ => ?_
    cases φ with
    | atom a =>
      refine Atom.places_subst honce fun x hx => honly x (List.mem_flatMap.2 ⟨a, ?_, hx⟩)
      rw [atoms_disj]
      exact List.mem_flatMap.2 ⟨.atom a, hφ, List.mem_singleton_self a⟩
    | neg φ => rfl
    | rule head body => simp
    | disj ψs => simp

theorem Formula.profile_subst {φ : Formula Symbol} (honly : ∀ x ∈ φ.vars, z ∈ (σ x).vars → x = y) :
    (φ.subst σ).profile z = (φ.profile y).map (List.map (List.map fun s => ⟨s.relation, g s.path⟩)) := by
  cases φ with
  | rule head body =>
    rw [subst_rule, profile, profile, Formula.body, Formula.body, List.map_map, List.map_map]
    refine List.map_congr_left fun φ hφ => places_subst honce fun x hx => honly x ?_
    obtain ⟨a, ha, hxa⟩ := List.mem_flatMap.1 hx
    refine List.mem_flatMap.2 ⟨a, ?_, hxa⟩
    rw [atoms_rule]
    exact List.mem_cons_of_mem _ (List.mem_flatMap.2 ⟨φ, hφ, ha⟩)
  | atom a => rfl
  | neg φ => rfl
  | disj φs =>
    rw [subst_disj]
    rfl

end Places

section Variant

variable {ν : Naming} {choice : Symbol → Occupant} {φ : Formula Symbol} {f : Symbol} {arity i : Nat}
  (hsep : ν.Separates choice φ.vars) (hx : x ∈ φ.vars)

include hsep hx

/-- A variable that stays has the same places. -/
theorem Formula.profile_variant_kept (hchoice : choice x = .const) :
    (φ.variant ν choice).profile x = φ.profile x := by
  have hterm : ν.term x (choice x) = .var x := by rw [hchoice, Naming.term]
  have honce : ∀ path, (((ν.term x (choice x)).walk path).filter (·.2 = .free x)).map Prod.fst = [id path] := by
    intro path
    rw [hterm]
    simp
  have honly : ∀ y ∈ φ.vars, x ∈ (ν.term y (choice y)).vars → y = x := fun y hy hmem =>
    hsep.apart y hy x hx x hmem (by rw [hterm]; exact List.mem_singleton_self x)
  rw [variant, profile_subst honce honly]
  simp

/-- A new variable stands below the places of the variable that it is made for. -/
theorem Formula.profile_variant_child (hchoice : choice x = .functor f arity) (hi : i < arity) :
    (φ.variant ν choice).profile (ν x f i) = (φ.profile x).map (List.map (List.map (Site.below i))) := by
  have hterm : ν.term x (choice x) = .app f ((List.range arity).map fun j => .var (ν x f j)) := by
    rw [hchoice, Naming.term]
  have honce : ∀ path, (((ν.term x (choice x)).walk path).filter (·.2 = .free (ν x f i))).map Prod.fst =
      [i :: path] := by
    intro path
    have hone : (List.range arity).filter (fun j => decide (ν x f j = ν x f i)) = [i] := by
      have hcongr : (List.range arity).filter (fun j => decide (ν x f j = ν x f i)) =
          (List.range arity).filter (fun j => decide (j = i)) := by
        refine List.filter_congr fun j hj => decide_eq_decide.2 ⟨fun heq => ?_, fun heq => by rw [heq]⟩
        exact hsep.injective x hx f arity hchoice j (List.mem_range.1 hj) i hi heq
      rw [hcongr, List.filter_eq, List.count_eq_one_of_mem List.nodup_range (List.mem_range.2 hi)]
      rfl
    rw [hchoice, Naming.walk_term_functor, List.filter_cons_of_neg (by simp), List.filter_map, List.map_map]
    simp only [Function.comp_def, Content.free.injEq, hone]
    rfl
  have honly : ∀ y ∈ φ.vars, ν x f i ∈ (ν.term y (choice y)).vars → y = x := by
    intro y hy hmem
    refine hsep.apart y hy x hx _ hmem ?_
    rw [hterm, Term.vars_app]
    simp only [List.mem_flatMap, List.mem_map, List.mem_range]
    exact ⟨_, ⟨i, hi, rfl⟩, List.mem_singleton_self _⟩
  rw [variant, profile_subst honce honly]
  rfl

end Variant

end GameCircuit
