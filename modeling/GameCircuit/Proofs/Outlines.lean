import GameCircuit.Proofs.FirstOccurrences

/-!
# Outlines

The outline of a formula lists what its places hold, constants, functions and variables alike, in the order in
which they are written.  Replacing variables replaces their entries, each by the outline of a term
(`Formula.walk_subst`), so that what the occupancy of a variant is, and where its variables stand, is read off
the outline of the formula.
-/

namespace GameCircuit

/-- What a place holds: a constant or a function, or a variable. -/
inductive Content where
  /-- A constant or a function. -/
  | filled (o : Occupant)
  /-- A variable. -/
  | free (x : Symbol)
deriving DecidableEq

namespace Content

/-- The constant or function. -/
def occupant? : Content → Option Occupant
  | filled o => some o
  | free _ => none

/-- The variable. -/
def name? : Content → Option Symbol
  | filled _ => none
  | free x => some x

end Content

section Entries

variable {π : Type}

/-- The constants and functions among the entries. -/
def filledEntries (es : List (π × Content)) : List (π × Occupant) :=
  es.filterMap fun e => e.2.occupant?.map (e.1, ·)

/-- The variables among the entries. -/
def freeEntries (es : List (π × Content)) : List (π × Symbol) :=
  es.filterMap fun e => e.2.name?.map (e.1, ·)

/-- What an entry becomes when its variable is replaced. -/
def grow (g : Symbol → π → List (π × Content)) (e : π × Content) : List (π × Content) :=
  match e.2 with
  | .filled _ => [e]
  | .free x => g x e.1

theorem mem_filledEntries {es : List (π × Content)} {e : π × Occupant} :
    e ∈ filledEntries es ↔ (e.1, .filled e.2) ∈ es := by
  simp only [filledEntries, List.mem_filterMap, Option.map_eq_some_iff, Prod.exists]
  constructor
  · rintro ⟨s, c, hmem, o, ho, rfl⟩
    cases c with
    | filled o' =>
      obtain rfl := Option.some.inj ho
      exact hmem
    | free x => cases ho
  · exact fun hmem => ⟨e.1, _, hmem, e.2, rfl, rfl⟩

theorem mem_freeEntries {es : List (π × Content)} {e : π × Symbol} :
    e ∈ freeEntries es ↔ (e.1, .free e.2) ∈ es := by
  simp only [freeEntries, List.mem_filterMap, Option.map_eq_some_iff, Prod.exists]
  constructor
  · rintro ⟨s, c, hmem, x, hx, rfl⟩
    cases c with
    | filled o => cases hx
    | free y =>
      obtain rfl := Option.some.inj hx
      exact hmem
  · exact fun hmem => ⟨e.1, _, hmem, e.2, rfl, rfl⟩

end Entries

/-- What the arguments put in front is what they hold, one after another. -/
theorem argumentsOnto_eq {α : Type} (g : Term Symbol → Path → List α → List α) (h : Term Symbol → Path → List α)
    {ts : List (Term Symbol)} {path : Path} {rest : List α}
    (hg : ∀ t ∈ ts, ∀ path rest, g t path rest = h t path ++ rest) :
    argumentsOnto (ts.map g) path rest = (ts.zipIdx.flatMap fun p => h p.1 (p.2 :: path)) ++ rest := by
  suffices hfrom : ∀ k, ((ts.map g).zipIdx k).foldr (fun p rest => p.1 (p.2 :: path) rest) rest =
      ((ts.zipIdx k).flatMap fun p => h p.1 (p.2 :: path)) ++ rest from hfrom 0
  induction ts with
  | nil => exact fun _ => rfl
  | cons t ts ih =>
    intro k
    obtain ⟨ht, hts⟩ := List.forall_mem_cons.1 hg
    rw [List.map_cons, List.zipIdx_cons, List.foldr_cons, ih hts (k + 1), List.zipIdx_cons, List.flatMap_cons,
      List.append_assoc]
    exact ht _ _

namespace Term

/-- What the places of a term hold with their paths, outer before inner, where the path leads to the term. -/
def walk : Term Symbol → Path → List (Path × Content) :=
  fold (fun _ path => [(path, .filled .const)]) (fun x path => [(path, .free x)])
    fun f args path => (path, .filled (.functor f args.length)) :: args.zipIdx.flatMap fun p => p.1 (p.2 :: path)

variable {path : Path}

@[simp] theorem walk_const (c : Symbol) : (const c).walk path = [(path, .filled .const)] := rfl

@[simp] theorem walk_var (x : Symbol) : (var x).walk path = [(path, .free x)] := rfl

@[simp] theorem walk_app (f : Symbol) (ts : List (Term Symbol)) : (app f ts).walk path =
    (path, .filled (.functor f ts.length)) :: ts.zipIdx.flatMap fun p => p.1.walk (p.2 :: path) := by
  rw [walk, fold_app, List.length_map, List.zipIdx_map, List.flatMap_map]
  rfl

theorem occupantsOnto_eq (t : Term Symbol) (path : Path) (rest : List (Path × Occupant)) :
    t.occupantsOnto path rest = filledEntries (t.walk path) ++ rest := by
  induction t generalizing path rest with
  | const c => rfl
  | var x => rfl
  | app f ts ih =>
    rw [occupantsOnto, fold_app, ← occupantsOnto, List.length_map,
      argumentsOnto_eq _ (fun t path => filledEntries (t.walk path)) fun t ht path rest => ih t ht path rest]
    simp [filledEntries, Content.occupant?, List.filterMap_flatMap]

theorem variablePathsOnto_eq (t : Term Symbol) (path : Path) (rest : List (Path × Symbol)) :
    t.variablePathsOnto path rest = freeEntries (t.walk path) ++ rest := by
  induction t generalizing path rest with
  | const c => rfl
  | var x => rfl
  | app f ts ih =>
    rw [variablePathsOnto, fold_app, ← variablePathsOnto,
      argumentsOnto_eq _ (fun t path => freeEntries (t.walk path)) fun t ht path rest => ih t ht path rest]
    simp [freeEntries, Content.name?, List.filterMap_flatMap]

theorem walk_subst (σ : Symbol → Term Symbol) (t : Term Symbol) (path : Path) :
    (t.subst σ).walk path = (t.walk path).flatMap (grow fun x => (σ x).walk) := by
  induction t generalizing path with
  | const c => rfl
  | var x => simp [grow]
  | app f ts ih =>
    rw [subst_app, walk_app, walk_app, List.length_map, List.flatMap_cons, List.flatMap_assoc, List.zipIdx_map,
      List.flatMap_map]
    refine congrArg (_ :: ·) (List.flatMap_congr fun p hp => ?_)
    exact ih p.1 (List.fst_mem_of_mem_zipIdx hp) _

end Term

namespace Atom

/-- What the places of an atom hold with their paths. -/
def walk (a : Atom Symbol) : List (Path × Content) :=
  if a.relation = Keyword.distinct then [] else a.args.zipIdx.flatMap fun p => p.1.walk [p.2]

theorem occupants_eq (a : Atom Symbol) : a.occupants = filledEntries a.walk := by
  rw [occupants, walk]
  split_ifs
  · rfl
  · rw [argumentsOnto_eq _ (fun t path => filledEntries (t.walk path)) fun t _ => t.occupantsOnto_eq, List.append_nil]
    simp [filledEntries, List.filterMap_flatMap]

theorem variablePaths_eq (a : Atom Symbol) : a.variablePaths = freeEntries a.walk := by
  rw [variablePaths, walk]
  split_ifs
  · rfl
  · rw [argumentsOnto_eq _ (fun t path => freeEntries (t.walk path)) fun t _ => t.variablePathsOnto_eq,
      List.append_nil]
    simp [freeEntries, List.filterMap_flatMap]

theorem walk_subst (σ : Symbol → Term Symbol) (a : Atom Symbol) :
    (a.subst σ).walk = a.walk.flatMap (grow fun x => (σ x).walk) := by
  rw [walk, walk, subst]
  split_ifs
  · rfl
  · rw [List.zipIdx_map, List.flatMap_map, List.flatMap_assoc]
    exact List.flatMap_congr fun p _ => p.1.walk_subst σ _

theorem pathsTo_eq (x : Symbol) (a : Atom Symbol) :
    a.pathsTo x = (a.walk.filter (·.2 = .free x)).map Prod.fst := by
  rw [pathsTo, variablePaths_eq, freeEntries]
  induction a.walk with
  | nil => rfl
  | cons e es ih =>
    obtain ⟨path, c⟩ := e
    cases c with
    | filled o => simpa [Content.name?] using ih
    | free y =>
      by_cases hyx : y = x
      · simpa [Content.name?, hyx] using ih
      · simpa [Content.name?, hyx] using ih

theorem mem_vars_of_mem_walk {a : Atom Symbol} {path : Path} {x : Symbol} (h : (path, .free x) ∈ a.walk) :
    x ∈ a.vars := by
  have hmem : (path, x) ∈ a.variablePaths := by
    rw [variablePaths_eq]
    exact mem_freeEntries.2 h
  exact (mem_variablePaths.1 hmem).2.mem_vars

/-- Where the variable `z` stands after replacing, if it stands only in what replaces `y`, and once there. -/
theorem pathsTo_subst {σ : Symbol → Term Symbol} {a : Atom Symbol} {y z : Symbol} {g : Path → Path}
    (honly : ∀ x ∈ a.vars, z ∈ (σ x).vars → x = y)
    (honce : ∀ path, (((σ y).walk path).filter (·.2 = .free z)).map Prod.fst = [g path]) :
    (a.subst σ).pathsTo z = (a.pathsTo y).map g := by
  rw [pathsTo_eq, pathsTo_eq, walk_subst, List.filter_flatMap, List.map_flatMap, List.map_map]
  have heach : ∀ e ∈ a.walk, ((grow (fun x => (σ x).walk) e).filter (·.2 = .free z)).map Prod.fst =
      if decide (e.2 = .free y) then [g e.1] else [] := by
    rintro ⟨path, c⟩ he
    cases c with
    | filled o => simp [grow]
    | free x =>
      by_cases hxy : x = y
      · rw [if_pos (by simp [hxy]), hxy]
        exact honce path
      · rw [if_neg (by simpa using hxy), List.map_eq_nil_iff, List.filter_eq_nil_iff]
        rintro ⟨path', c⟩ hmem hc
        obtain rfl : c = .free z := by simpa using hc
        refine hxy (honly x (mem_vars_of_mem_walk he) ?_)
        have hfree : (path', z) ∈ (σ x).variablePathsOnto path [] := by
          rw [Term.variablePathsOnto_eq, List.append_nil]
          exact mem_freeEntries.2 hmem
        rcases Term.mem_variablePathsOnto.1 hfree with hat | hnil
        · exact hat.mem_vars
        · cases hnil
  rw [List.flatMap_congr heach, flatMap_ite_nil, ← List.map_eq_flatMap]
  rfl

/-- The sites of a variable in an atom. -/
def places (x : Symbol) (a : Atom Symbol) : List Site := (a.pathsTo x).map a.site

end Atom

/-! ## Sites of a formula -/

/-- The site of argument `i` of the function at a site. -/
def Site.below (i : Nat) (s : Site) : Site := ⟨s.relation, i :: s.path⟩

theorem Site.below_inj {i j : Nat} {s s' : Site} (h : s.below i = s'.below j) : i = j ∧ s = s' := by
  obtain ⟨relation, path⟩ := s
  obtain ⟨relation', path'⟩ := s'
  obtain ⟨rfl, hpath⟩ := Site.mk.inj h
  obtain ⟨rfl, rfl⟩ := List.cons.inj hpath
  exact ⟨rfl, rfl⟩

/-- How the arguments of a function in place of a variable are named. -/
abbrev Naming := Symbol → Symbol → Nat → Symbol

namespace Naming

/-- The term that replaces the variable `x` if it stands for this. -/
def term (ν : Naming) (x : Symbol) : Occupant → Term Symbol
  | .const => .var x
  | .functor f arity => .app f ((List.range arity).map fun i => .var (ν x f i))

/-- What the term that replaces the variable `x` holds, from a site down. -/
def branch (ν : Naming) (x : Symbol) (o : Occupant) (s : Site) : List (Site × Content) :=
  match o with
  | .const => [(s, .free x)]
  | .functor f arity => (s, .filled (.functor f arity)) ::
      (List.range arity).map fun i => (s.below i, .free (ν x f i))

variable (ν : Naming) (x : Symbol)

theorem walk_term_functor (f : Symbol) (arity : Nat) (path : Path) : (ν.term x (.functor f arity)).walk path =
    (path, .filled (.functor f arity)) :: (List.range arity).map fun i => (i :: path, .free (ν x f i)) := by
  have hzip : ((List.range arity).map fun i => (Term.var (ν x f i))).zipIdx =
      (List.range arity).map fun i => (Term.var (ν x f i), i) := by
    refine List.ext_getElem (by simp) fun i h1 h2 => ?_
    simp
  rw [term, Term.walk_app, hzip, List.flatMap_map, List.length_map, List.length_range]
  simp [List.map_eq_flatMap]

theorem walk_term (o : Occupant) (s : Site) :
    ((ν.term x o).walk s.path).map (fun e => ((⟨s.relation, e.1⟩ : Site), e.2)) = ν.branch x o s := by
  cases o with
  | const => rfl
  | functor f arity =>
    rw [walk_term_functor, List.map_cons, List.map_map]
    rfl

/-- The entries that an entry of an outline becomes, as far as they are no deeper than this. -/
def growth (choice : Symbol → Occupant) (depth : Nat) (e : Site × Content) : List (Site × Content) :=
  (grow (fun x => ν.branch x (choice x)) e).filter fun e => e.1.path.length ≤ depth

variable {ν x} {o : Occupant} {s : Site} {e : Site × Content}

theorem mem_branch : e ∈ ν.branch x o s ↔ (o = .const ∧ e = (s, .free x)) ∨ ∃ f arity, o = .functor f arity ∧
    (e = (s, .filled (.functor f arity)) ∨ ∃ i < arity, e = (s.below i, .free (ν x f i))) := by
  cases o with
  | const => simp [branch]
  | functor f arity => simp [branch, eq_comm (a := e)]

theorem path_length_le_of_mem_branch (h : e ∈ ν.branch x o s) : s.path.length ≤ e.1.path.length := by
  rcases mem_branch.1 h with ⟨-, rfl⟩ | ⟨f, arity, -, rfl | ⟨i, -, rfl⟩⟩
  · exact le_rfl
  · exact le_rfl
  · exact Nat.le_succ _

end Naming

/-- The constants and functions that an entry of an outline becomes for a choice. -/
def fillEntry (choice : Symbol → Occupant) (e : Site × Content) : List (Site × Occupant) :=
  match e.2 with
  | .filled o => [(e.1, o)]
  | .free x => if (choice x).isFunctor then [(e.1, choice x)] else []

theorem fillEntry_free (choice : Symbol → Occupant) (s : Site) (x : Symbol) :
    fillEntry choice (s, .free x) = if (choice x).isFunctor then [(s, choice x)] else [] := rfl

theorem fst_eq_of_mem_fillEntry {choice : Symbol → Occupant} {e : Site × Content} {p : Site × Occupant}
    (h : p ∈ fillEntry choice e) : p.1 = e.1 := by
  obtain ⟨s, c⟩ := e
  cases c with
  | filled o => rw [List.mem_singleton.1 h]
  | free x =>
    rw [fillEntry_free] at h
    split_ifs at h
    · rw [List.mem_singleton.1 h]
    · cases h

theorem Naming.filledEntries_growth_free {ν : Naming} {choice : Symbol → Occupant} {depth : Nat} {s : Site}
    {x : Symbol} (hs : s.path.length ≤ depth) :
    filledEntries (ν.growth choice depth (s, .free x)) = fillEntry choice (s, .free x) := by
  show filledEntries ((ν.branch x (choice x) s).filter fun e => e.1.path.length ≤ depth) =
    if (choice x).isFunctor then [(s, choice x)] else []
  cases choice x with
  | const => simp [branch, hs, filledEntries, Content.occupant?, Occupant.isFunctor]
  | functor f arity =>
    have hnone : filledEntries (((List.range arity).map fun i =>
        (s.below i, Content.free (ν x f i))).filter fun e => e.1.path.length ≤ depth) = [] := by
      refine List.filterMap_eq_nil_iff.2 fun e he => ?_
      obtain ⟨i, -, rfl⟩ := List.mem_map.1 (List.mem_filter.1 he).1
      rfl
    rw [branch, List.filter_cons_of_pos (by simpa using hs)]
    exact congrArg ((s, .functor f arity) :: ·) hnone

namespace Formula

/-- What the places of a formula hold with their sites, in order. -/
def walk (φ : Formula Symbol) : List (Site × Content) :=
  φ.atoms.flatMap fun a => a.walk.map fun e => (a.site e.1, e.2)

/-- What the places of a formula hold that are no deeper than this. -/
def outline (depth : Nat) (φ : Formula Symbol) : List (Site × Content) :=
  φ.walk.filter fun e => e.1.path.length ≤ depth

/-- The variant of a formula for a choice. -/
def variant (ν : Naming) (choice : Symbol → Occupant) (φ : Formula Symbol) : Formula Symbol :=
  φ.subst fun x => ν.term x (choice x)

variable {ν : Naming} {choice : Symbol → Occupant} {φ : Formula Symbol} {depth : Nat} {s : Site} {x : Symbol}

theorem mem_vars_of_mem_walk (h : (s, .free x) ∈ φ.walk) : x ∈ φ.vars := by
  obtain ⟨a, ha, hmem⟩ := List.mem_flatMap.1 h
  obtain ⟨e, he, heq⟩ := List.mem_map.1 hmem
  obtain ⟨-, hc⟩ := Prod.mk.inj heq
  have hfree : (e.1, .free x) ∈ a.walk := by
    rw [← hc]
    exact he
  exact List.mem_flatMap.2 ⟨a, ha, Atom.mem_vars_of_mem_walk hfree⟩

theorem variant_const (ν : Naming) (φ : Formula Symbol) : φ.variant ν (fun _ => .const) = φ := subst_var_id φ

theorem walk_variant (ν : Naming) (choice : Symbol → Occupant) (φ : Formula Symbol) :
    (φ.variant ν choice).walk = φ.walk.flatMap (grow fun x => ν.branch x (choice x)) := by
  rw [walk, variant, atoms_subst, List.flatMap_map, walk, List.flatMap_assoc]
  refine List.flatMap_congr fun a _ => ?_
  rw [Atom.walk_subst, List.map_flatMap, List.flatMap_map]
  refine List.flatMap_congr fun e _ => ?_
  obtain ⟨path, c⟩ := e
  cases c with
  | filled o => rfl
  | free x => exact ν.walk_term x (choice x) (a.site path)

/-- An entry becomes entries at its site and below, as far as these are no deeper than `depth`. -/
theorem outline_variant (ν : Naming) (choice : Symbol → Occupant) (depth : Nat) (φ : Formula Symbol) :
    (φ.variant ν choice).outline depth = (φ.outline depth).flatMap (ν.growth choice depth) := by
  have hdeep : ∀ e : Site × Content, ν.growth choice depth e =
      if decide (e.1.path.length ≤ depth) then ν.growth choice depth e else [] := by
    rintro ⟨s, c⟩
    split_ifs with hs
    · rfl
    · have hlt : depth < s.path.length := by simpa using hs
      refine List.filter_eq_nil_iff.2 fun e he => ?_
      have hle : s.path.length ≤ e.1.path.length := by
        cases c with
        | filled o =>
          rw [List.mem_singleton.1 he]
        | free x => exact ν.path_length_le_of_mem_branch he
      simpa using Nat.lt_of_lt_of_le hlt hle
  rw [outline, walk_variant, List.filter_flatMap, outline, ← flatMap_ite_nil]
  exact List.flatMap_congr fun e _ => hdeep e

theorem mem_outline {e : Site × Content} : e ∈ φ.outline depth ↔ e ∈ φ.walk ∧ e.1.path.length ≤ depth := by
  simp [outline]

/-- The variables of a variant stand where they stood, or below a variable that is replaced. -/
theorem mem_outline_variant_free {y : Symbol} (h : (s, .free y) ∈ (φ.variant ν choice).outline depth) :
    (choice y = .const ∧ (s, .free y) ∈ φ.outline depth) ∨ ∃ x f arity i s', choice x = .functor f arity ∧ i < arity ∧
      y = ν x f i ∧ s = Site.below i s' ∧ (s', .free x) ∈ φ.outline depth := by
  rw [outline_variant] at h
  obtain ⟨⟨s', c⟩, he, hgrowth⟩ := List.mem_flatMap.1 h
  have hmem := (List.mem_filter.1 hgrowth).1
  cases c with
  | filled o =>
    obtain ⟨-, hc⟩ := Prod.mk.inj (List.mem_singleton.1 hmem)
    cases hc
  | free x =>
    rcases ν.mem_branch.1 hmem with ⟨hconst, hentry⟩ | ⟨f, arity, hfunctor, hentry | ⟨i, hi, hentry⟩⟩
    · obtain ⟨rfl, hc⟩ := Prod.mk.inj hentry
      obtain rfl := Content.free.inj hc
      exact .inl ⟨hconst, he⟩
    · cases (Prod.mk.inj hentry).2
    · obtain ⟨rfl, hc⟩ := Prod.mk.inj hentry
      exact .inr ⟨x, f, arity, i, s', hfunctor, hi, Content.free.inj hc, rfl, he⟩

/-- The constants and functions of a variant stand where they stood, or where a variable is replaced. -/
theorem mem_outline_variant_filled {o : Occupant} (h : (s, .filled o) ∈ (φ.variant ν choice).outline depth) :
    (s, .filled o) ∈ φ.outline depth ∨
      ∃ x, choice x = o ∧ o ≠ .const ∧ (s, .free x) ∈ φ.outline depth := by
  rw [outline_variant] at h
  obtain ⟨⟨s', c⟩, he, hgrowth⟩ := List.mem_flatMap.1 h
  have hmem := (List.mem_filter.1 hgrowth).1
  cases c with
  | filled o' =>
    rw [List.mem_singleton.1 hmem]
    exact .inl he
  | free x =>
    rcases ν.mem_branch.1 hmem with ⟨-, hentry⟩ | ⟨f, arity, hfunctor, hentry | ⟨i, -, hentry⟩⟩
    · cases (Prod.mk.inj hentry).2
    · obtain ⟨rfl, hc⟩ := Prod.mk.inj hentry
      obtain rfl := Content.filled.inj hc
      exact .inr ⟨x, hfunctor, by simp, he⟩
    · cases (Prod.mk.inj hentry).2

/-- The constants and functions of a formula with their sites, as far as these are no deeper than this. -/
def occupied (depth : Nat) (φ : Formula Symbol) : List (Site × Occupant) := filledEntries (φ.outline depth)

/-- What stands in a variant is what stands in the formula, and a function at each place of a variable that is
replaced. -/
theorem occupied_variant (ν : Naming) (choice : Symbol → Occupant) (depth : Nat) (φ : Formula Symbol) :
    (φ.variant ν choice).occupied depth = (φ.outline depth).flatMap (fillEntry choice) := by
  rw [occupied, outline_variant, filledEntries, List.filterMap_flatMap]
  refine List.flatMap_congr fun e he => ?_
  have hshallow : e.1.path.length ≤ depth := (mem_outline.1 he).2
  obtain ⟨s, c⟩ := e
  cases c with
  | filled o =>
    rw [Naming.growth, grow, List.filter_cons_of_pos (by simpa using hshallow), List.filter_nil]
    rfl
  | free x => exact ν.filledEntries_growth_free hshallow

end Formula

/-! ## What stands where, in order -/

/-- What stands at a site, if these are the constants and functions with their sites. -/
def standing (entries : List (Site × Occupant)) (s : Site) : List Occupant :=
  (entries.filter (·.1 = s)).map Prod.snd

section Standing

variable {entries : List (Site × Occupant)} {φs : List (Formula Symbol)} {s : Site} {o : Occupant} {depth : Nat}

theorem mem_standing : o ∈ standing entries s ↔ (s, o) ∈ entries := by
  simp [standing]

theorem nodup_standing (h : entries.Nodup) (s : Site) : (standing entries s).Nodup := by
  refine List.Nodup.map_on (fun e he e' he' heq => ?_) (h.filter _)
  simp only [List.mem_filter, decide_eq_true_eq] at he he'
  exact Prod.ext (he.2.trans he'.2.symm) heq

theorem standing_eraseDups (entries : List (Site × Occupant)) (s : Site) :
    standing entries.eraseDups s = (standing entries s).eraseDups := by
  induction entries using List.reverseRecOn with
  | nil => rfl
  | append_singleton entries e ih =>
    have hone : [e].eraseDups = [e] := eraseDups_eq_self (List.nodup_singleton e)
    have hone' : [e.2].eraseDups = [e.2] := eraseDups_eq_self (List.nodup_singleton e.2)
    have happend : ∀ es es' : List (Site × Occupant), standing (es ++ es') s = standing es s ++ standing es' s := by
      intro es es'
      rw [standing, List.filter_append, List.map_append]
      rfl
    rw [eraseDups_append, happend, happend, eraseDups_append, ih, hone]
    by_cases hs : e.1 = s
    · have hsingle : standing [e] s = [e.2] := by simp [standing, hs]
      have hmem : e ∈ entries ↔ e.2 ∈ standing entries s := by
        rw [mem_standing, ← hs]
      rw [hsingle, hone']
      by_cases he : e ∈ entries
      · rw [List.filter_cons_of_neg (by simpa using he), List.filter_cons_of_neg (by simpa using hmem.1 he)]
        rfl
      · rw [List.filter_cons_of_pos (by simpa using he), List.filter_cons_of_pos (by simpa using mt hmem.2 he)]
        exact congrArg _ hsingle
    · have hnone : standing [e] s = [] := by simp [standing, hs]
      have hnone' : standing ([e].filter fun e => !entries.contains e) s = [] := by
        refine List.eq_nil_iff_forall_not_mem.2 fun o ho => hs ?_
        rw [mem_standing, List.mem_filter, List.mem_singleton] at ho
        rw [← ho.1]
      rw [hnone, hnone']
      rfl

/-- A site is looked up in the order in which it is filled. -/
theorem Occupancy.lookup_eq (φs : List (Formula Symbol)) (s : Site) :
    (ofFormulas φs).lookup s = (standing (siteOccupants φs) s).eraseDups := by
  rw [ofFormulas]
  suffices hfold : ∀ entries : List (Site × Occupant),
      lookup (entries.foldl (fun occupancy e => occupancy.alter e.1 fun os? => appendNew (os?.getD []) e.2) .empty) s =
        (standing entries s).eraseDups from hfold (siteOccupants φs)
  intro entries
  induction entries using List.reverseRecOn with
  | nil =>
    rw [List.foldl_nil, lookup, OrderedMap.get?_empty]
    rfl
  | append_singleton entries e ih =>
    have hone : [e.2].eraseDups = [e.2] := eraseDups_eq_self (List.nodup_singleton e.2)
    rw [List.foldl_append, List.foldl_cons, List.foldl_nil, standing, List.filter_append, List.map_append,
      eraseDups_append, ← standing]
    by_cases hs : e.1 = s
    · rw [lookup, hs, OrderedMap.get?_alter_self, Option.getD_some, ← lookup, ih, appendNew,
        List.filter_cons_of_pos (by simpa using hs), List.filter_nil, List.map_singleton, hone]
      by_cases he : e.2 ∈ standing entries s
      · rw [if_pos (by simpa using List.mem_eraseDups.2 he), List.filter_cons_of_neg (by simpa using he),
          List.filter_nil, List.append_nil]
      · rw [if_neg (by simpa [List.mem_eraseDups] using he), List.filter_cons_of_pos (by simpa using he),
          List.filter_nil]
    · rw [lookup, OrderedMap.get?_alter_of_ne _ hs, ← lookup, ih, List.filter_cons_of_neg (by simpa using hs)]
      simp

theorem siteOccupants_eq (φs : List (Formula Symbol)) :
    siteOccupants φs = filledEntries (φs.flatMap Formula.walk) := by
  rw [siteOccupants, List.flatMap_assoc, filledEntries, List.filterMap_flatMap]
  refine List.flatMap_congr fun φ _ => ?_
  rw [Formula.walk, List.filterMap_flatMap]
  refine List.flatMap_congr fun a _ => ?_
  rw [Atom.occupants_eq, filledEntries, List.map_filterMap, List.filterMap_map]
  refine List.filterMap_congr fun e _ => ?_
  rw [Option.map_map]
  rfl

/-- The constants and functions of a description with their sites, as far as these are no deeper than this, in the
order in which they first occur. -/
def occupiedSites (depth : Nat) (φs : List (Formula Symbol)) : List (Site × Occupant) :=
  (φs.flatMap (Formula.occupied depth)).eraseDups

theorem nodup_occupiedSites (depth : Nat) (φs : List (Formula Symbol)) : (occupiedSites depth φs).Nodup :=
  nodup_eraseDups _

theorem lookup_eq_standing (hs : s.path.length ≤ depth) :
    (Occupancy.ofFormulas φs).lookup s = standing (occupiedSites depth φs) s := by
  have hshallow : ∀ es : List (Site × Content), standing (filledEntries es) s =
      standing (filledEntries (es.filter fun e => e.1.path.length ≤ depth)) s := by
    intro es
    induction es with
    | nil => rfl
    | cons e es ih =>
      obtain ⟨s', c⟩ := e
      cases c with
      | free x =>
        by_cases hs' : s'.path.length ≤ depth
        · rw [List.filter_cons_of_pos (by simpa using hs')]
          exact ih
        · rw [List.filter_cons_of_neg (by simpa using hs')]
          exact ih
      | filled o =>
        by_cases hs' : s' = s
        · rw [List.filter_cons_of_pos (by simpa [hs'] using hs)]
          simpa [filledEntries, standing, Content.occupant?, hs'] using ih
        · have hskip : standing (filledEntries ((s', .filled o) :: es)) s = standing (filledEntries es) s := by
            simp [filledEntries, standing, Content.occupant?, hs']
          rw [hskip, ih, List.filter_cons]
          split_ifs
          · simp [filledEntries, standing, Content.occupant?, hs']
          · rfl
  rw [Occupancy.lookup_eq, siteOccupants_eq, occupiedSites, standing_eraseDups, hshallow, List.filter_flatMap]
  refine congrArg (fun es => (standing es s).eraseDups) ?_
  rw [filledEntries, List.filterMap_flatMap]
  rfl

end Standing

end GameCircuit
