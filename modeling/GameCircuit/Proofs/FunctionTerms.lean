import GameCircuit.Proofs.FaithfulPasses
import GameCircuit.Proofs.LeastModel
import Mathlib.Data.Set.Finite.Basic

/-!
# Facts about function terms

Grounding fills the places of variables with constants only, and normalization replaces the variables that
may stand for function terms.  No atom of the Herbrand model of a program is lost by that, as long as the
passes lose nothing.

In the end no pass changes anything, so an instance with a function term for a variable is also one of a
longer rule of the same description.  The longest one has constants for its variables, and is found by
grounding.
-/

namespace GameCircuit

/-! ## Longest instances -/

theorem length_flatMap_le {α β : Type} {as : List α} {f g : α → List β}
    (h : ∀ a ∈ as, (f a).length ≤ (g a).length) : (as.flatMap f).length ≤ (as.flatMap g).length := by
  induction as with
  | nil => exact Nat.le_refl 0
  | cons a as ih =>
    obtain ⟨ha, has⟩ := List.forall_mem_cons.1 h
    rw [List.flatMap_cons, List.flatMap_cons, List.length_append, List.length_append]
    exact Nat.add_le_add ha (ih has)

theorem length_flatMap_lt {α β : Type} {as : List α} {f g : α → List β}
    (h : ∀ a ∈ as, (f a).length ≤ (g a).length) (hlt : ∃ a ∈ as, (f a).length < (g a).length) :
    (as.flatMap f).length < (as.flatMap g).length := by
  induction as with
  | nil => simp at hlt
  | cons a as ih =>
    obtain ⟨ha, has⟩ := List.forall_mem_cons.1 h
    have hrest := length_flatMap_le has
    rw [List.flatMap_cons, List.flatMap_cons, List.length_append, List.length_append]
    obtain ⟨b, hb, hlt⟩ := hlt
    rcases List.mem_cons.1 hb with rfl | hlater
    · omega
    · have hstrict := ih has ⟨b, hlater, hlt⟩
      omega

namespace Term

variable {σ : Symbol → Term Symbol} {t : Term Symbol}

theorem length_symbols_pos (t : Term Symbol) : 0 < t.symbols.length := by
  cases t with
  | const c => exact Nat.zero_lt_one
  | var x => exact Nat.zero_lt_one
  | app f ts =>
    rw [symbols_app]
    exact Nat.succ_pos _

theorem length_symbols_le (σ : Symbol → Term Symbol) (t : Term Symbol) :
    t.symbols.length ≤ (t.subst σ).symbols.length := by
  induction t with
  | const c => exact Nat.le_refl _
  | var x => exact (σ x).length_symbols_pos
  | app f ts ih =>
    rw [subst_app, symbols_app, symbols_app, List.flatMap_map, List.length_cons, List.length_cons]
    exact Nat.succ_le_succ (length_flatMap_le ih)

theorem length_symbols_lt (h : ∃ x ∈ t.vars, 1 < (σ x).symbols.length) :
    t.symbols.length < (t.subst σ).symbols.length := by
  induction t with
  | const c => simp at h
  | var x => simpa using h
  | app f ts ih =>
    rw [subst_app, symbols_app, symbols_app, List.flatMap_map, List.length_cons, List.length_cons]
    obtain ⟨x, hx, hlt⟩ := h
    rw [vars_app] at hx
    obtain ⟨t, ht, hxt⟩ := List.mem_flatMap.1 hx
    exact Nat.succ_lt_succ (length_flatMap_lt (fun t _ => t.length_symbols_le σ) ⟨t, ht, ih t ht ⟨x, hxt, hlt⟩⟩)

end Term

namespace Atom

variable {σ : Symbol → Term Symbol} {a : Atom Symbol}

theorem length_symbols_le (σ : Symbol → Term Symbol) (a : Atom Symbol) :
    a.symbols.length ≤ (a.subst σ).symbols.length := by
  rw [symbols, symbols, subst, List.flatMap_map, List.length_cons, List.length_cons]
  exact Nat.succ_le_succ (length_flatMap_le fun t _ => t.length_symbols_le σ)

theorem length_symbols_lt (h : ∃ x ∈ a.vars, 1 < (σ x).symbols.length) :
    a.symbols.length < (a.subst σ).symbols.length := by
  obtain ⟨x, hx, hlt⟩ := h
  obtain ⟨t, ht, hxt⟩ := List.mem_flatMap.1 hx
  rw [symbols, symbols, subst, List.flatMap_map, List.length_cons, List.length_cons]
  exact Nat.succ_lt_succ (length_flatMap_lt (fun t _ => t.length_symbols_le σ)
    ⟨t, ht, Term.length_symbols_lt ⟨x, hxt, hlt⟩⟩)

end Atom

namespace Formula

variable {σ θ : Symbol → Term Symbol} {φ : Formula Symbol} {head : Atom Symbol}

/-- A term with arguments makes the formula longer. -/
theorem length_symbols_lt (h : ∃ x ∈ φ.vars, 1 < (σ x).symbols.length) :
    φ.symbols.length < (φ.subst σ).symbols.length := by
  obtain ⟨x, hx, hlt⟩ := h
  obtain ⟨a, ha, hxa⟩ := List.mem_flatMap.1 hx
  rw [symbols, symbols, atoms_subst, List.flatMap_map]
  exact length_flatMap_lt (fun a _ => a.length_symbols_le σ) ⟨a, ha, Atom.length_symbols_lt ⟨x, hxa, hlt⟩⟩

/-- A formula is no longer than what it derives with the conditions. -/
theorem length_symbols_le_of_derives {Bs : List (Atom Symbol)} {A : Atom Symbol} (htidy : φ.Tidy)
    (h : φ.Derives Bs A) : φ.symbols.length ≤ ((A :: Bs).flatMap Atom.symbols).length := by
  obtain ⟨head, θ, hhead, -, hcollapsed, rfl, rfl⟩ := h.exists_collapsed
  have hatoms : (head.subst θ).reading :: φ.conditions.map (fun b => (b.subst θ).reading) =
      φ.atoms.map fun b => (b.subst θ).reading := by rw [atoms_eq_cons hhead, List.map_cons]
  rw [hatoms, symbols, List.flatMap_map]
  refine length_flatMap_le fun a ha => ?_
  rw [Atom.reading_of_collapsed (htidy.collapsed a ha) hcollapsed]
  exact a.length_symbols_le θ

end Formula

theorem Lexicon.length_symbols_replacement (l : Lexicon) (x f : Symbol) (arity : Nat) :
    (l.replacement x (.functor f arity)).symbols.length = arity + 1 := by
  rw [replacement, Term.symbols_app, List.flatMap_map, List.length_cons]
  simp only [Term.symbols_var, ← List.map_eq_flatMap, List.length_map, List.length_range]

section Fixed

variable {P F : List (Formula Symbol)} {M : Set (Atom Symbol)} {k l' : Lexicon} {depth : Nat}
  (h : Represents P M F k) (hfixed : normalizePass (some depth) F k = .ok (F, l')) (hshows : Shows F M)

include h hfixed hshows

/-- If a function term stands for a variable, the instance is also one of a longer formula. -/
theorem exists_longer {φ : Formula Symbol} {head : Atom Symbol} {θ : Symbol → Term Symbol} (hφ : φ ∈ F)
    (hhead : φ.head? = some head) (hθ : φ.Meets θ M)
    (hshown : ∀ a ∈ φ.conditions, ∀ p ∈ (a.subst θ).reading.occupants, p.2.isFunctor = true →
      p.2 ∈ (Occupancy.ofFormulas F).lookup ((a.subst θ).reading.site p.1) ∧ p.1.length ≤ depth)
    {x : Symbol} (hx : x ∈ φ.vars) (hterm : ∀ c, θ x ≠ .const c) :
    ∃ ψ ∈ F, φ.symbols.length < ψ.symbols.length ∧
      ψ.Derives (φ.conditions.map fun b => (b.subst θ).reading) (head.subst θ).reading := by
  obtain ⟨htidy, -, -, hspecialize⟩ := kept_of_fixed h.covers hfixed
  obtain ⟨hmem, hderives⟩ := derives_fitting hφ (h.horn φ hφ) (htidy φ hφ) hshows hθ h.covers hspecialize
    (h.apart φ hφ) hhead
  refine ⟨_, hmem, Formula.length_symbols_lt ⟨x, hx, ?_⟩, hderives⟩
  cases hθx : θ x with
  | const c => exact absurd hθx (hterm c)
  | var y =>
    have hground := hθ.ground x
    rw [hθx] at hground
    cases hground
  | app f args =>
    -- the function stands at all places of the variable
    have hcompound : x ∈ (φ.compoundVariables (.ofFormulas F) depth).map Prod.fst := by
      refine Formula.exists_mem_compoundVariables (o := .functor f args.length) (h.horn φ hφ) hx rfl
        fun a ha path hpath => ?_
      have hcollapse := (htidy φ hφ).collapsed a (Formula.mem_atoms_of_mem_conditions ha)
      obtain ⟨hoccupant, hsite⟩ := Formula.mem_occupants_reading hcollapse (hθ.ground x) hθ.collapsed hpath
      rw [← hsite]
      rw [hθx] at hoccupant
      exact hshown a ha _ hoccupant rfl
    have hargs : args ≠ [] := Term.args_ne_nil_of_collapse (hθx ▸ hθ.collapsed x)
    rw [Lexicon.variant, Formula.fitting, if_pos hcompound, hθx]
    change 1 < (l'.replacement x (.functor f args.length)).symbols.length
    rw [Lexicon.length_symbols_replacement]
    exact Nat.succ_lt_succ (List.length_pos_iff.2 hargs)

/-- An instance with the conditions in the model, and shown by the description, is one with constants for
the variables of some formula. -/
theorem exists_constants {φ : Formula Symbol} {Bs : List (Atom Symbol)} {A : Atom Symbol} (hφ : φ ∈ F)
    (hA : φ.Derives Bs A) (hBs : ∀ B ∈ Bs, B ∈ M)
    (hshown : ∀ B ∈ Bs, ∀ p ∈ B.occupants, p.2.isFunctor = true →
      p.2 ∈ (Occupancy.ofFormulas F).lookup (B.site p.1) ∧ p.1.length ≤ depth) :
    ∃ ψ ∈ F, ∃ head σ, ψ.head? = some head ∧ A = (head.inst σ).reading ∧
      Bs = ψ.conditions.map fun b => (b.inst σ).reading := by
  obtain ⟨htidy, -⟩ := kept_of_fixed h.covers hfixed
  -- formulas that derive `A` from `Bs` are no longer than these
  induction hn : ((A :: Bs).flatMap Atom.symbols).length - φ.symbols.length using Nat.strong_induction_on
    generalizing φ with
  | _ n ih =>
    obtain ⟨head, θ, hhead, hground, hcollapsed, hAθ, hBsθ⟩ := hA.exists_collapsed
    by_cases hconst : ∀ x ∈ φ.vars, ∃ c, θ x = .const c
    · choose! σ hσ using hconst
      have hinst : ∀ a ∈ φ.atoms, a.subst θ = a.inst σ := fun a ha =>
        Atom.subst_congr fun x hx => hσ x (List.mem_flatMap.2 ⟨a, ha, hx⟩)
      rw [Formula.atoms_eq_cons hhead, List.forall_mem_cons] at hinst
      refine ⟨φ, hφ, head, σ, hhead, by rw [hAθ, hinst.1], ?_⟩
      rw [hBsθ]
      exact List.map_congr_left fun b hb => by rw [hinst.2 b hb]
    · push Not at hconst
      obtain ⟨x, hx, hterm⟩ := hconst
      have hmem : ∀ a ∈ φ.conditions, (a.subst θ).reading ∈ Bs := fun a ha => hBsθ ▸ List.mem_map_of_mem ha
      obtain ⟨ψ, hψ, hlonger, hψA⟩ := exists_longer h hfixed hshows hφ hhead
        ⟨hground, hcollapsed, fun a ha => hBs _ (hmem a ha)⟩ (fun a ha => hshown _ (hmem a ha)) hx hterm
      rw [← hAθ, ← hBsθ] at hψA
      have hle := Formula.length_symbols_le_of_derives (htidy ψ hψ) hψA
      exact ih _ (by omega) hψ hψA rfl

end Fixed

/-! ## Grounding -/

/-- With constants for the variables, functions stand where the atom has them. -/
theorem Atom.mem_occupants_of_inst {a : Atom Symbol} {σ : Symbol → Symbol} {path : Path} {o : Occupant}
    (h : (path, o) ∈ (a.inst σ).occupants) (ho : o.isFunctor = true) : (path, o) ∈ a.occupants := by
  obtain ⟨hd, t, ht, hto⟩ := mem_occupants.1 h
  obtain ⟨s, hs, rfl⟩ := ht.of_subst fun x => ⟨σ x, rfl⟩
  refine mem_occupants.2 ⟨hd, s, hs, ?_⟩
  cases s with
  | const c => exact hto
  | var x =>
    obtain rfl := Option.some.inj hto
    cases ho
  | app f ts =>
    rw [Term.subst_app, Term.occupant?, List.length_map] at hto
    exact hto

namespace Database

variable {P F N : List (Formula Symbol)} {M : Set (Atom Symbol)} {db loaded : Database} {settings : Settings}
  {k l l' : Lexicon} {depth : Nat}

/-- Grounding finds the instances of Horn formulas. -/
theorem Saturated.holds_head (h : Saturated (F.map Formula.scheduled) db) {φ : Formula Symbol} (hφ : φ ∈ F)
    (hhorn : φ.IsHorn) {head : Atom Symbol} (hhead : φ.head? = some head) {σ : Symbol → Symbol}
    (hconditions : ∀ b ∈ φ.conditions, db.Holds (b.inst σ)) : db.Holds (head.inst σ) := by
  have hmem := List.mem_map_of_mem (f := Formula.scheduled) hφ
  cases φ with
  | atom a =>
    obtain rfl := Option.some.inj hhead
    have hground : a.isGround = true := by
      refine List.isEmpty_iff.2 (List.eq_nil_iff_forall_not_mem.2 fun x hx => ?_)
      obtain ⟨b, hb, -⟩ := hhorn.bound x (List.mem_flatMap.2 ⟨a, List.mem_singleton_self a, hx⟩)
      cases hb
    rw [Atom.inst_of_isGround hground]
    exact h.holds_fact a hmem hground
  | rule head' body =>
    obtain rfl := Option.some.inj hhead
    have hbody : ∀ ψ ∈ schedule body, (ψ.inst σ).TrueIn {a | db.Holds a} := by
      intro ψ hψ
      have hliteral : ψ ∈ (Formula.rule head' body).body := mem_schedule.1 hψ
      rw [hhorn.literals] at hliteral
      obtain ⟨b, hb, rfl⟩ := List.mem_map.1 hliteral
      have hd := hhorn.relations b (Formula.mem_atoms_of_mem_conditions hb)
      exact (Atom.trueIn_of_ne_distinct (a := b.inst σ) hd).2 (hconditions b hb)
    obtain ⟨choice, hchoice, htrue⟩ := forall_trueIn_iff_exists_choice.1 hbody
    exact h.holds_rule hmem hchoice fun ψ hψ => (htrue ψ hψ).mayHold fun _ ha => ha
  | neg φ => cases hhead
  | disj φs => cases hhead

/-- The atom is found, and the description has its functions where they stand. -/
def Finds (db : Database) (F : List (Formula Symbol)) (A : Atom Symbol) : Prop :=
  db.Holds A ∧ ∀ p ∈ A.occupants, p.2.isFunctor = true → p.2 ∈ (Occupancy.ofFormulas F).lookup (A.site p.1)

theorem finds_head (h : Saturated (F.map Formula.scheduled) db) {φ : Formula Symbol} (hφ : φ ∈ F)
    (hhorn : φ.IsHorn) (htidy : φ.Tidy) {head : Atom Symbol} (hhead : φ.head? = some head) {σ : Symbol → Symbol}
    (hconditions : ∀ b ∈ φ.conditions, db.Finds F (b.inst σ).reading) : db.Finds F (head.inst σ).reading := by
  have hreading : ∀ a ∈ φ.atoms, (a.inst σ).reading = (a.inst σ).canonical := fun a ha =>
    Atom.reading_of_collapsed (htidy.collapsed a ha) fun _ => rfl
  have hmem : head ∈ φ.atoms := Formula.atoms_eq_cons hhead ▸ List.mem_cons_self
  rw [hreading head hmem]
  refine ⟨holds_canonical.2 (h.holds_head hφ hhorn hhead fun b hb => ?_), fun p hp ho => ?_⟩
  · have hholds := (hconditions b hb).1
    rwa [hreading b (Formula.mem_atoms_of_mem_conditions hb), holds_canonical] at hholds
  · rw [Atom.occupants_canonical] at hp
    rw [Atom.site_canonical]
    exact Occupancy.mem_lookup.2 (mem_siteOccupants.2
      ⟨φ, hφ, head, hmem, p.1, Atom.mem_occupants_of_inst hp ho, rfl⟩)

/-- If passes change nothing any more, the atoms of a model that are found are closed under the program. -/
theorem herbrandClosed_finds (hM : HerbrandClosed (declared P) M) (h : Represents P M F k)
    (hfixed : normalizePass (some depth) F k = .ok (F, l')) (hshows : Shows F M)
    (hdepth : ∀ A ∈ M, ∀ p ∈ A.occupants, p.2.isFunctor = true → p.1.length ≤ depth)
    (hdb : Saturated (F.map Formula.scheduled) db) :
    HerbrandClosed (declared P) {A | A ∈ M ∧ db.Finds F A} := by
  intro φ hφ Bs A hA hBs
  have hBsM : ∀ B ∈ Bs, B ∈ M := fun B hB => (hBs B hB).1
  refine ⟨hM φ hφ Bs A hA hBsM, ?_⟩
  obtain ⟨ψ, hψ, hψA⟩ := h.derives φ hφ Bs A hA hBsM
  obtain ⟨χ, hχ, head, σ, hhead, rfl, rfl⟩ := exists_constants h hfixed hshows hψ hψA hBsM
    fun B hB p hp ho => ⟨(hBs B hB).2.2 p hp ho, hdepth B (hBsM B hB) p hp ho⟩
  obtain ⟨htidy, -⟩ := kept_of_fixed h.covers hfixed
  exact finds_head hdb hχ (h.horn χ hχ) (htidy χ hχ) hhead fun b hb => (hBs _ (List.mem_map_of_mem hb)).2

/-- No atom of the Herbrand model is lost on the way from a Horn program to its tables, if its variables are
named apart, its model has no function deeper than the program, and the descriptions on the way show what
variables may stand for. -/
theorem holds_of_mem_herbrandModel (hP : ∀ φ ∈ P, φ.IsHorn) (hl : l.Covers P)
    (hap : ∀ φ ∈ P, l.Apart φ.vars)
    (hdepth : ∀ A ∈ herbrandModel (declared P), ∀ p ∈ A.occupants, p.2.isFunctor = true →
      p.1.length ≤ compoundDepth P)
    (hshows : ShowsThroughout P l (herbrandModel (declared P))) (hspecialize : settings.specialize = true)
    (hnormalize : normalize settings P l = (.ok N, l')) (hload : (empty none).load N = (loaded, none))
    (hrun : loaded.saturate = (db, none)) :
    IsLeast {M | HerbrandClosed (declared P) M} (herbrandModel (declared P)) ∧
      ∀ A ∈ herbrandModel (declared P), db.Holds A := by
  have hleast := isLeast_herbrandModel (declared P)
  refine ⟨hleast, fun A hA => ?_⟩
  have hdb := (loaded_of_load (isSupported_of_normalize hnormalize) hload).saturated hrun
  rw [normalize, if_pos hspecialize] at hnormalize
  obtain ⟨F, k, ⟨hrep, hreach⟩, hfixed, rfl⟩ := exists_fixed_of_normalizeLoop
    (P := fun φs m => Represents P (herbrandModel (declared P)) φs m ∧
      PassesTo (some (compoundDepth P)) (P, l) (φs, m))
    (fun h hpass => ⟨h.1.of_normalizePass hP (hshows _ _ · h.2) hpass, h.2.tail hpass⟩)
    ⟨Represents.refl hl hP hap, Relation.ReflTransGen.refl⟩ hnormalize
  obtain ⟨htidy, hkept, hnodup, -⟩ := kept_of_fixed hrep.covers hfixed
  have hshowsF := hshows F k F hreach (simplifyAll_eq_self htidy hkept hnodup)
  exact (hA _ (herbrandClosed_finds hleast.1 hrep hfixed hshowsF hdepth hdb)).2.1

/-- The database after a program was normalized and grounded, if nothing fails. -/
def tables? (l : Lexicon) (P : List (Formula Symbol)) : Option Database :=
  match (normalize .standard P l).1 with
  | .error _ => none
  | .ok N =>
    let loaded := (empty none).load N
    let run := loaded.1.saturate
    if loaded.2 = none ∧ run.2 = none then some run.1 else none

theorem exists_of_tables? (h : tables? l P = some db) : ∃ N l' loaded, normalize .standard P l = (.ok N, l') ∧
    (empty none).load N = (loaded, none) ∧ loaded.saturate = (db, none) := by
  rw [tables?] at h
  split at h
  · cases h
  · rename_i N hN
    simp only at h
    split_ifs at h with hnone
    exact ⟨N, _, _, Prod.ext hN rfl, eq_pair_of_snd hnone.1, Prod.ext (Option.some.inj h) hnone.2⟩

/-- A box with a coin in it and a key are held, and the key is seen.  What is held is seen, and what is seen
is known. -/
def parcel : List (Formula Symbol) :=
  let held : Symbol := ⟨14⟩
  let seen : Symbol := ⟨15⟩
  let known : Symbol := ⟨16⟩
  let box : Term Symbol := .app ⟨17⟩ [.const ⟨18⟩]
  let key : Term Symbol := .const ⟨19⟩
  handsOn [⟨held, [box]⟩, ⟨held, [key]⟩, ⟨seen, [key]⟩] [(held, seen), (seen, known)] ⟨20⟩

theorem holds_of_mem_herbrandModel_parcel :
    let l := Lexicon.ofNames ["held", "seen", "known", "box", "coin", "key", "x"]
    let knownBox : Atom Symbol := ⟨⟨16⟩, [.app ⟨17⟩ [.const ⟨18⟩]]⟩
    (∀ φ ∈ parcel, φ.IsHorn) ∧ l.Covers parcel ∧ (∀ φ ∈ parcel, l.Apart φ.vars) ∧
      (∀ A ∈ herbrandModel (declared parcel), ∀ p ∈ A.occupants, p.2.isFunctor = true →
        p.1.length ≤ compoundDepth parcel) ∧
      ShowsThroughout parcel l (herbrandModel (declared parcel)) ∧
      ∃ N l' loaded db, normalize .standard parcel l = (.ok N, l') ∧ (empty none).load N = (loaded, none) ∧
        loaded.saturate = (db, none) ∧ knownBox ∈ herbrandModel (declared parcel) ∧ db.Holds knownBox := by
  intro l knownBox
  have hhorn : ∀ φ ∈ parcel, φ.IsHorn := by decide +kernel
  have hcovers : l.Covers parcel := by decide +kernel
  have hap : ∀ φ ∈ parcel, l.Apart φ.vars := by decide +kernel
  have hdeclared : declared parcel = parcel := by decide +kernel
  let held : Symbol := ⟨14⟩
  let seen : Symbol := ⟨15⟩
  let known : Symbol := ⟨16⟩
  let box : Term Symbol := .app ⟨17⟩ [.const ⟨18⟩]
  let key : Term Symbol := .const ⟨19⟩
  -- the atoms of the model
  let As : List (Atom Symbol) := [held, seen, known].flatMap fun r => [⟨r, [box]⟩, ⟨r, [key]⟩]
  have hmodel : ∀ A ∈ herbrandModel (declared parcel), A ∈ As := by
    rw [hdeclared]
    exact fun A hA => hA _ (herbrandClosed_handsOn (by decide +kernel) (by decide +kernel))
  have hAs : ∀ A ∈ As, ∀ p ∈ A.occupants, p.2.isFunctor = true → p.1.length ≤ compoundDepth parcel := by
    decide +kernel
  have hdepth : ∀ A ∈ herbrandModel (declared parcel), ∀ p ∈ A.occupants, p.2.isFunctor = true →
      p.1.length ≤ compoundDepth parcel := fun A hA => hAs A (hmodel A hA)
  have hcheck : showsOnTheWay (compoundDepth parcel) As 4 parcel l = true := by decide +kernel
  have hshows : ShowsThroughout parcel l (herbrandModel (declared parcel)) := fun φs m ψs hreach hsimplify =>
    (showsAll_of_passesTo hcovers hcheck hreach hsimplify).shows hmodel
  have hknown : knownBox ∈ herbrandModel (declared parcel) := by
    rw [hdeclared]
    have hheld : ⟨held, [box]⟩ ∈ herbrandModel parcel := reading_mem_herbrandModel List.mem_cons_self rfl
    have hseen : ⟨seen, [box]⟩ ∈ herbrandModel parcel :=
      mem_herbrandModel_of_link List.mem_cons_self rfl rfl hheld
    exact mem_herbrandModel_of_link (List.mem_cons_of_mem _ List.mem_cons_self) rfl rfl hseen
  have hrun : (tables? l parcel).isSome = true := by decide +kernel
  obtain ⟨db, hdb⟩ := Option.isSome_iff_exists.1 hrun
  obtain ⟨N, l', loaded, hN, hload, hsaturate⟩ := exists_of_tables? hdb
  refine ⟨hhorn, hcovers, hap, hdepth, hshows, N, l', loaded, db, hN, hload, hsaturate, hknown, ?_⟩
  exact (holds_of_mem_herbrandModel hhorn hcovers hap hdepth hshows rfl hN hload hsaturate).2 _ hknown

/-- An atom of the Herbrand model is missing in the tables, though the model is finite and has no function
deeper than the Horn program. -/
def LosesAtom (l : Lexicon) (P : List (Formula Symbol)) : Prop :=
  (∀ φ ∈ P, φ.IsHorn) ∧ l.Covers P ∧ (herbrandModel P).Finite ∧
    (∀ A ∈ herbrandModel P, ∀ p ∈ A.occupants, p.2.isFunctor = true → p.1.length ≤ compoundDepth P) ∧
    ∃ N l' loaded db, normalize .standard P l = (.ok N, l') ∧ (empty none).load N = (loaded, none) ∧
      loaded.saturate = (db, none) ∧ ∃ A ∈ herbrandModel P, ¬ db.Holds A

theorem losesAtom_of_closed {As : List (Atom Symbol)} {A : Atom Symbol} (hP : ∀ φ ∈ P, φ.IsHorn) (hl : l.Covers P)
    (hclosed : HerbrandClosed P {A | A ∈ As})
    (hdepth : ∀ A ∈ As, ∀ p ∈ A.occupants, p.2.isFunctor = true → p.1.length ≤ compoundDepth P)
    (hA : A ∈ herbrandModel P) (hlost : ∃ db ∈ tables? l P, ¬ db.Holds A) :
    LosesAtom l P := by
  have hmodel : ∀ B ∈ herbrandModel P, B ∈ As := fun B hB => hB _ hclosed
  refine ⟨hP, hl, (List.finite_toSet As).subset hmodel, fun B hB => hdepth B (hmodel B hB), ?_⟩
  obtain ⟨db, hdb, hmissing⟩ := hlost
  obtain ⟨N, l', loaded, hN, hload, hsaturate⟩ := exists_of_tables? hdb
  exact ⟨N, l', loaded, db, hN, hload, hsaturate, A, hA, hmissing⟩

/-- A box with a coin in it is held, and a key is near.  What is near is held, and what is held is known. -/
def detour : List (Formula Symbol) :=
  let held : Symbol := ⟨14⟩
  let near : Symbol := ⟨15⟩
  let known : Symbol := ⟨16⟩
  let box : Term Symbol := .app ⟨17⟩ [.const ⟨18⟩]
  let key : Term Symbol := .const ⟨19⟩
  handsOn [⟨held, [box]⟩, ⟨near, [key]⟩] [(near, held), (held, known)] ⟨20⟩

/-- The key is not known: no text about what is held has a constant, so what is known has to be a box. -/
theorem losesAtom_detour :
    LosesAtom (.ofNames ["held", "near", "known", "box", "coin", "key", "x"]) detour := by
  let held : Symbol := ⟨14⟩
  let near : Symbol := ⟨15⟩
  let known : Symbol := ⟨16⟩
  let box : Term Symbol := .app ⟨17⟩ [.const ⟨18⟩]
  let key : Term Symbol := .const ⟨19⟩
  let As : List (Atom Symbol) := [⟨near, [key]⟩, ⟨held, [box]⟩, ⟨held, [key]⟩, ⟨known, [box]⟩, ⟨known, [key]⟩]
  have hclosed : HerbrandClosed detour {A | A ∈ As} :=
    herbrandClosed_handsOn (by decide +kernel) (by decide +kernel)
  have hnear : ⟨near, [key]⟩ ∈ herbrandModel detour :=
    reading_mem_herbrandModel (List.mem_cons_of_mem _ List.mem_cons_self) rfl
  have hheld : ⟨held, [key]⟩ ∈ herbrandModel detour := mem_herbrandModel_of_link List.mem_cons_self rfl rfl hnear
  have hknown : ⟨known, [key]⟩ ∈ herbrandModel detour :=
    mem_herbrandModel_of_link (List.mem_cons_of_mem _ List.mem_cons_self) rfl rfl hheld
  exact losesAtom_of_closed (by decide +kernel) (by decide +kernel) hclosed (by decide +kernel) hknown
    (by decide +kernel)

/-- Facts about `base` with one argument and with two. -/
def bases : List (Formula Symbol) :=
  handsOn [⟨Keyword.base, [.const ⟨14⟩]⟩, ⟨Keyword.base, [.const ⟨15⟩, .const ⟨16⟩]⟩] [] ⟨17⟩

theorem losesAtom_bases : LosesAtom (.ofNames ["a", "b", "c"]) bases := by
  have hclosed : HerbrandClosed bases {A | A ∈ [⟨Keyword.base, [.const ⟨14⟩]⟩,
      ⟨Keyword.base, [.const ⟨15⟩, .const ⟨16⟩]⟩]} :=
    herbrandClosed_handsOn (by decide +kernel) (by decide +kernel)
  exact losesAtom_of_closed (by decide +kernel) (by decide +kernel) hclosed (by decide +kernel)
    (reading_mem_herbrandModel List.mem_cons_self rfl) (by decide +kernel)

/-- A box with a coin in it is held, and a key is near.  What is held goes with what is near, by a rule with a
variable for what is near that is named as what is in a box. -/
def namesakes : List (Formula Symbol) :=
  let held (t : Term Symbol) : Atom Symbol := ⟨⟨14⟩, [t]⟩
  let near (t : Term Symbol) : Atom Symbol := ⟨⟨15⟩, [t]⟩
  let goes (s t : Term Symbol) : Atom Symbol := ⟨⟨16⟩, [s, t]⟩
  let box : Term Symbol := .app ⟨17⟩ [.const ⟨18⟩]
  let key : Term Symbol := .const ⟨19⟩
  let x : Term Symbol := .var ⟨20⟩
  let inBox : Term Symbol := .var ⟨21⟩
  [.atom (held box), .atom (near key), .rule (goes x inBox) [.atom (held x), .atom (near inBox)]]

theorem losesAtom_namesakes :
    LosesAtom (.ofNames ["held", "near", "goes", "box", "coin", "key", "x", "x.box.0"]) namesakes := by
  let held (t : Term Symbol) : Atom Symbol := ⟨⟨14⟩, [t]⟩
  let near (t : Term Symbol) : Atom Symbol := ⟨⟨15⟩, [t]⟩
  let goes (s t : Term Symbol) : Atom Symbol := ⟨⟨16⟩, [s, t]⟩
  let box : Term Symbol := .app ⟨17⟩ [.const ⟨18⟩]
  let key : Term Symbol := .const ⟨19⟩
  let x : Symbol := ⟨20⟩
  let inBox : Symbol := ⟨21⟩
  have hclosed : HerbrandClosed namesakes {A | A ∈ [held box, near key, goes box key]} := by
    rintro φ hφ Bs A ⟨head, θ, hhead, -, rfl, rfl⟩ hBs
    simp only [namesakes, List.mem_cons, List.not_mem_nil, or_false] at hφ
    rcases hφ with rfl | rfl | rfl
    · obtain rfl := Option.some.inj hhead
      exact List.mem_cons_self
    · obtain rfl := Option.some.inj hhead
      exact List.mem_cons_of_mem _ List.mem_cons_self
    · obtain rfl := Option.some.inj hhead
      -- only the box is held, and only the key is near
      have hheld := hBs (held (θ x).collapse) List.mem_cons_self
      have hnear := hBs (near (θ inBox).collapse) (List.mem_cons_of_mem _ List.mem_cons_self)
      have hbox : (θ x).collapse = box := by simpa [held, near, goes] using hheld
      have hkey : (θ inBox).collapse = key := by simpa [held, near, goes] using hnear
      have hgoes : (Atom.subst θ (goes (.var x) (.var inBox))).reading =
        goes (θ x).collapse (θ inBox).collapse := rfl
      rw [hgoes, hbox, hkey]
      exact List.mem_cons_of_mem _ (List.mem_cons_of_mem _ List.mem_cons_self)
  have hgoes : goes box key ∈ herbrandModel namesakes := by
    intro M hM
    have hheld : held box ∈ M :=
      hM _ List.mem_cons_self [] _ ⟨_, .const, rfl, fun _ => rfl, rfl, rfl⟩ (by simp)
    have hnear : near key ∈ M :=
      hM _ (List.mem_cons_of_mem _ List.mem_cons_self) [] _ ⟨_, .const, rfl, fun _ => rfl, rfl, rfl⟩ (by simp)
    refine hM _ (List.mem_cons_of_mem _ (List.mem_cons_of_mem _ List.mem_cons_self))
      [held box, near key] _
      ⟨_, fun y => if y = x then box else key, rfl, fun y => ?_, rfl, rfl⟩ (by simp [hheld, hnear])
    beta_reduce
    split_ifs
    · rfl
    · rfl
  exact losesAtom_of_closed (by decide +kernel) (by decide +kernel) hclosed (by decide +kernel) hgoes
    (by decide +kernel)

/-- Atoms are lost if a constant comes to a place of functions through another rule, if `base` is also used
with another number of arguments, or if a variable is named as an argument. -/
theorem losesAtom_without_each_condition :
    LosesAtom (.ofNames ["held", "near", "known", "box", "coin", "key", "x"]) detour ∧
    LosesAtom (.ofNames ["a", "b", "c"]) bases ∧
    LosesAtom (.ofNames ["held", "near", "goes", "box", "coin", "key", "x", "x.box.0"]) namesakes :=
  ⟨losesAtom_detour, losesAtom_bases, losesAtom_namesakes⟩

end Database

end GameCircuit
