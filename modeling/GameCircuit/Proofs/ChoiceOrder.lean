import GameCircuit.Proofs.FirstOccurrences
import Mathlib.Data.List.Nodup
import Mathlib.Data.List.Pairwise

/-!
# The order of the variants of a rule

The variants of a rule stand in the order of the choices for its variables: of two choices, the one that
takes something earlier for the first variable at which they differ comes first (`Earlier`).
-/

namespace GameCircuit

variable {options : List (Symbol × List Occupant)} {choice choice' : Symbol → Occupant} {x : Symbol}
  {os : List Occupant}

/-- All choices for the variables, in order; the choice for the first variable varies last. -/
def assignments : List (Symbol × List Occupant) → List (Symbol → Occupant)
  | [] => [fun _ => .const]
  | (x, os) :: rest => os.flatMap fun o => (assignments rest).map (Function.update · x o)

/-- The first choice comes before the second one. -/
def Earlier : List (Symbol × List Occupant) → (Symbol → Occupant) → (Symbol → Occupant) → Prop
  | [], _, _ => False
  | (x, os) :: rest, choice, choice' =>
    os.idxOf (choice x) < os.idxOf (choice' x) ∨ (choice x = choice' x ∧ Earlier rest choice choice')

theorem mem_assignments (hnodup : (options.map Prod.fst).Nodup) :
    choice ∈ assignments options ↔ Selects options choice := by
  induction options generalizing choice with
  | nil => rw [assignments, List.mem_singleton, selects_nil]
  | cons option options ih =>
    obtain ⟨x, os⟩ := option
    obtain ⟨hx, hnodup⟩ := List.nodup_cons.1 hnodup
    rw [assignments, List.mem_flatMap, selects_cons hx]
    constructor
    · rintro ⟨o, ho, hmem⟩
      obtain ⟨rest, hrest, rfl⟩ := List.mem_map.1 hmem
      have hselects := (ih hnodup).1 hrest
      rw [Function.update_self, Function.update_idem, ← hselects.2 x hx, Function.update_eq_self]
      exact ⟨ho, hselects⟩
    · rintro ⟨ho, hselects⟩
      refine ⟨choice x, ho, List.mem_map.2 ⟨_, (ih hnodup).2 hselects, ?_⟩⟩
      rw [Function.update_idem, Function.update_eq_self]

theorem eq_of_mem_options (hnodup : (options.map Prod.fst).Nodup) {os os' : List Occupant} (h : (x, os) ∈ options)
    (h' : (x, os') ∈ options) : os = os' :=
  (Prod.mk.inj (List.inj_on_of_nodup_map hnodup h h' rfl)).2

/-- A variable that a choice replaces is among the options. -/
theorem Selects.exists_mem_options (h : Selects options choice) (hx : choice x ≠ .const) :
    ∃ os, (x, os) ∈ options ∧ choice x ∈ os := by
  have hkey : x ∈ options.map Prod.fst := by
    by_contra hkey
    exact hx (h.2 x hkey)
  obtain ⟨p, hp, rfl⟩ := List.mem_map.1 hkey
  exact ⟨p.2, hp, h.1 p.1 p.2 hp⟩

/-- The choice for one variable does not depend on the others. -/
theorem Selects.update {o : Occupant} (hnodup : (options.map Prod.fst).Nodup) (h : Selects options choice)
    (hx : (x, os) ∈ options) (ho : o ∈ os) : Selects options (Function.update choice x o) := by
  refine ⟨fun y os' hy => ?_, fun y hy => ?_⟩
  · by_cases hyx : y = x
    · subst hyx
      rw [Function.update_self, eq_of_mem_options hnodup hy hx]
      exact ho
    · rw [Function.update_of_ne hyx]
      exact h.1 y os' hy
  · have hyx : y ≠ x := by
      rintro rfl
      exact hy (List.mem_map_of_mem hx)
    rw [Function.update_of_ne hyx]
    exact h.2 y hy

theorem exists_selects_of_ne_nil (hnodup : (options.map Prod.fst).Nodup) (hne : ∀ p ∈ options, p.2 ≠ []) :
    ∃ choice, Selects options choice := by
  suffices hassignments : assignments options ≠ [] by
    obtain ⟨choice, hchoice⟩ := List.exists_mem_of_ne_nil _ hassignments
    exact ⟨choice, (mem_assignments hnodup).1 hchoice⟩
  clear hnodup
  induction options with
  | nil => exact List.cons_ne_nil _ _
  | cons option options ih =>
    obtain ⟨hfirst, hrest⟩ := List.forall_mem_cons.1 hne
    obtain ⟨o, ho⟩ := List.exists_mem_of_ne_nil _ hfirst
    obtain ⟨choice, hchoice⟩ := List.exists_mem_of_ne_nil _ (ih hrest)
    exact List.ne_nil_of_mem (List.mem_flatMap.2 ⟨o, ho, List.mem_map_of_mem hchoice⟩)

theorem earlier_congr {choice₁ choice₁' : Symbol → Occupant} (h : ∀ x ∈ options.map Prod.fst, choice x = choice₁ x)
    (h' : ∀ x ∈ options.map Prod.fst, choice' x = choice₁' x) :
    Earlier options choice choice' ↔ Earlier options choice₁ choice₁' := by
  induction options with
  | nil => exact Iff.rfl
  | cons option options ih =>
    rw [List.map_cons, List.forall_mem_cons] at h h'
    rw [Earlier, Earlier, h.1, h'.1, ih h.2 h'.2]

theorem not_earlier_self (options : List (Symbol × List Occupant)) (choice : Symbol → Occupant) :
    ¬ Earlier options choice choice := by
  induction options with
  | nil => exact id
  | cons option options ih =>
    rw [Earlier]
    rintro (hlt | ⟨-, hrest⟩)
    · exact Nat.lt_irrefl _ hlt
    · exact ih hrest

theorem Earlier.asymm (h : Earlier options choice choice') : ¬ Earlier options choice' choice := by
  induction options with
  | nil => exact h.elim
  | cons option options ih =>
    rw [Earlier] at h ⊢
    rintro (hlt' | ⟨heq', hrest'⟩)
    · rcases h with hlt | ⟨heq, -⟩
      · omega
      · rw [heq] at hlt'
        exact Nat.lt_irrefl _ hlt'
    · rcases h with hlt | ⟨-, hrest⟩
      · rw [heq'] at hlt
        exact Nat.lt_irrefl _ hlt
      · exact ih hrest hrest'

/-- The choices stand in order. -/
theorem pairwise_assignments (hnodup : (options.map Prod.fst).Nodup) (hos : ∀ p ∈ options, p.2.Nodup) :
    (assignments options).Pairwise (Earlier options) := by
  induction options with
  | nil => exact List.pairwise_singleton _ _
  | cons option options ih =>
    obtain ⟨x, os⟩ := option
    obtain ⟨hx, hnodup⟩ := List.nodup_cons.1 hnodup
    obtain ⟨hfirst, hrest⟩ := List.forall_mem_cons.1 hos
    rw [assignments, List.pairwise_flatMap]
    constructor
    · intro o _
      rw [List.pairwise_map]
      refine (ih hnodup hrest).imp fun {τ τ'} hτ => .inr ⟨by simp, ?_⟩
      have hother : ∀ (τ : Symbol → Occupant), ∀ y ∈ options.map Prod.fst, Function.update τ x o y = τ y := by
        intro τ y hy
        have hne : y ≠ x := by
          rintro rfl
          exact hx hy
        exact Function.update_of_ne hne _ _
      exact (earlier_congr (hother τ) (hother τ')).2 hτ
    · rw [List.pairwise_iff_getElem]
      intro i j hi hj hij τ hτ τ' hτ'
      obtain ⟨σ, -, rfl⟩ := List.mem_map.1 hτ
      obtain ⟨σ', -, rfl⟩ := List.mem_map.1 hτ'
      refine .inl ?_
      rw [Function.update_self, Function.update_self, List.Nodup.idxOf_getElem hfirst, List.Nodup.idxOf_getElem hfirst]
      exact hij

section Order

variable (hnodup : (options.map Prod.fst).Nodup) (hos : ∀ p ∈ options, p.2.Nodup)

include hnodup hos

/-- What stands before a choice is what is earlier. -/
theorem mem_before_iff {before after : List (Symbol → Occupant)}
    (h : assignments options = before ++ choice :: after) :
    choice' ∈ before ↔ Selects options choice' ∧ Earlier options choice' choice := by
  have hpairwise := pairwise_assignments hnodup hos
  rw [h, List.pairwise_append, List.pairwise_cons] at hpairwise
  constructor
  · intro hmem
    refine ⟨(mem_assignments hnodup).1 ?_, hpairwise.2.2 choice' hmem choice List.mem_cons_self⟩
    rw [h]
    exact List.mem_append_left _ hmem
  · rintro ⟨hselects, hearlier⟩
    rw [← mem_assignments hnodup, h, List.mem_append, List.mem_cons] at hselects
    rcases hselects with hbefore | rfl | hafter
    · exact hbefore
    · exact absurd hearlier (not_earlier_self _ _)
    · exact absurd (hpairwise.2.1.1 choice' hafter) hearlier.asymm

/-- The first choice that passes a test passes it and no earlier one does. -/
theorem find?_assignments_eq_some {p : (Symbol → Occupant) → Bool} :
    (assignments options).find? p = some choice ↔ Selects options choice ∧ p choice = true ∧
      ∀ choice', Selects options choice' → Earlier options choice' choice → p choice' = false := by
  rw [List.find?_eq_some_iff_append]
  constructor
  · rintro ⟨hp, before, after, h, hbefore⟩
    refine ⟨(mem_assignments hnodup).1 ?_, hp, fun choice' hselects hearlier => ?_⟩
    · rw [h]
      exact List.mem_append_right _ List.mem_cons_self
    · simpa using hbefore choice' ((mem_before_iff hnodup hos h).2 ⟨hselects, hearlier⟩)
  · rintro ⟨hselects, hp, hall⟩
    obtain ⟨before, after, h⟩ := List.append_of_mem ((mem_assignments hnodup).2 hselects)
    refine ⟨hp, before, after, h, fun choice' hmem => ?_⟩
    obtain ⟨hselects', hearlier⟩ := (mem_before_iff hnodup hos h).1 hmem
    simpa using hall choice' hselects' hearlier

end Order

/-- A choice that takes nothing later for any variable comes first. -/
theorem earlier_of_forall_le (hselects : Selects options choice) (hselects' : Selects options choice')
    (hle : ∀ p ∈ options, p.2.idxOf (choice p.1) ≤ p.2.idxOf (choice' p.1)) (hne : choice ≠ choice') :
    Earlier options choice choice' := by
  have hdiffer : ∃ p ∈ options, choice p.1 ≠ choice' p.1 := by
    by_contra hall
    push Not at hall
    refine hne (funext fun x => ?_)
    by_cases hx : x ∈ options.map Prod.fst
    · obtain ⟨p, hp, rfl⟩ := List.mem_map.1 hx
      exact hall p hp
    · rw [hselects.2 x hx, hselects'.2 x hx]
  have hmem : ∀ p ∈ options, choice p.1 ∈ p.2 := fun p hp => hselects.1 p.1 p.2 hp
  clear hselects hselects' hne
  induction options with
  | nil => simp at hdiffer
  | cons option options ih =>
    obtain ⟨hfirst, hrest⟩ := List.forall_mem_cons.1 hle
    obtain ⟨hmemfirst, hmemrest⟩ := List.forall_mem_cons.1 hmem
    rw [Earlier]
    by_cases heq : choice option.1 = choice' option.1
    · refine .inr ⟨heq, ih hrest ?_ hmemrest⟩
      obtain ⟨p, hp, hpne⟩ := hdiffer
      rcases List.mem_cons.1 hp with rfl | hp
      · exact absurd heq hpne
      · exact ⟨p, hp, hpne⟩
    · refine .inl (lt_of_le_of_ne hfirst fun hidx => heq ?_)
      exact (List.idxOf_inj hmemfirst).1 hidx

/-- Nothing is earlier than the choice of what stands first everywhere. -/
theorem not_earlier_of_forall_idxOf_eq_zero (h : ∀ p ∈ options, p.2.idxOf (choice p.1) = 0) :
    ¬ Earlier options choice' choice := by
  induction options with
  | nil => exact id
  | cons option options ih =>
    obtain ⟨hfirst, hrest⟩ := List.forall_mem_cons.1 h
    rw [Earlier, hfirst]
    rintro (hlt | ⟨-, hearlier⟩)
    · exact Nat.not_lt_zero _ hlt
    · exact ih hrest hearlier

/-- A choice stays earlier than another one, if what it takes stays before what the other takes. -/
theorem Earlier.mono {xs : List Symbol} {os os' : Symbol → List Occupant}
    (h : Earlier (xs.map fun x => (x, os x)) choice choice')
    (hlt : ∀ x ∈ xs, (os x).idxOf (choice x) < (os x).idxOf (choice' x) →
      (os' x).idxOf (choice x) < (os' x).idxOf (choice' x)) :
    Earlier (xs.map fun x => (x, os' x)) choice choice' := by
  induction xs with
  | nil => exact h.elim
  | cons x xs ih =>
    obtain ⟨hfirst, hrest⟩ := List.forall_mem_cons.1 hlt
    rw [List.map_cons, Earlier] at h ⊢
    rcases h with hx | ⟨heq, hearlier⟩
    · exact .inl (hfirst hx)
    · exact .inr ⟨heq, ih hearlier hrest⟩

/-- If a choice that replaces two variables comes behind the one that replaces none, it comes behind that which
replaces only the one or only the other. -/
theorem earlier_update_or {y : Symbol} (h : Earlier options (fun _ => .const) choice) (hne : x ≠ y)
    (hx : choice x ≠ .const) (hy : choice y ≠ .const) :
    Earlier options (Function.update (fun _ => .const) x (choice x)) choice ∨
      Earlier options (Function.update (fun _ => .const) y (choice y)) choice := by
  induction options with
  | nil => exact h.elim
  | cons option options ih =>
    obtain ⟨z, os⟩ := option
    rw [Earlier] at h
    rw [Earlier, Earlier]
    rcases h with hlt | ⟨heq, hrest⟩
    · by_cases hzx : z = x
      · refine .inr (.inl ?_)
        rw [Function.update_of_ne fun hzy => hne (hzx.symm.trans hzy)]
        exact hlt
      · refine .inl (.inl ?_)
        rw [Function.update_of_ne hzx]
        exact hlt
    · have hzx : z ≠ x := by
        rintro rfl
        exact hx heq.symm
      have hzy : z ≠ y := by
        rintro rfl
        exact hy heq.symm
      rw [Function.update_of_ne hzx, Function.update_of_ne hzy]
      rcases ih hrest with hearlier | hearlier
      · exact .inl (.inr ⟨heq, hearlier⟩)
      · exact .inr (.inr ⟨heq, hearlier⟩)

/-- The choices that stay with some of what the variables may stand for are those where they may stand for no
more. -/
theorem filter_assignments (r : Symbol → Occupant → Bool) (hnodup : (options.map Prod.fst).Nodup) :
    (assignments options).filter (fun choice => options.all fun p => r p.1 (choice p.1)) =
      assignments (options.map fun p => (p.1, p.2.filter (r p.1))) := by
  induction options with
  | nil => rfl
  | cons option options ih =>
    obtain ⟨x, os⟩ := option
    obtain ⟨hx, hnodup⟩ := List.nodup_cons.1 hnodup
    have hone : ∀ o, ((assignments options).map (Function.update · x o)).filter
        (fun choice => ((x, os) :: options).all fun p => r p.1 (choice p.1)) =
          if r x o then (assignments (options.map fun p => (p.1, p.2.filter (r p.1)))).map (Function.update · x o)
          else [] := by
      intro o
      rw [List.filter_map, ← ih hnodup]
      have hrest : ∀ choice : Symbol → Occupant, options.all (fun p => r p.1 (Function.update choice x o p.1)) =
          options.all fun p => r p.1 (choice p.1) := by
        intro choice
        rw [Bool.eq_iff_iff, List.all_eq_true, List.all_eq_true]
        refine forall₂_congr fun p hp => ?_
        rw [Function.update_of_ne]
        rintro rfl
        exact hx (List.mem_map.2 ⟨p, hp, rfl⟩)
      split_ifs with hr
      · refine congrArg _ (List.filter_congr fun choice _ => ?_)
        simp [hr, hrest]
      · rw [List.map_eq_nil_iff, List.filter_eq_nil_iff]
        simp [hr]
    rw [List.map_cons, assignments, assignments, List.filter_flatMap]
    simp only [hone]
    exact flatMap_ite_nil _ _ os

/-! ## Terms for the choices -/

theorem ofPairs_cons {pairs : List (Symbol × Term Symbol)} (t : Term Symbol) (hx : x ∉ pairs.map Prod.fst) :
    Term.ofPairs ((x, t) :: pairs) = Function.update (Term.ofPairs pairs) x t := by
  funext y
  rw [Term.ofPairs]
  by_cases hyx : y = x
  · rw [hyx, Function.update_self, if_pos ⟨rfl, hx⟩]
  · rw [Function.update_of_ne hyx, if_neg fun h => hyx h.1]

/-- The terms for the choices of a rule stand in the order of the choices. -/
theorem map_ofPairs_choices (l : Lexicon) (hnodup : (options.map Prod.fst).Nodup) :
    (choices (options.map fun p => (p.1, p.2.map (l.replacement p.1)))).map Term.ofPairs =
      (assignments options).map l.variant := by
  induction options with
  | nil => rfl
  | cons option options ih =>
    obtain ⟨x, os⟩ := option
    obtain ⟨hx, hnodup⟩ := List.nodup_cons.1 hnodup
    rw [List.map_cons, choices, assignments, List.map_flatMap, List.map_flatMap, List.flatMap_map]
    refine List.flatMap_congr fun o _ => ?_
    rw [List.map_map, List.map_map]
    have hleft : (choices (options.map fun p => (p.1, p.2.map (l.replacement p.1)))).map
        (Term.ofPairs ∘ ((x, l.replacement x o) :: ·)) =
          ((choices (options.map fun p => (p.1, p.2.map (l.replacement p.1)))).map Term.ofPairs).map
            (Function.update · x (l.replacement x o)) := by
      rw [List.map_map]
      refine List.map_congr_left fun pairs hpairs => ofPairs_cons _ ?_
      rw [keys_of_mem_choices hpairs, List.map_map]
      exact hx
    rw [hleft, ih hnodup, List.map_map]
    refine List.map_congr_left fun choice _ => funext fun y => ?_
    by_cases hyx : y = x
    · simp [hyx, Lexicon.variant]
    · simp [hyx, Lexicon.variant]

end GameCircuit
