import GameCircuit.Grounding.Schema
import GameCircuit.Proofs.Instances
import Mathlib.Algebra.GroupWithZero.Nat

/-!
# Flattening is faithful

A ground atom is kept as its schema and the tuple of its constants.  Together they determine the atom
up to the relations that share their tuples (`Atom.canonical_eq_iff`), and to flatten an instance of
an atom is to fill the places of the atom (`Atom.schema_inst`, `Atom.constants_inst`).
-/

namespace GameCircuit

theorem Symbol.canonical_canonical (s : Symbol) : s.canonical.canonical = s.canonical := by
  unfold canonical
  split_ifs with h1 h2 <;> simp_all [Keyword.does, Keyword.holds, Keyword.legal, Keyword.next, Keyword.init]

namespace Slot

/-- The constant of a slot, for values of the variables. -/
def eval (σ : Symbol → Symbol) : Slot → Symbol
  | const c => c
  | var x => σ x

@[simp] theorem eval_const (σ : Symbol → Symbol) (c : Symbol) : (const c).eval σ = c := rfl

@[simp] theorem eval_var (σ : Symbol → Symbol) (x : Symbol) : (var x).eval σ = σ x := rfl

end Slot

namespace Shape

theorem arityAll_eq_sum (ss : List Shape) : arityAll ss = (ss.map arity).sum := by
  induction ss with
  | nil => rfl
  | cons s ss ih => simp [arityAll, ih]

end Shape

namespace Term

variable (f : Symbol) (ts : List (Term Symbol)) (σ : Symbol → Symbol) (t : Term Symbol)

@[simp] theorem shape_app : (app f ts).shape = .app f (ts.map shape) := by
  simp [shape]

@[simp] theorem slots_const (c : Symbol) : (const c).slots = [.const c] := rfl

@[simp] theorem slots_var (x : Symbol) : (var x).slots = [.var x] := rfl

@[simp] theorem slots_app : (app f ts).slots = ts.flatMap slots := by
  simp [slots, List.flatMap_def]

theorem length_slots : t.slots.length = t.shape.arity := by
  induction t with
  | const c => rfl
  | var x => rfl
  | app f ts ih =>
    rw [slots_app, shape_app, Shape.arity, Shape.arityAll_eq_sum, List.length_flatMap, List.map_map]
    exact congrArg List.sum (List.map_congr_left ih)

@[simp] theorem shape_inst : (t.inst σ).shape = t.shape := by
  induction t with
  | const c => rfl
  | var x => rfl
  | app f ts ih =>
    rw [inst_app, shape_app, shape_app, List.map_map]
    exact congrArg (Shape.app f) (List.map_congr_left ih)

theorem slots_inst : (t.inst σ).slots = t.slots.map fun s => .const (s.eval σ) := by
  induction t with
  | const c => rfl
  | var x => rfl
  | app f ts ih =>
    rw [inst_app, slots_app, slots_app, List.flatMap_map, List.map_flatMap]
    exact List.flatMap_congr ih

variable {t}

/-- The variables of a term are those of its slots. -/
theorem var_mem_slots_iff {x : Symbol} : Slot.var x ∈ t.slots ↔ x ∈ t.vars := by
  induction t with
  | const c => simp
  | var y => simp
  | app f ts ih =>
    simp only [slots_app, vars_app, List.mem_flatMap]
    exact exists_congr fun t => and_congr_right fun ht => ih t ht

/-- Terms of one shape whose slots begin alike are the same, and so is what follows the slots. -/
theorem eq_of_slots_append {s t : Term Symbol} {q r : List Slot} (hshape : s.shape = t.shape)
    (h : s.slots ++ q = t.slots ++ r) : s = t ∧ q = r := by
  induction s generalizing t q r with
  | const c =>
    cases t with
    | const d => simpa using h
    | var y => simp at h
    | app g us => simp [shape] at hshape
  | var x =>
    cases t with
    | const d => simp at h
    | var y => simpa using h
    | app g us => simp [shape] at hshape
  | app f ss ih =>
    cases t with
    | const d => simp [shape] at hshape
    | var y => simp [shape] at hshape
    | app g us =>
      rw [shape_app, shape_app, Shape.app.injEq] at hshape
      obtain ⟨rfl, hshapes⟩ := hshape
      rw [slots_app, slots_app] at h
      suffices ss = us ∧ q = r by rw [this.1]; exact ⟨rfl, this.2⟩
      clear f
      induction ss generalizing us q r with
      | nil =>
        obtain rfl : us = [] := by simpa using hshapes.symm
        exact ⟨rfl, by simpa using h⟩
      | cons s ss ihs =>
        cases us with
        | nil => simp at hshapes
        | cons u us =>
          simp only [List.map_cons, List.cons.injEq] at hshapes
          simp only [List.flatMap_cons, List.append_assoc] at h
          obtain ⟨rfl, h'⟩ := ih s (by simp) hshapes.1 h
          obtain ⟨rfl, hqr⟩ := ihs (fun s hs => ih s (List.mem_cons_of_mem _ hs)) us hshapes.2 h'
          exact ⟨rfl, hqr⟩

end Term

namespace Atom

/-- The atom under the name that its relation shares its tuples by. -/
def canonical (a : Atom Symbol) : Atom Symbol := ⟨a.relation.canonical, a.args⟩

variable {a b : Atom Symbol} {σ : Symbol → Symbol}

theorem schema_canonical (a : Atom Symbol) : a.canonical.schema = a.schema := by
  rw [schema, schema, canonical, Symbol.canonical_canonical]

theorem constants_canonical (a : Atom Symbol) : a.canonical.constants = a.constants := rfl

theorem isGround_canonical (a : Atom Symbol) : a.canonical.isGround = a.isGround := rfl

@[simp] theorem schema_inst : (a.inst σ).schema = a.schema := by
  rw [schema, schema, args_inst, List.map_map]
  exact congrArg (Schema.mk _) (List.map_congr_left fun t _ => Term.shape_inst σ t)

theorem length_slots (a : Atom Symbol) : a.slots.length = a.schema.arity := by
  rw [slots, Schema.arity, schema, Shape.arityAll_eq_sum, List.length_flatMap, List.map_map]
  exact congrArg List.sum (List.map_congr_left fun t _ => Term.length_slots t)

theorem var_mem_slots_iff {x : Symbol} : Slot.var x ∈ a.slots ↔ x ∈ a.vars := by
  simp only [slots, vars, List.mem_flatMap, Term.var_mem_slots_iff]

theorem constants_inst : (a.inst σ).constants = a.slots.map (Slot.eval σ) := by
  have h : (a.inst σ).slots = a.slots.map fun s => .const (s.eval σ) := by
    rw [slots, slots, args_inst, List.flatMap_map, List.map_flatMap]
    exact List.flatMap_congr fun t _ => Term.slots_inst σ t
  rw [constants, h, List.filterMap_map]
  exact List.filterMap_eq_map_iff_forall_eq_some.2 fun s _ => rfl

theorem slots_of_isGround (h : a.isGround = true) : a.slots = a.constants.map .const := by
  have hinst := constants_inst (a := a) (σ := id)
  rw [inst_of_isGround h] at hinst
  rw [hinst, List.map_map]
  refine (List.map_id' _).symm.trans (List.map_congr_left fun s hs => ?_)
  cases s with
  | const c => rfl
  | var x =>
    have hx : x ∈ a.vars := var_mem_slots_iff.1 hs
    rw [List.isEmpty_iff.1 h] at hx
    simp at hx

theorem length_constants (h : a.isGround = true) : a.constants.length = a.schema.arity := by
  rw [← length_slots, slots_of_isGround h, List.length_map]

/-- An atom with a constant at every place is ground. -/
theorem isGround_of_length_constants (h : a.constants.length = a.schema.arity) : a.isGround = true := by
  have hall : ∀ {slots : List Slot}, (slots.filterMap Slot.constant?).length = slots.length →
      ∀ x, .var x ∉ slots := by
    intro slots hlen x
    induction slots with
    | nil => simp
    | cons slot slots ih =>
      cases slot with
      | const c => simpa using ih (by simpa [Slot.constant?] using hlen)
      | var y =>
        have hle := List.length_filterMap_le Slot.constant? slots
        rw [List.filterMap_cons_none rfl, List.length_cons] at hlen
        omega
  rw [isGround, List.isEmpty_iff, List.eq_nil_iff_forall_not_mem]
  intro x hx
  rw [← length_slots] at h
  exact hall h x (var_mem_slots_iff.2 hx)

/-- A ground atom is its schema and its constants, up to the relations that share their tuples. -/
theorem canonical_eq_iff (ha : a.isGround = true) (hb : b.isGround = true) :
    a.canonical = b.canonical ↔ a.schema = b.schema ∧ a.constants = b.constants := by
  constructor
  · intro h
    rw [← schema_canonical a, ← constants_canonical a, h]
    exact ⟨schema_canonical b, constants_canonical b⟩
  · rintro ⟨hschema, hconstants⟩
    have hslots : a.slots = b.slots := by
      rw [slots_of_isGround ha, slots_of_isGround hb, hconstants]
    rw [schema, schema, Schema.mk.injEq] at hschema
    -- The arguments as one term, so that the lemma about terms applies.
    have happ : Term.app Keyword.role a.args = Term.app Keyword.role b.args := by
      refine (Term.eq_of_slots_append (q := []) (r := []) ?_ ?_).1
      · rw [Term.shape_app, Term.shape_app, hschema.2]
      · rw [List.append_nil, List.append_nil, Term.slots_app, Term.slots_app]
        exact hslots
    rw [Term.app.injEq] at happ
    rw [canonical, canonical, hschema.1, happ.2]

end Atom

end GameCircuit
