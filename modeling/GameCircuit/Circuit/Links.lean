import GameCircuit.Collection.OrderedMap

/-!
# Links

A link is noted at both of its ends: the component that it leads from has an output more, and the
component that it leads to an input.  Both ends are changed by each operation, and `Links` carries
the proof that they go together.
-/

namespace GameCircuit

/-- For each component some others, in the order in which they were noted. -/
structure Neighbours where
  /-- The components that were noted. -/
  noted : OrderedMap Nat (OrderedSet Nat)

namespace Neighbours

variable {n : Neighbours} {i j k id : Nat}

/-- For no component any other. -/
def empty : Neighbours := ⟨.empty⟩

/-- The components that were noted for a component. -/
def of (n : Neighbours) (id : Nat) : List Nat := ((n.noted.get? id).getD .empty).toList

/-- Notes a component for another one, behind those that were noted, if it is new. -/
def note (n : Neighbours) (id neighbour : Nat) : Neighbours :=
  ⟨n.noted.alter id fun found => (found.getD .empty).insert neighbour⟩

/-- Takes back that a component was noted for another one. -/
def forget (n : Neighbours) (id neighbour : Nat) : Neighbours :=
  ⟨n.noted.alter id fun found => (found.getD .empty).erase neighbour⟩

@[simp] theorem of_empty (id : Nat) : empty.of id = [] := by
  rw [of, empty, OrderedMap.get?_empty]
  rfl

theorem nodup_of (n : Neighbours) (id : Nat) : (n.of id).Nodup := OrderedSet.nodup_toList _

theorem of_note_self (n : Neighbours) (id neighbour : Nat) :
    (n.note id neighbour).of id = (((n.noted.get? id).getD .empty).insert neighbour).toList := by
  rw [of, note, OrderedMap.get?_alter_self]
  rfl

theorem of_note_of_ne (h : i ≠ id) : (n.note i j).of id = n.of id := by
  rw [of, note, OrderedMap.get?_alter_of_ne _ h]
  rfl

theorem of_forget_self (n : Neighbours) (id neighbour : Nat) :
    (n.forget id neighbour).of id = (n.of id).filter (· ≠ neighbour) := by
  rw [of, forget, OrderedMap.get?_alter_self]
  exact OrderedSet.toList_erase _ neighbour

theorem of_forget_of_ne (h : i ≠ id) : (n.forget i j).of id = n.of id := by
  rw [of, forget, OrderedMap.get?_alter_of_ne _ h]
  rfl

theorem mem_of_note : k ∈ (n.note i j).of id ↔ k ∈ n.of id ∨ k = j ∧ id = i := by
  by_cases h : id = i
  · subst h
    rw [of_note_self, OrderedSet.mem_toList_insert, and_iff_left rfl]
    rfl
  · rw [of_note_of_ne (Ne.symm h), or_iff_left fun hk => h hk.2]

theorem mem_of_forget : k ∈ (n.forget i j).of id ↔ k ∈ n.of id ∧ ¬ (k = j ∧ id = i) := by
  by_cases h : id = i
  · subst h
    rw [of_forget_self, List.mem_filter, decide_eq_true_iff, and_iff_left rfl]
  · rw [of_forget_of_ne (Ne.symm h), and_iff_left fun hk => h hk.2]

end Neighbours

/-- The links between components, each noted at both of its ends. -/
structure Links where
  /-- The components that feed each component. -/
  inputs : Neighbours
  /-- The components that each component feeds. -/
  outputs : Neighbours
  /-- A component is an output of those that are its inputs. -/
  mem_outputs_iff : ∀ i j, j ∈ outputs.of i ↔ i ∈ inputs.of j

namespace Links

/-- No links. -/
def empty : Links where
  inputs := .empty
  outputs := .empty
  mem_outputs_iff i j := by simp

/-- Makes a component an input of another one, which becomes an output of it. -/
def link (l : Links) (source target : Nat) : Links where
  inputs := l.inputs.note target source
  outputs := l.outputs.note source target
  mem_outputs_iff i j := by
    rw [Neighbours.mem_of_note, Neighbours.mem_of_note, l.mem_outputs_iff, and_comm]

/-- Undoes a link, at both of its ends. -/
def unlink (l : Links) (source target : Nat) : Links where
  inputs := l.inputs.forget target source
  outputs := l.outputs.forget source target
  mem_outputs_iff i j := by
    rw [Neighbours.mem_of_forget, Neighbours.mem_of_forget, l.mem_outputs_iff, and_comm (a := j = target)]

end Links

end GameCircuit
