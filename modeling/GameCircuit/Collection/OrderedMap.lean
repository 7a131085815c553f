import GameCircuit.Collection.OrderedSet

/-!
# Ordered maps

A map that keeps its keys in the order in which they were first given a value.  The view of an ordered
map is `get?`: `get?_alter_self` and `get?_alter_of_ne` say what changing it does.
-/

namespace GameCircuit

/-- Values for keys, in the order in which the keys were first given one. -/
structure OrderedMap (α β : Type) [Keyed α] where
  /-- The keys. -/
  keys : OrderedSet α
  /-- The values, each where its key stands. -/
  values : Array β
  /-- Every key has a value. -/
  size_values : values.size = keys.size

namespace OrderedMap

variable {α β : Type} [Keyed α]

/-- The map without keys. -/
def empty : OrderedMap α β := ⟨.empty, #[], rfl⟩

instance : Inhabited (OrderedMap α β) := ⟨empty⟩

/-- The keys with their values. -/
def toList (m : OrderedMap α β) : List (α × β) := m.keys.toList.zip m.values.toList

/-- The value of a key. -/
def get? (m : OrderedMap α β) (a : α) : Option β := (m.keys.position? a).bind (m.values[·]?)

/-- Gives a key the value that `f` makes of the one it has. -/
def alter (m : OrderedMap α β) (a : α) (f : Option β → β) : OrderedMap α β :=
  match h : m.keys.position? a with
  | some i => { m with
      values := m.values.modify i (f ∘ some)
      size_values := by simp [m.size_values] }
  | none => {
      keys := m.keys.push a h
      values := m.values.push (f none)
      size_values := by simpa [OrderedSet.push, OrderedSet.size] using m.size_values }

/-- Gives a key a value. -/
def insert (m : OrderedMap α β) (a : α) (b : β) : OrderedMap α β := m.alter a fun _ => b

variable {m : OrderedMap α β} {a b : α}

@[simp] theorem get?_empty : (empty : OrderedMap α β).get? a = none := by
  have hposition : (OrderedSet.empty : OrderedSet α).position? a = none := by
    refine Option.eq_none_iff_forall_ne_some.2 fun i hi => ?_
    simpa using OrderedSet.position?_eq_some_iff.1 hi
  rw [get?, empty, hposition]
  rfl

/-- A key that stands somewhere has a value there. -/
theorem get?_of_position? {i : Nat} (h : m.keys.position? a = some i) :
    ∃ v, m.values[i]? = some v ∧ m.get? a = some v := by
  have hlt : i < m.values.size := by
    rw [m.size_values]
    exact OrderedSet.position?_lt h
  exact ⟨m.values[i], Array.getElem?_eq_getElem hlt, by rw [get?, h]; exact Array.getElem?_eq_getElem hlt⟩

theorem get?_alter_self (f : Option β → β) : (m.alter a f).get? a = some (f (m.get? a)) := by
  unfold alter
  split
  · rename_i i hi
    obtain ⟨v, hv, hget⟩ := get?_of_position? hi
    rw [hget]
    simp only [get?, hi, Option.bind_some]
    rw [Array.getElem?_modify, if_pos rfl, hv]
    rfl
  · rename_i hnone
    have hget : m.get? a = none := by rw [get?, hnone]; rfl
    rw [hget]
    simp only [get?, OrderedSet.position?_push_self hnone, Option.bind_some, ← m.size_values]
    exact Array.getElem?_push_size

theorem get?_alter_of_ne (f : Option β → β) (h : a ≠ b) : (m.alter a f).get? b = m.get? b := by
  unfold alter
  split
  · rename_i i hi
    simp only [get?]
    cases hj : m.keys.position? b with
    | none => rfl
    | some j =>
      have hij : i ≠ j := by
        rintro rfl
        exact h (OrderedSet.eq_of_position?_eq hi hj)
      simp only [Option.bind_some]
      rw [Array.getElem?_modify, if_neg hij]
  · rename_i hnone
    simp only [get?, OrderedSet.position?_push_of_ne hnone h]
    cases hj : m.keys.position? b with
    | none => rfl
    | some j =>
      have hlt : j < m.values.size := by
        rw [m.size_values]
        exact OrderedSet.position?_lt hj
      simp only [Option.bind_some]
      rw [Array.getElem?_push, if_neg (by omega)]

end OrderedMap

end GameCircuit
