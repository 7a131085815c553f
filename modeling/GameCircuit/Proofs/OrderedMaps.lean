import GameCircuit.Collection.OrderedMap
import Mathlib.Data.List.Nodup
import Mathlib.Tactic.SplitIfs

/-!
# Ordered sets and maps keep what they are given

Elements of an ordered set keep their places.  The view of an ordered map is `get?`: `get?_insert_self`
and `get?_insert_of_ne` say what giving a key a value does, and `mem_toList_iff` and `lookup_toList` tie it
to the list of keys with their values.
-/

namespace GameCircuit

namespace OrderedSet

variable {α : Type} [Keyed α] {s : OrderedSet α} {a : α}

/-- Elements keep their places when others are added behind them. -/
theorem position?_of_prefix {s' : OrderedSet α} {i : Nat} (h : s.toList <+: s'.toList)
    (hi : s.position? a = some i) : s'.position? a = some i := by
  rw [position?_eq_some_iff] at hi ⊢
  obtain ⟨rest, hrest⟩ := h
  obtain ⟨hlt, -⟩ := List.getElem?_eq_some_iff.1 hi
  rw [← hrest, List.getElem?_append_left hlt]
  exact hi

/-- What a function tells apart, it tells apart in the order in which it is inserted. -/
theorem toList_foldl_insert_map {β : Type} [Keyed β] {f : α → β} {s' : OrderedSet β} {as : List α}
    (hs : s'.toList = s.toList.map f)
    (hf : ∀ a ∈ s.toList ++ as, ∀ b ∈ s.toList ++ as, f a = f b → a = b) :
    ((as.map f).foldl insert s').toList = (as.foldl insert s).toList.map f := by
  induction as generalizing s s' with
  | nil => exact hs
  | cons a as ih =>
    rw [List.map_cons, List.foldl_cons, List.foldl_cons]
    have hmem : f a ∈ s'.toList ↔ a ∈ s.toList := by
      rw [hs]
      refine ⟨fun h => ?_, List.mem_map_of_mem⟩
      obtain ⟨b, hb, heq⟩ := List.mem_map.1 h
      rwa [← hf b (List.mem_append_left _ hb) a (by simp) heq]
    by_cases ha : a ∈ s.toList
    · refine ih ?_ fun b hb c hc => hf b ?_ c ?_
      · rw [toList_insert_of_mem ha, toList_insert_of_mem (hmem.2 ha), hs]
      · rw [toList_insert_of_mem ha] at hb
        exact List.mem_append.2 ((List.mem_append.1 hb).imp_right (List.mem_cons_of_mem a))
      · rw [toList_insert_of_mem ha] at hc
        exact List.mem_append.2 ((List.mem_append.1 hc).imp_right (List.mem_cons_of_mem a))
    · refine ih ?_ fun b hb c hc => hf b ?_ c ?_
      · rw [toList_insert_of_not_mem ha, toList_insert_of_not_mem (mt hmem.1 ha), hs, List.map_append]
        rfl
      · rwa [toList_insert_of_not_mem ha, List.append_assoc] at hb
      · rwa [toList_insert_of_not_mem ha, List.append_assoc] at hc

end OrderedSet

theorem distinct_eq_self {α : Type} [Keyed α] {as : List α} (h : as.Nodup) : distinct as = as := by
  have hempty : ((OrderedSet.empty : OrderedSet α).toList ++ as).Nodup := h
  exact OrderedSet.toList_foldl_insert hempty

theorem distinct_map {α β : Type} [Keyed α] [Keyed β] {f : α → β} {as : List α}
    (hf : ∀ a ∈ as, ∀ b ∈ as, f a = f b → a = b) : distinct (as.map f) = (distinct as).map f :=
  OrderedSet.toList_foldl_insert_map rfl hf

namespace OrderedMap

variable {α β : Type} [Keyed α] {m : OrderedMap α β} {a b : α}

@[simp] theorem get?_insert_self (v : β) : (m.insert a v).get? a = some v := get?_alter_self _

theorem get?_insert_of_ne (v : β) (h : a ≠ b) : (m.insert a v).get? b = m.get? b := get?_alter_of_ne _ h

theorem nodup_keys (m : OrderedMap α β) : (m.toList.map Prod.fst).Nodup := by
  rw [toList, List.map_fst_zip]
  · exact m.keys.nodup_toList
  · simp [OrderedSet.toList, m.size_values, OrderedSet.size]

theorem mem_toList_iff {v : β} : (a, v) ∈ m.toList ↔ m.get? a = some v := by
  rw [get?, Option.bind_eq_some_iff, toList, List.mem_iff_getElem?]
  refine exists_congr fun i => ?_
  simp only [List.getElem?_zip_eq_some, OrderedSet.position?_eq_some_iff, Array.getElem?_toList]

theorem lookup_toList [BEq α] [LawfulBEq α] (m : OrderedMap α β) (a : α) :
    m.toList.lookup a = m.get? a := by
  have hlookup : ∀ {l : List (α × β)}, (l.map Prod.fst).Nodup → ∀ v, l.lookup a = some v ↔ (a, v) ∈ l := by
    intro l hl v
    induction l with
    | nil => simp
    | cons p l ih =>
      obtain ⟨b, u⟩ := p
      obtain ⟨hb, hl'⟩ := List.nodup_cons.1 hl
      rw [List.lookup_cons]
      by_cases hab : a = b
      · subst hab
        have hnot : (a, v) ∉ l := fun hmem => hb (List.mem_map.2 ⟨(a, v), hmem, rfl⟩)
        simp [hnot, eq_comm]
      · rw [beq_false_of_ne hab]
        simp [ih hl', hab]
  refine Option.ext fun v => ?_
  rw [hlookup m.nodup_keys, mem_toList_iff]

end OrderedMap

end GameCircuit
