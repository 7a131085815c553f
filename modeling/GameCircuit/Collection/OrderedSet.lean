import GameCircuit.Collection.Keyed
import Std.Data.TreeMap.Lemmas

/-!
# Ordered sets

A set that keeps its elements in the order in which they were inserted and finds an element without
looking at the others.  The view of an ordered set is `toList`, a list without repetition:
`contains_iff` says what `contains` finds in it, `toList_insert_of_mem` and
`toList_insert_of_not_mem` what inserting does to it, and `toList_erase` what erasing does.
-/

namespace GameCircuit

/-- Elements in the order in which they were inserted, each once. -/
structure OrderedSet (α : Type) [Keyed α] where
  /-- The elements. -/
  items : Array α
  /-- For the key of each element, where the element stands. -/
  positions : Std.TreeMap (List Nat) Nat
  /-- An element is found where it stands, and nothing else is found. -/
  position_iff : ∀ (a : α) (i : Nat), positions[key a]? = some i ↔ items[i]? = some a

namespace OrderedSet

variable {α : Type} [Keyed α]

/-- The set without elements. -/
def empty : OrderedSet α where
  items := #[]
  positions := ∅
  position_iff a i := by simp

instance : Inhabited (OrderedSet α) := ⟨empty⟩

/-- The elements, in the order in which they were inserted. -/
def toList (s : OrderedSet α) : List α := s.items.toList

/-- The number of elements. -/
def size (s : OrderedSet α) : Nat := s.items.size

/-- Where the value stands among the elements. -/
def position? (s : OrderedSet α) (a : α) : Option Nat := s.positions[key a]?

/-- The value is an element. -/
def contains (s : OrderedSet α) (a : α) : Bool := (s.position? a).isSome

/-- Adds a new element behind those that are there. -/
def push (s : OrderedSet α) (a : α) (h : s.position? a = none) : OrderedSet α :=
  let positions := s.positions.insert (key a) s.items.size
  { items := s.items.push a
    positions
    position_iff b i := by
      have hfree : ∀ j : Nat, s.items[j]? ≠ some a := fun j hj => by
        simp [position?, (s.position_iff a j).2 hj] at h
      rw [Std.TreeMap.getElem?_insert, Array.getElem?_push]
      by_cases hab : a = b
      · subst hab
        by_cases hi : i = s.items.size
        · simp [hi]
        · simp [hi, hfree i, Ne.symm hi]
      · have hkey : ¬ compare (key a) (key b) = .eq := fun hc =>
          hab (key_injective (Std.LawfulEqCmp.eq_of_compare hc))
        rw [if_neg hkey, s.position_iff b i]
        by_cases hi : i = s.items.size
        · simp [hi, hab]
        · simp [hi] }

/-- Adds an element behind those that are there, if it is new. -/
def insert (s : OrderedSet α) (a : α) : OrderedSet α :=
  match h : s.position? a with
  | some _ => s
  | none => s.push a h

/-- The elements of a list, each where it first occurs. -/
def ofList (as : List α) : OrderedSet α := as.foldl insert empty

/-- The set without an element. -/
def erase [DecidableEq α] (s : OrderedSet α) (a : α) : OrderedSet α := ofList (s.toList.filter (· ≠ a))

theorem position?_eq_some_iff {s : OrderedSet α} {a : α} {i : Nat} :
    s.position? a = some i ↔ s.toList[i]? = some a := by
  simp [position?, s.position_iff, toList]

theorem contains_iff {s : OrderedSet α} {a : α} : s.contains a = true ↔ a ∈ s.toList := by
  simp [contains, Option.isSome_iff_exists, position?_eq_some_iff, List.mem_iff_getElem?]

@[simp] theorem toList_empty : (empty : OrderedSet α).toList = [] := rfl

@[simp] theorem toList_push (s : OrderedSet α) (a : α) (h : s.position? a = none) :
    (s.push a h).toList = s.toList ++ [a] := by
  simp [push, toList]

theorem toList_insert_of_mem {s : OrderedSet α} {a : α} (h : a ∈ s.toList) :
    (s.insert a).toList = s.toList := by
  unfold insert
  split
  · rfl
  · rename_i hnone
    simp [← contains_iff, contains, hnone] at h

theorem toList_insert_of_not_mem {s : OrderedSet α} {a : α} (h : a ∉ s.toList) :
    (s.insert a).toList = s.toList ++ [a] := by
  unfold insert
  split
  · rename_i hi
    exact absurd (List.mem_iff_getElem?.2 ⟨_, position?_eq_some_iff.1 hi⟩) h
  · simp

theorem mem_toList_insert {s : OrderedSet α} {a b : α} :
    b ∈ (s.insert a).toList ↔ b ∈ s.toList ∨ b = a := by
  by_cases h : a ∈ s.toList
  · rw [toList_insert_of_mem h]
    exact ⟨.inl, fun hb => hb.elim id fun hba => hba ▸ h⟩
  · simp [toList_insert_of_not_mem h]

theorem mem_toList_ofList {as : List α} {a : α} : a ∈ (ofList as).toList ↔ a ∈ as := by
  suffices ∀ s : OrderedSet α, a ∈ (as.foldl insert s).toList ↔ a ∈ s.toList ∨ a ∈ as by
    simpa [ofList] using this empty
  induction as with
  | nil => simp
  | cons b as ih => simp [ih, mem_toList_insert, or_assoc]

theorem nodup_toList (s : OrderedSet α) : s.toList.Nodup := by
  rw [List.Nodup, List.pairwise_iff_getElem]
  intro i j hi hj hij h
  have hpos : s.position? s.toList[j] = some i := position?_eq_some_iff.2 (by simp [h, hi])
  rw [position?_eq_some_iff.2 (List.getElem?_eq_getElem hj)] at hpos
  simp only [Option.some.injEq] at hpos
  omega

/-- No two elements share a place. -/
theorem eq_of_position?_eq {s : OrderedSet α} {a b : α} {i : Nat} (ha : s.position? a = some i)
    (hb : s.position? b = some i) : a = b := by
  rw [position?_eq_some_iff] at ha hb
  exact Option.some.inj (ha.symm.trans hb)

theorem position?_lt {s : OrderedSet α} {a : α} {i : Nat} (h : s.position? a = some i) : i < s.size := by
  rw [position?_eq_some_iff] at h
  exact (List.getElem?_eq_some_iff.1 h).1

theorem position?_push_self {s : OrderedSet α} {a : α} (h : s.position? a = none) :
    (s.push a h).position? a = some s.size := by
  rw [position?_eq_some_iff, toList_push]
  exact List.getElem?_concat_length

theorem position?_push_of_ne {s : OrderedSet α} {a b : α} (h : s.position? a = none) (hb : a ≠ b) :
    (s.push a h).position? b = s.position? b := by
  refine Option.ext fun i => ?_
  rw [position?_eq_some_iff, position?_eq_some_iff, toList_push, List.getElem?_append]
  by_cases hi : i < s.toList.length
  · rw [if_pos hi]
  · rw [if_neg hi, List.getElem?_singleton, List.getElem?_eq_none (Nat.le_of_not_lt hi)]
    by_cases hi' : i - s.toList.length = 0
    · simpa [hi'] using hb
    · rw [if_neg hi']

/-- New elements are added in their order. -/
theorem toList_foldl_insert {s : OrderedSet α} {as : List α} (h : (s.toList ++ as).Nodup) :
    (as.foldl insert s).toList = s.toList ++ as := by
  induction as generalizing s with
  | nil => simp
  | cons a as ih =>
    have ha : a ∉ s.toList := fun hmem =>
      (List.nodup_append.1 h).2.2 a hmem a List.mem_cons_self rfl
    rw [List.foldl_cons, ih, toList_insert_of_not_mem ha, List.append_assoc, List.singleton_append]
    rwa [toList_insert_of_not_mem ha, List.append_assoc, List.singleton_append]

theorem toList_erase [DecidableEq α] (s : OrderedSet α) (a : α) :
    (s.erase a).toList = s.toList.filter (· ≠ a) :=
  toList_foldl_insert (s.nodup_toList.filter _)

end OrderedSet

/-- The elements of a list, each where it first occurs. -/
def distinct {α : Type} [Keyed α] (as : List α) : List α := (OrderedSet.ofList as).toList

theorem mem_distinct {α : Type} [Keyed α] {as : List α} {a : α} : a ∈ distinct as ↔ a ∈ as :=
  OrderedSet.mem_toList_ofList

theorem nodup_distinct {α : Type} [Keyed α] (as : List α) : (distinct as).Nodup :=
  OrderedSet.nodup_toList _

end GameCircuit
