/-!
# Keys

Sets and maps find a value by its *key*: a list of numbers that no other value of its type has.

The key of a compound value is put together from codes of its parts.  A part's code has to show
where it ends, so that what follows it can be told apart: `IsSelfDelimiting` says so of a code, and
`flatMap_append_inj` carries it over to lists of known length.  A code is best written from the
back, by a function that puts it in front of what follows it; `foldr_eq_flatMap` relates the two.
-/

namespace GameCircuit

/-- Values that are told apart by a list of numbers. -/
class Keyed (α : Type) where
  /-- The key of a value. -/
  key : α → List Nat
  /-- No two values share a key. -/
  key_injective : ∀ {a b : α}, key a = key b → a = b

export Keyed (key key_injective)

variable {α : Type}

theorem key_inj [Keyed α] {a b : α} : key a = key b ↔ a = b := ⟨key_injective, fun h => h ▸ rfl⟩

instance : Keyed Nat where
  key n := [n]
  key_injective h := by simpa using h

/-! ## Codes that show where they end -/

/-- The code of `a` can be told apart from what follows it. -/
def IsDelimited (code : α → List Nat) (a : α) : Prop :=
  ∀ (b : α) (r s : List Nat), code a ++ r = code b ++ s → a = b ∧ r = s

/-- All codes can be told apart from what follows them. -/
def IsSelfDelimiting (code : α → List Nat) : Prop := ∀ a, IsDelimited code a

theorem IsSelfDelimiting.injective {code : α → List Nat} (h : IsSelfDelimiting code) {a b : α}
    (hab : code a = code b) : a = b :=
  (h a b [] [] (by rw [hab])).1

/-- Codes in a row can be told apart from what follows them, if it is known how many there are. -/
theorem flatMap_append_inj {code : α → List Nat} :
    ∀ {as bs : List α} {r s : List Nat}, (∀ a ∈ as, IsDelimited code a) → as.length = bs.length →
      as.flatMap code ++ r = bs.flatMap code ++ s → as = bs ∧ r = s
  | [], [], _, _, _, _, h => ⟨rfl, h⟩
  | a :: as, b :: bs, r, s, hcode, hlen, h => by
    simp only [List.flatMap_cons, List.append_assoc] at h
    obtain ⟨rfl, h'⟩ := hcode a (by simp) b _ _ h
    obtain ⟨rfl, hrs⟩ := flatMap_append_inj (fun c hc => hcode c (List.mem_cons_of_mem a hc))
      (by simpa using hlen) h'
    exact ⟨rfl, hrs⟩

/-- Writing codes in a row from the back is writing them one after the other, for a function that
puts a code in front of what follows it. -/
theorem foldr_eq_flatMap {onto : α → List Nat → List Nat} {as : List α}
    (h : ∀ a ∈ as, ∀ rest, onto a rest = onto a [] ++ rest) (rest : List Nat) :
    as.foldr onto rest = as.flatMap (onto · []) ++ rest := by
  induction as with
  | nil => rfl
  | cons a as ih =>
    rw [List.foldr_cons, ih fun b hb => h b (List.mem_cons_of_mem a hb), h a (by simp)]
    simp

end GameCircuit
