import GameCircuit.Grounding.Table
import Mathlib.Data.List.Basic
import Mathlib.Tactic.SplitIfs

/-!
# Tables keep what they are given

The view of a table is the list of its tuples.  `Table.WellFormed` says that every tuple has the length
of the schema, that the columns list just the rows at which each constant stands, in ascending order,
and that the delta lies within the table.  Inserting a tuple and starting a round keep it.
-/

namespace GameCircuit

namespace Column

theorem rows_enter (column : Column) (c d : Symbol) (row : Nat) :
    (column.enter c row).rows d = if c = d then (column.rows c).push row else column.rows d := by
  unfold rows enter
  rw [Std.TreeMap.getElem?_alter]
  by_cases h : c = d
  · subst h
    simp
  · have hhandle : compare c.handle d.handle ≠ .eq := fun heq =>
      h (Symbol.handle_injective (Nat.compare_eq_eq.1 heq))
    rw [if_neg h, if_neg hhandle]

theorem length_enterAll (row : Nat) (tuple : List Symbol) (columns : List Column) :
    (enterAll row tuple columns).length = columns.length := by
  induction tuple generalizing columns with
  | nil => rfl
  | cons c cs ih =>
    cases columns with
    | nil => rfl
    | cons column columns => simp [enterAll, ih]

/-- Each constant is entered into the column of its place. -/
theorem getElem?_enterAll (row : Nat) {tuple : List Symbol} {columns : List Column}
    (hlen : tuple.length = columns.length) (place : Nat) :
    (enterAll row tuple columns)[place]? =
      match tuple[place]?, columns[place]? with
      | some c, some column => some (column.enter c row)
      | _, _ => none := by
  induction tuple generalizing columns place with
  | nil =>
    obtain rfl : columns = [] := by simpa using hlen.symm
    simp [enterAll]
  | cons c cs ih =>
    cases columns with
    | nil => simp at hlen
    | cons column columns =>
      cases place with
      | zero => simp [enterAll]
      | succ place =>
        simp only [enterAll, List.getElem?_cons_succ]
        exact ih (by simpa using hlen) place

end Column

namespace Table

variable {t : Table} {tuple : List Symbol}

theorem size_eq (t : Table) : t.size = t.tuples.toList.length := by
  simp [size, OrderedSet.size, OrderedSet.toList]

theorem row?_eq (t : Table) (row : Nat) : t.row? row = t.tuples.toList[row]? := by
  simp [row?, OrderedSet.toList]

theorem row?_lt {row : Nat} (h : t.row? row = some tuple) : row < t.size := by
  rw [row?_eq] at h
  rw [size_eq]
  exact (List.getElem?_eq_some_iff.1 h).1

theorem contains_iff : t.contains tuple = true ↔ tuple ∈ t.tuples.toList := OrderedSet.contains_iff

theorem mem_iff_row? : tuple ∈ t.tuples.toList ↔ ∃ row, row < t.size ∧ t.row? row = some tuple := by
  simp only [List.mem_iff_getElem?, ← row?_eq]
  exact exists_congr fun row => ⟨fun hrow => ⟨row?_lt hrow, hrow⟩, fun hrow => hrow.2⟩

/-- The constant at a place of a row. -/
def constantAt? (t : Table) (row place : Nat) : Option Symbol := (t.row? row).bind (·[place]?)

/-- What every table of a database satisfies. -/
structure WellFormed (t : Table) : Prop where
  length_columns : t.columns.length = t.schema.arity
  length_tuple : ∀ tuple ∈ t.tuples.toList, tuple.length = t.schema.arity
  -- the columns list just the rows at which a constant stands, in ascending order
  matching_eq : ∀ place c, (t.matching place c).toList =
    (List.range t.size).filter fun row => t.constantAt? row place = some c
  settled_le : t.settled ≤ t.frontier
  frontier_le : t.frontier ≤ t.size

theorem wellFormed_empty (schema : Schema) : (empty schema).WellFormed where
  length_columns := by simp [empty]
  length_tuple := by simp [empty]
  matching_eq place c := by
    have hsize : (empty schema).size = 0 := rfl
    rw [hsize]
    simp only [matching, empty, List.getElem?_replicate]
    split_ifs with h
    · simp [Column.rows]
    · simp
  settled_le := Nat.le_refl _
  frontier_le := Nat.le_refl _

theorem mem_matching_iff (h : t.WellFormed) {place row : Nat} {c : Symbol} :
    row ∈ (t.matching place c).toList ↔ row < t.size ∧ t.constantAt? row place = some c := by
  rw [h.matching_eq]
  simp

/-! ## Inserting -/

theorem insert_of_mem (h : tuple ∈ t.tuples.toList) : t.insert tuple = t := by
  rw [insert, if_pos (contains_iff.2 h)]

theorem insert_of_not_mem (h : tuple ∉ t.tuples.toList) :
    t.insert tuple = { t with
      tuples := t.tuples.insert tuple
      columns := Column.enterAll t.size tuple t.columns } := by
  rw [insert, if_neg fun hc => h (contains_iff.1 hc)]

theorem mem_insert {other : List Symbol} :
    other ∈ (t.insert tuple).tuples.toList ↔ other ∈ t.tuples.toList ∨ other = tuple := by
  by_cases h : tuple ∈ t.tuples.toList
  · rw [insert_of_mem h]
    exact ⟨.inl, fun ho => ho.elim id fun heq => heq ▸ h⟩
  · rw [insert_of_not_mem h]
    exact OrderedSet.mem_toList_insert

/-- What an operation on the rows leaves alone, and what it may only add to. -/
structure Grows (t t' : Table) : Prop where
  schema : t'.schema = t.schema
  producers : t'.producers = t.producers
  consumers : t'.consumers = t.consumers
  settled : t'.settled = t.settled
  frontier : t'.frontier = t.frontier
  tuples : t.tuples.toList <+: t'.tuples.toList

namespace Grows

theorem refl (t : Table) : Grows t t := ⟨rfl, rfl, rfl, rfl, rfl, List.prefix_refl _⟩

theorem trans {t1 t2 t3 : Table} (h1 : Grows t1 t2) (h2 : Grows t2 t3) : Grows t1 t3 where
  schema := h2.schema.trans h1.schema
  producers := h2.producers.trans h1.producers
  consumers := h2.consumers.trans h1.consumers
  settled := h2.settled.trans h1.settled
  frontier := h2.frontier.trans h1.frontier
  tuples := h1.tuples.trans h2.tuples

variable {t' : Table}

theorem size_le (h : Grows t t') : t.size ≤ t'.size := by
  rw [size_eq, size_eq]
  exact h.tuples.length_le

theorem row? (h : Grows t t') {row : Nat} (hrow : t.row? row = some tuple) :
    t'.row? row = some tuple := by
  rw [row?_eq] at hrow ⊢
  obtain ⟨rest, hrest⟩ := h.tuples
  obtain ⟨hlt, -⟩ := List.getElem?_eq_some_iff.1 hrow
  rw [← hrest, List.getElem?_append_left hlt]
  exact hrow

/-- A table that grows keeps the rows it had, and gains none among them. -/
theorem row?_eq (h : Grows t t') {row : Nat} (hrow : row < t.size) : t'.row? row = t.row? row := by
  rw [Table.size_eq] at hrow
  have hget : t.row? row = some t.tuples.toList[row] := by
    rw [Table.row?_eq, List.getElem?_eq_getElem hrow]
  rw [hget]
  exact h.row? hget

end Grows

theorem grows_insert (t : Table) (tuple : List Symbol) : Grows t (t.insert tuple) := by
  by_cases h : tuple ∈ t.tuples.toList
  · rw [insert_of_mem h]
    exact Grows.refl t
  · rw [insert_of_not_mem h]
    refine ⟨rfl, rfl, rfl, rfl, rfl, ?_⟩
    rw [OrderedSet.toList_insert_of_not_mem h]
    exact List.prefix_append _ _

theorem row?_insert_size (h : tuple ∉ t.tuples.toList) :
    (t.insert tuple).row? t.size = some tuple := by
  rw [row?_eq, insert_of_not_mem h, OrderedSet.toList_insert_of_not_mem h, size_eq,
    List.getElem?_append_right (Nat.le_refl _)]
  simp

theorem size_insert (h : tuple ∉ t.tuples.toList) : (t.insert tuple).size = t.size + 1 := by
  rw [size_eq, size_eq, insert_of_not_mem h, OrderedSet.toList_insert_of_not_mem h]
  simp

theorem matching_insert (hwf : t.WellFormed) (hlen : tuple.length = t.schema.arity)
    (h : tuple ∉ t.tuples.toList) (place : Nat) (c : Symbol) :
    ((t.insert tuple).matching place c).toList =
      (t.matching place c).toList ++ if tuple[place]? = some c then [t.size] else [] := by
  have hcolumns : tuple.length = t.columns.length := hlen.trans hwf.length_columns.symm
  rw [insert_of_not_mem h, matching, matching, Column.getElem?_enterAll t.size hcolumns]
  by_cases hplace : place < tuple.length
  · obtain ⟨d, hd⟩ : ∃ d, tuple[place]? = some d := ⟨_, List.getElem?_eq_getElem hplace⟩
    obtain ⟨column, hcolumn⟩ : ∃ column, t.columns[place]? = some column :=
      ⟨_, List.getElem?_eq_getElem (hcolumns ▸ hplace)⟩
    simp only [hd, hcolumn, Column.rows_enter, Option.some.injEq]
    by_cases hdc : d = c
    · subst hdc
      simp
    · simp [hdc]
  · have htuple : tuple[place]? = none := List.getElem?_eq_none (by omega)
    have hcol : t.columns[place]? = none := List.getElem?_eq_none (by omega)
    simp [htuple, hcol]

theorem WellFormed.insert (hwf : t.WellFormed) (hlen : tuple.length = t.schema.arity) :
    (t.insert tuple).WellFormed := by
  by_cases h : tuple ∈ t.tuples.toList
  · rw [insert_of_mem h]
    exact hwf
  have hgrows := grows_insert t tuple
  refine ⟨?_, ?_, ?_, ?_, ?_⟩
  · rw [hgrows.schema, insert_of_not_mem h]
    exact (Column.length_enterAll _ _ _).trans hwf.length_columns
  · intro other hother
    rw [hgrows.schema]
    rcases mem_insert.1 hother with hother | rfl
    · exact hwf.length_tuple other hother
    · exact hlen
  · intro place c
    have hold : (List.range t.size).filter (fun row => (t.insert tuple).constantAt? row place = some c) =
        (List.range t.size).filter fun row => t.constantAt? row place = some c := by
      refine List.filter_congr fun row hrow => ?_
      have hlt : row < t.tuples.toList.length := by rw [← size_eq]; exact List.mem_range.1 hrow
      have hrow' : t.row? row = some t.tuples.toList[row] := by
        rw [row?_eq, List.getElem?_eq_getElem hlt]
      rw [constantAt?, constantAt?, hgrows.row? hrow', hrow']
    have hnew : (t.insert tuple).constantAt? t.size place = tuple[place]? := by
      rw [constantAt?, row?_insert_size h, Option.bind_some]
    rw [matching_insert hwf hlen h, hwf.matching_eq, size_insert h, List.range_succ,
      List.filter_append, hold]
    congr 1
    by_cases hc : tuple[place]? = some c
    · simp [hnew, hc]
    · simp [hnew, hc]
  · rw [hgrows.settled, hgrows.frontier]
    exact hwf.settled_le
  · rw [hgrows.frontier]
    exact Nat.le_trans hwf.frontier_le hgrows.size_le

/-! ## Starting a round -/

theorem WellFormed.advance (h : t.WellFormed) : t.advance.WellFormed :=
  ⟨h.length_columns, h.length_tuple, h.matching_eq, h.frontier_le, Nat.le_refl _⟩

theorem hasDelta_advance_iff (h : t.WellFormed) :
    t.advance.hasDelta = true ↔ t.frontier ≠ t.size := by
  have hle := h.frontier_le
  rw [hasDelta, decide_eq_true_iff]
  show t.frontier < t.size ↔ t.frontier ≠ t.size
  omega

end Table

end GameCircuit
