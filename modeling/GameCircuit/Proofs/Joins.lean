import GameCircuit.Grounding.Join
import GameCircuit.Proofs.Flattening
import GameCircuit.Proofs.Sequences
import GameCircuit.Proofs.Tables

/-!
# Joins find just the values for which all steps succeed

A search with one binding that it undoes is the same as one that hands its binding down and never
changes it (`Plan.joinFrom`): whatever it finds or meets, a search that returns leaves the binding as
it was (`Plan.descend_eq`).

`Step.HoldsAt` says when a step succeeds for given values of all variables, without bindings and
without indices.  A join that returns finds the values of a rule's variables for which all steps hold
(`Plan.mem_join_iff`): bindings only ever grow towards the values they agree with, and the rows that an
index leaves out would not have fitted.
-/

namespace GameCircuit

namespace Binding

variable {b b' : Binding} {σ : Symbol → Symbol}

/-! ## Fitting and undoing -/

/-- The binding that fitting a tuple into a template gives, if it fits. -/
def fit (b : Binding) : List Slot → List Symbol → Option Binding
  | .const d :: slots, c :: cs => if d = c then b.fit slots cs else none
  | .var x :: slots, c :: cs =>
    match b.lookup x with
    | some d => if d = c then b.fit slots cs else none
    | none => fit ((x, c) :: b) slots cs
  | _, _ => some b

/-- The binding that an attempt left, if the tuple fitted. -/
def Attempt.fitted? (a : Attempt) : Option Binding := if a.fits then some a.binding else none

theorem fitted?_attempt (b : Binding) (bound : List Symbol) (slots : List Slot) (tuple : List Symbol) :
    (b.attempt bound slots tuple).fitted? = b.fit slots tuple := by
  induction slots generalizing b bound tuple with
  | nil => cases tuple <;> rfl
  | cons slot slots ih =>
    cases tuple with
    | nil => cases slot <;> rfl
    | cons c cs =>
      cases slot with
      | const d =>
        rw [fit, attempt]
        split_ifs
        · exact ih b bound cs
        · rfl
      | var x =>
        rw [fit, attempt]
        cases b.lookup x with
        | some d =>
          dsimp only
          split_ifs
          · exact ih b bound cs
          · rfl
        | none => exact ih _ _ cs

/-- Also an attempt that fails half way has only put values in front for variables that had none, and knows for
which. -/
theorem exists_attempt_eq (b : Binding) (bound : List Symbol) (slots : List Slot) (tuple : List Symbol) :
    ∃ news : Binding, (b.attempt bound slots tuple).binding = news ++ b ∧
      (b.attempt bound slots tuple).bound = bound ++ (news.map Prod.fst).reverse ∧
      ∀ x ∈ news.map Prod.fst, b.lookup x = none := by
  have hstays : ∀ (b : Binding) (bound : List Symbol), ∃ news : Binding, b = news ++ b ∧
      bound = bound ++ (news.map Prod.fst).reverse ∧ ∀ x ∈ news.map Prod.fst, b.lookup x = none :=
    fun b bound => ⟨[], by simp⟩
  induction slots generalizing b bound tuple with
  | nil => cases tuple <;> exact hstays b bound
  | cons slot slots ih =>
    cases tuple with
    | nil => cases slot <;> exact hstays b bound
    | cons c cs =>
      cases slot with
      | const d =>
        rw [attempt]
        split_ifs with hdc
        · exact ih b bound cs
        · exact hstays b bound
      | var x =>
        rw [attempt]
        cases hx : b.lookup x with
        | some d =>
          dsimp only
          split_ifs with hdc
          · exact ih b bound cs
          · exact hstays b bound
        | none =>
          dsimp only
          obtain ⟨news, hbinding, hbound, hnews⟩ := ih (b.set x c) (bound ++ [x]) cs
          refine ⟨news ++ [(x, c)], by rw [hbinding, set, List.append_assoc, List.singleton_append],
            by simp [hbound], fun y hy => ?_⟩
          rw [List.map_append, List.mem_append, List.map_singleton, List.mem_singleton] at hy
          rcases hy with hy | rfl
          · have hnone := hnews y hy
            rw [set, List.lookup_cons] at hnone
            split at hnone
            · cases hnone
            · exact hnone
          · exact hx

theorem foldl_unset (b : Binding) (bound : List Symbol) :
    bound.foldl unset b = b.filter (·.1 ∉ bound) := by
  induction bound generalizing b with
  | nil => simp
  | cons x bound ih =>
    rw [List.foldl_cons, ih, unset, List.filter_filter]
    refine List.filter_congr fun q _ => ?_
    simp [not_or, Bool.and_comm]

/-- Taking back what an attempt bound restores the binding. -/
theorem foldl_unset_attempt (b : Binding) (slots : List Slot) (tuple : List Symbol) :
    (b.attempt [] slots tuple).bound.foldl unset (b.attempt [] slots tuple).binding = b := by
  obtain ⟨news, hbinding, hbound, hnews⟩ := b.exists_attempt_eq [] slots tuple
  rw [foldl_unset, hbinding, hbound, List.nil_append, List.filter_append]
  have hgone : news.filter (fun q => decide (q.1 ∉ (news.map Prod.fst).reverse)) = [] := by
    refine List.filter_eq_nil_iff.2 fun q hq => ?_
    simpa using ⟨q.2, hq⟩
  have hkept : b.filter (fun q => decide (q.1 ∉ (news.map Prod.fst).reverse)) = b := by
    refine List.filter_eq_self.2 fun q hq => decide_eq_true fun hmem => ?_
    have hnone := hnews q.1 (List.mem_reverse.1 hmem)
    exact absurd (List.lookup_eq_none_iff.1 hnone q hq) (by simp)
  rw [hgone, hkept, List.nil_append]

/-! ## Bindings and values -/

/-- The variables that have a value have the one that `σ` gives. -/
def Agrees (b : Binding) (σ : Symbol → Symbol) : Prop := ∀ x c, b.lookup x = some c → σ x = c

theorem agrees_nil (σ : Symbol → Symbol) : Agrees [] σ := by
  intro x c h
  simp at h

/-- Giving a variable its first value. -/
theorem agrees_cons_iff {x c : Symbol} (hx : b.lookup x = none) :
    Agrees ((x, c) :: b) σ ↔ σ x = c ∧ b.Agrees σ := by
  constructor
  · intro h
    refine ⟨h x c (by simp), fun y d hy => h y d ?_⟩
    have hyx : y ≠ x := by
      rintro rfl
      rw [hx] at hy
      cases hy
    rw [List.lookup_cons, beq_false_of_ne hyx]
    exact hy
  · rintro ⟨rfl, h⟩ y d hy
    by_cases hyx : y = x
    · subst hyx
      simpa using hy
    · rw [List.lookup_cons, beq_false_of_ne hyx] at hy
      exact h y d hy

/-- Some values agree with a binding, and for its variables they are those of the binding. -/
theorem exists_agrees (b : Binding) : ∃ σ, b.Agrees σ :=
  ⟨fun x => (b.lookup x).getD x, fun x c h => by simp [h]⟩

/-- Values agree with a fitted binding just if they agree with the binding and make the template the
tuple. -/
theorem agrees_of_fit {slots : List Slot} {tuple : List Symbol} (hlen : slots.length = tuple.length)
    (h : b.fit slots tuple = some b') :
    b'.Agrees σ ↔ b.Agrees σ ∧ slots.map (Slot.eval σ) = tuple := by
  induction slots generalizing b tuple with
  | nil =>
    obtain rfl : tuple = [] := by simpa using hlen.symm
    obtain rfl : b = b' := by simpa [fit] using h
    simp
  | cons slot slots ih =>
    cases tuple with
    | nil => simp at hlen
    | cons c cs =>
      have hlen' : slots.length = cs.length := by simpa using hlen
      rw [List.map_cons, List.cons.injEq]
      cases slot with
      | const d =>
        rw [fit] at h
        split_ifs at h with hdc
        rw [ih hlen' h]
        simp [hdc]
      | var x =>
        rw [fit] at h
        cases hx : b.lookup x with
        | some d =>
          simp only [hx] at h
          split_ifs at h with hdc
          rw [ih hlen' h]
          constructor
          · rintro ⟨hb, hcs⟩
            exact ⟨hb, (hb x d hx).trans hdc, hcs⟩
          · rintro ⟨hb, -, hcs⟩
            exact ⟨hb, hcs⟩
        | none =>
          simp only [hx] at h
          rw [ih hlen' h, agrees_cons_iff hx, Slot.eval_var, and_assoc, and_left_comm]

/-- A tuple that values make of a template fits, whatever of the values is known. -/
theorem exists_fit (slots : List Slot) (h : b.Agrees σ) :
    ∃ b', b.fit slots (slots.map (Slot.eval σ)) = some b' := by
  induction slots generalizing b with
  | nil => exact ⟨b, by simp [fit]⟩
  | cons slot slots ih =>
    rw [List.map_cons]
    cases slot with
    | const d =>
      rw [fit, Slot.eval_const, if_pos rfl]
      exact ih h
    | var x =>
      rw [fit, Slot.eval_var]
      cases hx : b.lookup x with
      | some d =>
        simp only [if_pos (h x d hx).symm]
        exact ih h
      | none => exact ih ((agrees_cons_iff hx).2 ⟨rfl, h⟩)

/-- The values in a binding all satisfy `Q`. -/
def All (Q : Symbol → Prop) (b : Binding) : Prop := ∀ x c, b.lookup x = some c → Q c

theorem All.fit {Q : Symbol → Prop} {slots : List Slot} {tuple : List Symbol} (hb : b.All Q)
    (htuple : ∀ c ∈ tuple, Q c) (h : b.fit slots tuple = some b') : b'.All Q := by
  induction slots generalizing b tuple with
  | nil =>
    obtain rfl : b = b' := by simpa [Binding.fit] using h
    exact hb
  | cons slot slots ih =>
    cases tuple with
    | nil =>
      obtain rfl : b = b' := by simpa [Binding.fit] using h
      exact hb
    | cons c cs =>
      have hcs : ∀ c ∈ cs, Q c := fun c hc => htuple c (List.mem_cons_of_mem _ hc)
      cases slot with
      | const d =>
        rw [Binding.fit] at h
        split_ifs at h
        exact ih hb hcs h
      | var x =>
        rw [Binding.fit] at h
        cases hx : b.lookup x with
        | some d =>
          simp only [hx] at h
          split_ifs at h
          exact ih hb hcs h
        | none =>
          simp only [hx] at h
          refine ih ?_ hcs h
          intro y d hy
          by_cases hyx : y = x
          · subst hyx
            obtain rfl : c = d := by simpa using hy
            exact htuple c (by simp)
          · rw [List.lookup_cons, beq_false_of_ne hyx] at hy
            exact hb y d hy

theorem resolve_eq {relation : Symbol} {t u : Term Symbol} (h : b.resolve relation t = .ok u)
    (hσ : b.Agrees σ) : u = t.inst σ := by
  unfold resolve at h
  split at h
  · cases h
  · rename_i hnone
    obtain rfl := Except.ok.inj h
    refine Term.subst_congr fun x hx => ?_
    have hbound := List.find?_eq_none.1 hnone x hx
    cases hlookup : b.lookup x with
    | none => simp [hlookup] at hbound
    | some c => simp [hσ x c hlookup]

theorem values_cons_ok {relation x : Symbol} {xs values : List Symbol} :
    b.values relation (x :: xs) = .ok values ↔
      ∃ c rest, b.lookup x = some c ∧ b.values relation xs = .ok rest ∧ values = c :: rest := by
  rw [Binding.values]
  cases b.lookup x with
  | none => simp
  | some c => simp [map_ok]

theorem values_eq {relation : Symbol} {xs values : List Symbol}
    (h : b.values relation xs = .ok values) (hσ : b.Agrees σ) : values = xs.map σ := by
  induction xs generalizing values with
  | nil => simpa [Binding.values] using h.symm
  | cons x xs ih =>
    obtain ⟨c, rest, hx, hrest, rfl⟩ := values_cons_ok.1 h
    rw [List.map_cons, ← ih hrest, hσ x c hx]

theorem All.values {Q : Symbol → Prop} {relation : Symbol} {xs values : List Symbol} (hb : b.All Q)
    (h : b.values relation xs = .ok values) : ∀ c ∈ values, Q c := by
  induction xs generalizing values with
  | nil =>
    obtain rfl : values = [] := by simpa [Binding.values] using h.symm
    simp
  | cons x xs ih =>
    obtain ⟨c, rest, hx, hrest, rfl⟩ := values_cons_ok.1 h
    exact List.forall_mem_cons.2 ⟨hb x c hx, ih hrest⟩

end Binding

/-! ## Candidates -/

theorem firstShortest_mem {known : List (Array Nat)} {rows : Array Nat}
    (h : firstShortest known = some rows) : rows ∈ known := by
  induction known generalizing rows with
  | nil => simp [firstShortest] at h
  | cons rows' rest ih =>
    rw [firstShortest] at h
    cases hrest : firstShortest rest with
    | none =>
      rw [hrest] at h
      simp [Option.some.inj h]
    | some best =>
      simp only [hrest] at h
      split_ifs at h
      · exact List.mem_cons_of_mem _ (ih (hrest.trans h))
      · simp [Option.some.inj h]

namespace Table

variable {t : Table} {template : List Slot} {b : Binding} {start stop row : Nat}

theorem candidates_range (h : row ∈ t.candidates template b start stop) : start ≤ row ∧ row < stop := by
  unfold candidates at h
  dsimp only at h
  split at h
  · simpa using (List.mem_filter.1 h).2
  · rw [List.mem_range'_1] at h
    omega

/-- No row that fits is left out. -/
theorem mem_candidates (hwf : t.WellFormed) {σ : Symbol → Symbol} (hσ : b.Agrees σ)
    (hrow : t.row? row = some (template.map (Slot.eval σ))) (hstart : start ≤ row)
    (hstop : row < stop) : row ∈ t.candidates template b start stop := by
  unfold candidates
  dsimp only
  split
  · rename_i rows hrows
    refine List.mem_filter.2 ⟨?_, by simp [hstart, hstop]⟩
    obtain ⟨⟨slot, place⟩, hslot, hvalue⟩ := List.mem_filterMap.1 (firstShortest_mem hrows)
    obtain ⟨c, hc, rfl⟩ := Option.map_eq_some_iff.1 hvalue
    have hat : template[place]? = some slot := by
      have := List.mem_zipIdx_iff_getElem?.1 hslot
      simpa using this
    refine (mem_matching_iff hwf).2 ⟨row?_lt hrow, ?_⟩
    have heval : slot.eval σ = c := by
      cases slot with
      | const d => exact Option.some.inj hc
      | var x => exact hσ x c hc
    rw [constantAt?, hrow, Option.bind_some, List.getElem?_map, hat, Option.map_some, heval]
  · rw [List.mem_range'_1]
    omega

end Table

/-! ## Joins -/

namespace Step

/-- The step with number `i` succeeds for the values `σ` of the variables.  The step with the number
`restricted` has to find its tuple in the delta. -/
def HoldsAt (tables : Array Table) (restricted : Option Nat) (σ : Symbol → Symbol) (i : Nat) :
    Step → Prop
  | scan table template => ∃ t row, tables[table]? = some t ∧
      t.row? row = some (template.map (Slot.eval σ)) ∧
      (restricted = some i → t.settled ≤ row ∧ row < t.frontier)
  | compare left right negated => (left.inst σ ≠ right.inst σ) ↔ negated = false

end Step

namespace Plan

variable {p : Plan} {tables : Array Table} {restricted : Option Nat} {found : List (List Symbol)}

/-- Finds the values of the variables that extend a binding and for which the steps, numbered from
`i` on, succeed. -/
def joinFrom (p : Plan) (tables : Array Table) (restricted : Option Nat) :
    (i : Nat) → List Step → Binding → Except CompileError (List (List Symbol))
  | _, [], b => ([·]) <$> b.values p.clause.head.relation p.vars
  | i, .compare left right negated :: steps, b =>
    match b.resolve p.clause.head.relation left with
    | .error e => .error e
    | .ok left =>
      match b.resolve p.clause.head.relation right with
      | .error e => .error e
      | .ok right =>
        if decide (left ≠ right) != negated then p.joinFrom tables restricted (i + 1) steps b
        else .ok []
  | i, .scan table template :: steps, b =>
    match tables[table]? with
    | none => .error (.inconsistentIndex p.clause.head.relation)
    | some t =>
      let start := if restricted = some i then t.settled else 0
      let stop := if restricted = some i then t.frontier else t.size
      (t.candidates template b start stop) |> collect fun row =>
        match t.row? row with
        | none => .error (.inconsistentIndex t.schema.relation)
        | some tuple =>
          if tuple.length ≠ template.length then .error (.inconsistentIndex t.schema.relation)
          else
            match b.fit template tuple with
            | some b => p.joinFrom tables restricted (i + 1) steps b
            | none => .ok []

section Descend

/-- What a search has changed when it returns: more values were found. -/
def Search.add (s : Search) (found : List (List Symbol)) : Search := { s with found := s.found ++ found.toArray }

@[simp] theorem Search.add_nil (s : Search) : s.add [] = s := by
  simp [Search.add]

@[simp] theorem Search.add_add (s : Search) (found found' : List (List Symbol)) :
    (s.add found).add found' = s.add (found ++ found') := by
  simp [Search.add]

/-- Undoing an attempt gives the binding back, also when more was found since. -/
theorem Search.undo_attempt (s : Search) (template : List Slot) (tuple : List Symbol) (found : List (List Symbol)) :
    (Search.add { s with binding := (s.binding.attempt [] template tuple).binding } found).undo
      (s.binding.attempt [] template tuple).bound = s.add found := by
  rw [Search.add, Search.undo, Search.add]
  dsimp only
  rw [Binding.foldl_unset_attempt]

/-- If each row adds what it finds and leaves the binding alone, so does the loop over the rows. -/
theorem foldSteps_eq_collect {step : Search → Nat → Except CompileError Search}
    {f : Nat → Except CompileError (List (List Symbol))} {b : Binding}
    (hstep : ∀ s row, s.binding = b → step s row = (f row).map s.add) {s : Search} (hs : s.binding = b)
    (rows : List Nat) : foldSteps step s rows = (collect f rows).map s.add := by
  induction rows generalizing s with
  | nil => simp [foldSteps, Except.map]
  | cons row rows ih =>
    rw [foldSteps, collect_cons, hstep s row hs]
    cases f row with
    | error e => rfl
    | ok found =>
      show foldSteps step (s.add found) rows = _
      rw [ih (s := s.add found) hs]
      cases collect f rows with
      | error e => rfl
      | ok found' => simp [Except.map, Functor.map]

/-- A search that returns leaves the binding as it was, and has found what a search finds that hands its binding down;
both fail alike. -/
theorem descend_eq (p : Plan) (tables : Array Table) (restricted : Option Nat) (i : Nat) (steps : List Step)
    (s : Search) :
    p.descend tables restricted i steps s = (p.joinFrom tables restricted i steps s.binding).map s.add := by
  induction steps generalizing i s with
  | nil =>
    rw [descend, joinFrom]
    cases s.binding.values p.clause.head.relation p.vars with
    | error e => rfl
    | ok values => simp [Except.map, Functor.map, Search.add]
  | cons step steps ih =>
    cases step with
    | compare left right negated =>
      rw [descend, joinFrom]
      cases s.binding.resolve p.clause.head.relation left with
      | error e => rfl
      | ok l =>
        cases s.binding.resolve p.clause.head.relation right with
        | error e => rfl
        | ok r =>
          dsimp only
          split_ifs
          · exact ih (i + 1) s
          · simp [Except.map]
    | scan table template =>
      rw [descend, joinFrom]
      cases tables[table]? with
      | none => rfl
      | some t =>
        refine foldSteps_eq_collect (fun s' row hs' => ?_) rfl _
        cases t.row? row with
        | none => rfl
        | some tuple =>
          dsimp only
          by_cases hlen : tuple.length ≠ template.length
          · rw [if_pos hlen, if_pos hlen]
            rfl
          · rw [if_neg hlen, if_neg hlen, ← hs', ← Binding.fitted?_attempt s'.binding [], Binding.Attempt.fitted?]
            cases (s'.binding.attempt [] template tuple).fits with
            | false =>
              have hundone := s'.undo_attempt template tuple []
              rw [Search.add_nil] at hundone
              exact congrArg Except.ok hundone
            | true =>
              rw [if_pos rfl, if_pos rfl, ih]
              dsimp only
              cases p.joinFrom tables restricted (i + 1) steps (s'.binding.attempt [] template tuple).binding with
              | error e => rfl
              | ok found => exact congrArg Except.ok (s'.undo_attempt template tuple found)

theorem join_eq_joinFrom (p : Plan) (tables : Array Table) (restricted : Option Nat) :
    p.join tables restricted = p.joinFrom tables restricted 0 p.steps [] := by
  rw [join, descend_eq]
  cases p.joinFrom tables restricted 0 p.steps [] with
  | error e => rfl
  | ok found => simp [Except.map, Search.add]

end Descend

/-- All steps succeed for the values `σ` of the variables. -/
def Fires (p : Plan) (tables : Array Table) (restricted : Option Nat) (σ : Symbol → Symbol) : Prop :=
  ∀ q ∈ p.steps.zipIdx, q.1.HoldsAt tables restricted σ q.2

section JoinFrom

variable {steps : List Step} {i : Nat} {b : Binding}

theorem joinFrom_nil_ok : p.joinFrom tables restricted i [] b = .ok found ↔
    ∃ vals, b.values p.clause.head.relation p.vars = .ok vals ∧ found = [vals] := by
  rw [joinFrom, map_ok]

theorem joinFrom_compare_ok {left right : Term Symbol} {negated : Bool} :
    p.joinFrom tables restricted i (.compare left right negated :: steps) b = .ok found ↔
      ∃ l r, b.resolve p.clause.head.relation left = .ok l ∧
        b.resolve p.clause.head.relation right = .ok r ∧
        if (l ≠ r ↔ negated = false) then p.joinFrom tables restricted (i + 1) steps b = .ok found
        else found = [] := by
  rw [joinFrom]
  cases b.resolve p.clause.head.relation left with
  | error e => simp
  | ok l =>
    cases b.resolve p.clause.head.relation right with
    | error e => simp
    | ok r => cases negated <;> by_cases hlr : l = r <;> simp [hlr, eq_comm]

/-- What a join finds are values for which the steps succeed, made of constants in the tables. -/
theorem joinFrom_sound {Q : Symbol → Prop}
    (hQ : ∀ t ∈ tables, ∀ tuple ∈ t.tuples.toList, ∀ c ∈ tuple, Q c) (hb : b.All Q)
    (h : p.joinFrom tables restricted i steps b = .ok found) {values : List Symbol}
    (hvalues : values ∈ found) :
    (∀ c ∈ values, Q c) ∧ ∃ σ, b.Agrees σ ∧ values = p.vars.map σ ∧
      ∀ q ∈ steps.zipIdx i, q.1.HoldsAt tables restricted σ q.2 := by
  induction steps generalizing i b found with
  | nil =>
    obtain ⟨vals, hvals, rfl⟩ := joinFrom_nil_ok.1 h
    obtain rfl := List.mem_singleton.1 hvalues
    obtain ⟨σ, hσ⟩ := b.exists_agrees
    exact ⟨hb.values hvals, σ, hσ, Binding.values_eq hvals hσ, by simp⟩
  | cons step steps ih =>
    cases step with
    | compare left right negated =>
      obtain ⟨l, r, hleft, hright, hrest⟩ := joinFrom_compare_ok.1 h
      split_ifs at hrest with hlr
      · obtain ⟨hQv, σ, hσ, hv, hsteps⟩ := ih hb hrest hvalues
        refine ⟨hQv, σ, hσ, hv, ?_⟩
        rw [List.zipIdx_cons, List.forall_mem_cons]
        rw [Binding.resolve_eq hleft hσ, Binding.resolve_eq hright hσ] at hlr
        exact ⟨hlr, hsteps⟩
      · simp [hrest] at hvalues
    | scan table template =>
      rw [joinFrom] at h
      cases ht : tables[table]? with
      | none => simp [ht] at h
      | some t =>
        simp only [ht] at h
        obtain ⟨row, hrow, vals, hvals, hmem⟩ := (mem_of_collect h).1 hvalues
        have hrange := Table.candidates_range hrow
        cases htuple : t.row? row with
        | none => simp [htuple] at hvals
        | some tuple =>
          simp only [htuple] at hvals
          split_ifs at hvals with hlen
          cases hfit : b.fit template tuple with
          | none =>
            obtain rfl : vals = [] := by simpa [hfit] using hvals.symm
            simp at hmem
          | some b' =>
            simp only [hfit] at hvals
            have htable : t ∈ tables := Array.mem_of_getElem? ht
            have hin : tuple ∈ t.tuples.toList := Table.mem_iff_row?.2 ⟨row, Table.row?_lt htuple, htuple⟩
            obtain ⟨hQv, σ, hσ, hv, hrest⟩ := ih (hb.fit (hQ t htable tuple hin) hfit) hvals hmem
            have hlen' : template.length = tuple.length := (not_not.1 hlen).symm
            obtain ⟨hbσ, heq⟩ := (Binding.agrees_of_fit hlen' hfit).1 hσ
            refine ⟨hQv, σ, hbσ, hv, ?_⟩
            rw [List.zipIdx_cons, List.forall_mem_cons]
            refine ⟨⟨t, row, ht, by rw [htuple, heq], fun hr => ?_⟩, hrest⟩
            simpa [hr] using hrange

/-- A join that returns finds all values for which the steps succeed. -/
theorem joinFrom_complete (hwf : ∀ t ∈ tables, t.WellFormed)
    (h : p.joinFrom tables restricted i steps b = .ok found) {σ : Symbol → Symbol} (hσ : b.Agrees σ)
    (hsteps : ∀ q ∈ steps.zipIdx i, q.1.HoldsAt tables restricted σ q.2) : p.vars.map σ ∈ found := by
  induction steps generalizing i b found with
  | nil =>
    obtain ⟨vals, hvals, rfl⟩ := joinFrom_nil_ok.1 h
    rw [Binding.values_eq hvals hσ]
    exact List.mem_singleton_self _
  | cons step steps ih =>
    rw [List.zipIdx_cons, List.forall_mem_cons] at hsteps
    cases step with
    | compare left right negated =>
      obtain ⟨l, r, hleft, hright, hrest⟩ := joinFrom_compare_ok.1 h
      have hlr : l ≠ r ↔ negated = false := by
        rw [Binding.resolve_eq hleft hσ, Binding.resolve_eq hright hσ]
        exact hsteps.1
      rw [if_pos hlr] at hrest
      exact ih hrest hσ hsteps.2
    | scan table template =>
      rw [joinFrom] at h
      obtain ⟨t, row, ht, hrow, hdelta⟩ := hsteps.1
      simp only [ht] at h
      have hmem : row ∈ t.candidates template b (if restricted = some i then t.settled else 0)
          (if restricted = some i then t.frontier else t.size) := by
        refine Table.mem_candidates (hwf t (Array.mem_of_getElem? ht)) hσ hrow ?_ ?_
        · split_ifs with hr
          · exact (hdelta hr).1
          · exact Nat.zero_le _
        · split_ifs with hr
          · exact (hdelta hr).2
          · exact Table.row?_lt hrow
      obtain ⟨vals, hvals⟩ := exists_ok_of_collect h hmem
      refine (mem_of_collect h).2 ⟨row, hmem, vals, hvals, ?_⟩
      obtain ⟨b', hfit⟩ := Binding.exists_fit template hσ
      simp only [hrow, List.length_map, ne_eq, not_true_eq_false, if_false, hfit] at hvals
      refine ih hvals ?_ hsteps.2
      exact (Binding.agrees_of_fit (by simp) hfit).2 ⟨hσ, rfl⟩

end JoinFrom

/-- A join finds the values of the variables for which all steps succeed. -/
theorem mem_join_iff (hwf : ∀ t ∈ tables, t.WellFormed) (h : p.join tables restricted = .ok found)
    {values : List Symbol} :
    values ∈ found ↔ ∃ σ, values = p.vars.map σ ∧ p.Fires tables restricted σ := by
  rw [join_eq_joinFrom] at h
  constructor
  · intro hvalues
    obtain ⟨-, σ, -, hv, hfires⟩ := joinFrom_sound (Q := fun _ => True)
      (fun _ _ _ _ _ _ => trivial) (fun _ _ _ => trivial) h hvalues
    exact ⟨σ, hv, hfires⟩
  · rintro ⟨σ, rfl, hfires⟩
    exact joinFrom_complete hwf h (Binding.agrees_nil σ) hfires

/-- What a join finds is made of constants in the tables. -/
theorem join_constants {Q : Symbol → Prop}
    (hQ : ∀ t ∈ tables, ∀ tuple ∈ t.tuples.toList, ∀ c ∈ tuple, Q c)
    (h : p.join tables restricted = .ok found) {values : List Symbol} (hvalues : values ∈ found) :
    ∀ c ∈ values, Q c := by
  rw [join_eq_joinFrom] at h
  exact (joinFrom_sound hQ (by intro x c hx; simp at hx) h hvalues).1

end Plan

end GameCircuit
