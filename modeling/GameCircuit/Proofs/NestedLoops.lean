import GameCircuit.Proofs.Histories
import Mathlib.Logic.Function.Basic

/-!
# Joins are nested loops

A join looks up the rows at which constants stand, and has one set of values for the variables, which it takes back
by hand.  `Plan.nestedLoops` does without both: it goes through all tuples of each table in the order in which they were
found, tests each of them slot by slot, and compares terms where the comparison stands.  Both find the same values in
the same order, or fail for the same variable (`Database.join_eq_nestedLoops`).
-/

namespace GameCircuit

/-! ## Collecting -/

section Collect

variable {α β γ ε δ : Type} {f : α → Except ε (List β)} {as : List α}

theorem collect_map (f : γ → Except ε (List β)) (h : α → γ) : collect f (as.map h) = collect (fun a => f (h a)) as := by
  induction as with
  | nil => rfl
  | cons a as ih => rw [List.map_cons, collect_cons, collect_cons, ih]

/-- Elements for which nothing is collected can be left out. -/
theorem collect_filter {keep : α → Bool} (h : ∀ a ∈ as, keep a = false → f a = .ok []) :
    collect f (as.filter keep) = collect f as := by
  induction as with
  | nil => rfl
  | cons a as ih =>
    obtain ⟨ha, has⟩ := List.forall_mem_cons.1 h
    cases hkeep : keep a with
    | true => rw [List.filter_cons_of_pos hkeep, collect_cons, collect_cons, ih has]
    | false =>
      rw [List.filter_cons_of_neg (by simp [hkeep]), collect_cons, ha hkeep, ih has]
      cases collect f as <;> rfl

theorem collect_eq_flatten (f : α → Except ε (List β)) (as : List α) : collect f as = List.flatten <$> as.mapM f := by
  induction as with
  | nil => rfl
  | cons a as ih =>
    rw [collect_cons, List.mapM_cons, ih]
    cases f a with
    | error e => rfl
    | ok bs => cases as.mapM f <;> rfl

theorem mapM_congr {f g : α → Except ε β} (h : ∀ a ∈ as, f a = g a) : as.mapM f = as.mapM g := by
  induction as with
  | nil => rfl
  | cons a as ih =>
    obtain ⟨ha, has⟩ := List.forall_mem_cons.1 h
    rw [List.mapM_cons, List.mapM_cons, ha, ih has]

theorem mapError_map (h : ε → δ) (f : α → β) (x : Except ε α) :
    (f <$> x).mapError h = f <$> x.mapError h := by
  cases x <;> rfl

theorem mapError_mapM (h : ε → δ) (f : α → Except ε β) (as : List α) :
    (as.mapM f).mapError h = as.mapM fun a => (f a).mapError h := by
  induction as with
  | nil => rfl
  | cons a as ih =>
    rw [List.mapM_cons, List.mapM_cons, ← ih]
    cases f a with
    | error e => rfl
    | ok b => cases as.mapM f <;> rfl

end Collect

/-! ## Loops -/

/-- The variables that have a value, with the value. -/
abbrev Environment := Symbol → Option Symbol

namespace Environment

/-- Tests a constant against a slot.  A variable without a value gets the constant. -/
def testSlot (env : Environment) : Slot × Symbol → Option Environment
  | (.const d, c) => if d = c then some env else none
  | (.var x, c) =>
    match env x with
    | some d => if d = c then some env else none
    | none => some (Function.update env x (some c))

/-- Tests a tuple against a template, slot by slot. -/
def test (env : Environment) (template : List Slot) (tuple : List Symbol) : Option Environment :=
  (template.zip tuple).foldlM testSlot env

/-- The value of a variable, which fails with the variable if it has none. -/
def value (env : Environment) (x : Symbol) : Except Symbol Symbol :=
  match env x with
  | some c => .ok c
  | none => .error x

/-- The term with the values of its variables.  It fails with the first that has none. -/
def term (env : Environment) : Term Symbol → Except Symbol (Term Symbol) :=
  Term.fold (fun c => .ok (.const c)) (fun x => .const <$> env.value x) fun f ts => .app f <$> ts.mapM id

end Environment

/-- The tuples that the round before the current one added. -/
def Table.delta (t : Table) : List (List Symbol) := (t.tuples.toList.take t.frontier).drop t.settled

namespace Plan

/-- Goes through all tuples of the tables, one loop in the other, from the step with number `i` on.  The loop of the step
with the number `restricted` goes through the delta only. -/
def loopFrom (p : Plan) (tables : Array Table) (restricted : Option Nat) :
    (i : Nat) → List Step → Environment → Except Symbol (List (List Symbol))
  | _, [], env => ([·]) <$> p.vars.mapM env.value
  | i, .compare left right negated :: steps, env => do
    let left ← env.term left
    let right ← env.term right
    if decide (left = right) = negated then p.loopFrom tables restricted (i + 1) steps env else .ok []
  | i, .scan table template :: steps, env =>
    let domain :=
      match tables[table]? with
      | some t => if restricted = some i then t.delta else t.tuples.toList
      | none => []
    List.flatten <$> domain.mapM fun tuple =>
      match env.test template tuple with
      | some env => p.loopFrom tables restricted (i + 1) steps env
      | none => .ok []

/-- The values of the variables for which all steps succeed, found by nested loops. -/
def nestedLoops (p : Plan) (tables : Array Table) (restricted : Option Nat) : Except Symbol (List (List Symbol)) :=
  p.loopFrom tables restricted 0 p.steps fun _ => none

end Plan

/-! ## Bindings are environments -/

namespace Binding

variable {b : Binding}

/-- The environment that a binding stands for. -/
def environment (b : Binding) : Environment := fun x => b.lookup x

theorem environment_cons (x c : Symbol) : environment ((x, c) :: b) = Function.update b.environment x (some c) := by
  funext y
  by_cases hyx : y = x
  · subst hyx
    simp [environment]
  · rw [Function.update_of_ne hyx, environment, List.lookup_cons, beq_false_of_ne hyx]
    rfl

theorem environment_fit (template : List Slot) (tuple : List Symbol) :
    (b.fit template tuple).map environment = b.environment.test template tuple := by
  induction template generalizing b tuple with
  | nil => rfl
  | cons slot template ih =>
    cases tuple with
    | nil => cases slot <;> rfl
    | cons c tuple =>
      rw [Environment.test, List.zip_cons_cons, List.foldlM_cons]
      cases slot with
      | const d =>
        rw [fit, Environment.testSlot]
        split_ifs
        · exact ih tuple
        · rfl
      | var x =>
        rw [fit, Environment.testSlot]
        cases hx : b.lookup x with
        | some d =>
          simp only [environment, hx]
          split_ifs
          · exact ih tuple
          · rfl
        | none =>
          simp only [environment, hx]
          rw [ih, environment_cons]
          rfl

theorem values_eq_mapM (relation : Symbol) (xs : List Symbol) :
    b.values relation xs = (xs.mapM b.environment.value).mapError (.unboundVariable · relation) := by
  induction xs with
  | nil => rfl
  | cons x xs ih =>
    rw [Binding.values, List.mapM_cons, Environment.value, environment, ih]
    cases b.lookup x with
    | none => rfl
    | some c => cases xs.mapM b.environment.value <;> rfl

/-- The terms with the values of their variables, all of which need one. -/
theorem mapM_resolve (relation : Symbol) (ts : List (Term Symbol)) : ts.mapM (b.resolve relation) =
    match (ts.flatMap Term.vars).find? fun x => (b.lookup x).isNone with
    | some x => .error (.unboundVariable x relation)
    | none => .ok (ts.map (Term.subst fun x =>
      match b.lookup x with
      | some c => .const c
      | none => .var x)) := by
  induction ts with
  | nil => rfl
  | cons t ts ih =>
    rw [List.mapM_cons, ih, List.flatMap_cons, List.find?_append, resolve]
    cases t.vars.find? fun x => (b.lookup x).isNone with
    | some x => rfl
    | none =>
      simp only [Option.none_or]
      cases (ts.flatMap Term.vars).find? fun x => (b.lookup x).isNone <;> rfl

theorem resolve_app (relation f : Symbol) (ts : List (Term Symbol)) :
    b.resolve relation (.app f ts) = .app f <$> ts.mapM (b.resolve relation) := by
  rw [mapM_resolve, resolve, Term.vars_app, Term.subst_app]
  cases (ts.flatMap Term.vars).find? fun x => (b.lookup x).isNone <;> rfl

theorem resolve_eq_term (relation : Symbol) (t : Term Symbol) :
    b.resolve relation t = (b.environment.term t).mapError (.unboundVariable · relation) := by
  induction t with
  | const c => rfl
  | var x =>
    have hterm : b.environment.term (.var x) = .const <$> b.environment.value x := rfl
    rw [hterm, resolve, Term.vars_var, Environment.value, environment]
    cases hx : b.lookup x with
    | none =>
      simp only [List.find?_cons, hx, Option.isNone_none]
      rfl
    | some c =>
      simp only [List.find?_cons, hx, Option.isNone_some, List.find?_nil]
      rw [Term.subst_var, hx]
      rfl
  | app f ts ih =>
    have hterm : b.environment.term (.app f ts) = .app f <$> ts.mapM b.environment.term := by
      rw [Environment.term, Term.fold_app, List.mapM_map]
      rfl
    rw [hterm, resolve_app, mapError_map, mapError_mapM]
    exact congrArg _ (mapM_congr ih)

end Binding

/-! ## Indices leave out what does not fit -/

theorem filter_range_eq_range' {start stop n : Nat} (hstart : start ≤ stop) (hstop : stop ≤ n) :
    ((List.range n).filter fun row => decide (start ≤ row) && decide (row < stop)) =
      List.range' start (stop - start) := by
  have hsplit : List.range n =
      List.range' 0 start ++ (List.range' start (stop - start) ++ List.range' stop (n - stop)) := by
    have hlast := List.range'_append_1 (s := start) (m := stop - start) (n := n - stop)
    have hfirst := List.range'_append_1 (s := 0) (m := start) (n := stop - start + (n - stop))
    rw [show start + (stop - start) = stop by omega] at hlast
    rw [show 0 + start = start by omega] at hfirst
    rw [List.range_eq_range', hlast, hfirst]
    congr 1
    omega
  have hbefore : (List.range' 0 start).filter (fun row => decide (start ≤ row) && decide (row < stop)) = [] := by
    refine List.filter_eq_nil_iff.2 fun row hrow => ?_
    rw [List.mem_range'_1] at hrow
    simp only [Bool.and_eq_true, decide_eq_true_eq]
    omega
  have hwithin : (List.range' start (stop - start)).filter (fun row => decide (start ≤ row) && decide (row < stop)) =
      List.range' start (stop - start) := by
    refine List.filter_eq_self.2 fun row hrow => ?_
    rw [List.mem_range'_1] at hrow
    simp only [Bool.and_eq_true, decide_eq_true_eq]
    omega
  have hbehind : (List.range' stop (n - stop)).filter (fun row => decide (start ≤ row) && decide (row < stop)) = [] := by
    refine List.filter_eq_nil_iff.2 fun row hrow => ?_
    rw [List.mem_range'_1] at hrow
    simp only [Bool.and_eq_true, decide_eq_true_eq]
    omega
  rw [hsplit, List.filter_append, List.filter_append, hbefore, hwithin, hbehind, List.nil_append, List.append_nil]

/-- A tuple does not fit if it has another constant at a place whose constant is known. -/
theorem Binding.fit_eq_none {b : Binding} {template : List Slot} {tuple : List Symbol} {place : Nat} {slot : Slot}
    {c : Symbol} (hlength : template.length = tuple.length) (hslot : template[place]? = some slot)
    (hvalue : slot.value? b = some c) (hother : tuple[place]? ≠ some c) : b.fit template tuple = none := by
  cases hfit : b.fit template tuple with
  | none => rfl
  | some b' =>
    obtain ⟨σ, hσ⟩ := b'.exists_agrees
    obtain ⟨hagrees, heval⟩ := (Binding.agrees_of_fit hlength hfit).1 hσ
    have hconstant : slot.eval σ = c := by
      cases slot with
      | const d => exact Option.some.inj hvalue
      | var x => exact hagrees x c hvalue
    rw [← heval, List.getElem?_map, hslot, Option.map_some, hconstant] at hother
    exact absurd rfl hother

namespace Table

variable {t : Table} {template : List Slot} {b : Binding} {start stop : Nat}

/-- The rows that are looked at are those of the range in their order, without some that do not fit. -/
theorem exists_candidates_eq (hwf : t.WellFormed) (hstart : start ≤ stop) (hstop : stop ≤ t.size)
    (hlength : template.length = t.schema.arity) : ∃ keep : Nat → Bool,
    t.candidates template b start stop = (List.range' start (stop - start)).filter keep ∧
      ∀ row tuple, t.row? row = some tuple → keep row = false → b.fit template tuple = none := by
  unfold candidates
  dsimp only
  split
  · rename_i rows hrows
    obtain ⟨⟨slot, place⟩, hslot, hvalue⟩ := List.mem_filterMap.1 (firstShortest_mem hrows)
    obtain ⟨c, hc, rfl⟩ := Option.map_eq_some_iff.1 hvalue
    have hat : template[place]? = some slot := List.mem_zipIdx_iff_getElem?.1 hslot
    refine ⟨fun row => t.constantAt? row place = some c, ?_, fun row tuple hrow hkeep => ?_⟩
    · rw [hwf.matching_eq, List.filter_filter, ← filter_range_eq_range' hstart hstop, List.filter_filter]
      exact List.filter_congr fun row _ => Bool.and_comm _ _
    · have htuple : tuple.length = t.schema.arity :=
        hwf.length_tuple tuple (mem_iff_row?.2 ⟨row, row?_lt hrow, hrow⟩)
      refine Binding.fit_eq_none (hlength.trans htuple.symm) hat hc fun heq => ?_
      have hconstant : t.constantAt? row place = some c := by rw [constantAt?, hrow, Option.bind_some, heq]
      exact of_decide_eq_false hkeep hconstant
  · exact ⟨fun _ => true, by simp, fun _ _ _ hkeep => by cases hkeep⟩

/-- The rows of a range hold the tuples of that range. -/
theorem map_row?_range' (hstart : start ≤ stop) (hstop : stop ≤ t.size) :
    (List.range' start (stop - start)).map t.row? = ((t.tuples.toList.take stop).drop start).map some := by
  rw [size_eq] at hstop
  refine List.ext_getElem? fun i => ?_
  rw [List.getElem?_map, List.getElem?_map, List.getElem?_drop, List.getElem?_take]
  by_cases hi : i < stop - start
  · have hlt : start + i < t.tuples.toList.length := by omega
    rw [List.getElem?_range' hi, Nat.one_mul, if_pos (by omega), Option.map_some, row?_eq, List.getElem?_eq_getElem hlt]
    rfl
  · rw [List.getElem?_eq_none (by rw [List.length_range']; omega), if_neg (by omega)]
    rfl

/-- The rows that are looked at give what all tuples of the range give, if those that do not fit give nothing. -/
theorem collect_candidates {ε β : Type} {f : Nat → Except ε (List β)} {g : List Symbol → Except ε (List β)}
    (hwf : t.WellFormed) (hstart : start ≤ stop) (hstop : stop ≤ t.size) (hlength : template.length = t.schema.arity)
    (hf : ∀ row tuple, t.row? row = some tuple → tuple.length = template.length → f row = g tuple)
    (hg : ∀ tuple, b.fit template tuple = none → g tuple = .ok []) :
    collect f (t.candidates template b start stop) = collect g ((t.tuples.toList.take stop).drop start) := by
  have hrow : ∀ row ∈ List.range' start (stop - start), ∃ tuple, t.row? row = some tuple ∧ f row = g tuple := by
    intro row hmem
    have hlt : row < t.tuples.toList.length := by
      rw [List.mem_range'_1] at hmem
      rw [size_eq] at hstop
      omega
    have hget : t.row? row = some t.tuples.toList[row] := by rw [row?_eq, List.getElem?_eq_getElem hlt]
    have htuple := hwf.length_tuple _ (List.getElem_mem hlt)
    exact ⟨_, hget, hf row _ hget (htuple.trans hlength.symm)⟩
  obtain ⟨keep, hcandidates, hleft⟩ := exists_candidates_eq (b := b) hwf hstart hstop hlength
  calc collect f (t.candidates template b start stop)
    _ = collect f (List.range' start (stop - start)) := by
      rw [hcandidates]
      refine collect_filter fun row hmem hkeep => ?_
      obtain ⟨tuple, hget, heq⟩ := hrow row hmem
      rw [heq, hg tuple (hleft row tuple hget hkeep)]
    _ = collect (fun row => (t.row? row).elim (.ok []) g) (List.range' start (stop - start)) := by
      refine collect_congr fun row hmem => ?_
      obtain ⟨tuple, hget, heq⟩ := hrow row hmem
      rw [heq, hget, Option.elim_some]
    _ = collect (fun tuple? => tuple?.elim (.ok []) g) (((t.tuples.toList.take stop).drop start).map some) := by
      rw [← map_row?_range' hstart hstop, collect_map]
    _ = collect g ((t.tuples.toList.take stop).drop start) := by
      rw [collect_map]
      rfl

end Table

/-! ## Joins -/

namespace Plan

variable {p : Plan} {tables : Array Table} {restricted : Option Nat}

theorem joinFrom_eq_loopFrom {steps : List Step} {i : Nat} {b : Binding}
    (hsteps : ∀ table template, .scan table template ∈ steps →
      ∃ t, tables[table]? = some t ∧ t.WellFormed ∧ template.length = t.schema.arity) :
    p.joinFrom tables restricted i steps b =
      (p.loopFrom tables restricted i steps b.environment).mapError (.unboundVariable · p.clause.head.relation) := by
  induction steps generalizing i b with
  | nil => rw [joinFrom, loopFrom, Binding.values_eq_mapM, mapError_map]
  | cons step steps ih =>
    have hrest := fun {i b} => ih (i := i) (b := b) fun table template hmem =>
      hsteps table template (List.mem_cons_of_mem _ hmem)
    cases step with
    | compare left right negated =>
      rw [joinFrom, loopFrom, Binding.resolve_eq_term, Binding.resolve_eq_term]
      cases b.environment.term left with
      | error x => rfl
      | ok l =>
        cases b.environment.term right with
        | error x => rfl
        | ok r =>
          show (if decide (l ≠ r) != negated then _ else _) =
            Except.mapError _ (if decide (l = r) = negated then _ else _)
          by_cases hlr : l = r <;> cases negated <;> simp [hlr, hrest, Except.mapError]
    | scan table template =>
      obtain ⟨t, ht, hwf, hlength⟩ := hsteps table template List.mem_cons_self
      rw [joinFrom, loopFrom]
      simp only [ht]
      rw [mapError_map, mapError_mapM, ← collect_eq_flatten]
      have hdomain : (if restricted = some i then t.delta else t.tuples.toList) =
          (t.tuples.toList.take (if restricted = some i then t.frontier else t.size)).drop
            (if restricted = some i then t.settled else 0) := by
        split_ifs
        · rfl
        · rw [Table.size_eq, List.take_length, List.drop_zero]
      rw [hdomain]
      refine Table.collect_candidates hwf ?_ ?_ hlength ?_ ?_
      · split_ifs
        · exact hwf.settled_le
        · exact Nat.zero_le _
      · split_ifs
        · exact hwf.frontier_le
        · exact Nat.le_refl _
      · intro row tuple hrow htuple
        simp only [hrow, htuple, ne_eq, not_true_eq_false, if_false]
        rw [← Binding.environment_fit]
        cases b.fit template tuple with
        | none => rfl
        | some b' => exact hrest
      · intro tuple hfit
        rw [← Binding.environment_fit, hfit]
        rfl

end Plan

namespace Database

variable {db : Database} {p : Plan} {k : Nat}

/-- A step that scans a table stands for an atom of the rule, with the schema of the table. -/
theorem WellFormed.exists_atom_of_scan (hwf : db.WellFormed) (hp : db.plans[k]? = some p) {table : Nat}
    {template : List Slot} (hscan : .scan table template ∈ p.steps) :
    ∃ a t, .atom a ∈ p.clause.body ∧ db.tables[table]? = some t ∧ t.schema = a.schema ∧ template = a.slots := by
  rw [(hwf.plans hp).steps] at hscan
  obtain ⟨φ, hφ, hstep⟩ := List.mem_filterMap.1 hscan
  obtain ⟨a, rfl, -, hposition, hslots⟩ := Formula.step?_eq_scan hstep
  obtain ⟨t, ht, hschema⟩ := hwf.position?_iff.1 hposition
  exact ⟨a, t, hφ, ht, hschema, hslots⟩

/-- A step that scans a table has a table, and a template of its length with variables of the rule. -/
theorem WellFormed.exists_table_of_scan (hwf : db.WellFormed) (hp : db.plans[k]? = some p) {table : Nat}
    {template : List Slot} (hscan : .scan table template ∈ p.steps) : ∃ t, db.tables[table]? = some t ∧
      t.WellFormed ∧ template.length = t.schema.arity ∧ ∀ x, .var x ∈ template → x ∈ p.vars := by
  obtain ⟨a, t, ha, ht, hschema, rfl⟩ := hwf.exists_atom_of_scan hp hscan
  refine ⟨t, ht, hwf.tables ht, by rw [hschema, Atom.length_slots], fun x hx => ?_⟩
  refine (hwf.plans hp).mem_vars_iff.2 (.inr ⟨_, ha, ?_⟩)
  simpa [Formula.vars] using Atom.var_mem_slots_iff.1 hx

/-- In a database whose parts belong together, a join is a search by nested loops. -/
theorem WellFormed.join_eq (hwf : db.WellFormed) (hp : db.plans[k]? = some p) (restricted : Option Nat) :
    p.join db.tables restricted =
      (p.nestedLoops db.tables restricted).mapError (.unboundVariable · p.clause.head.relation) := by
  rw [Plan.join_eq_joinFrom]
  refine Plan.joinFrom_eq_loopFrom fun table template hmem => ?_
  obtain ⟨t, ht, htwf, hlength, -⟩ := hwf.exists_table_of_scan hp hmem
  exact ⟨t, ht, htwf, hlength⟩

/-- Whatever was asked of a database before, also if it failed, and however far it has come with firing its rules: a
join for any rule, restricted at any step or at none, gives the values that nested loops over all tuples find, in the
same order, or fails for the same variable without a value. -/
theorem join_eq_nestedLoops {limit : Option Nat} {ops : List Operation} (hmoves : Moves (after limit ops) db)
    (hp : db.plans[k]? = some p) (restricted : Option Nat) :
    p.join db.tables restricted =
      (p.nestedLoops db.tables restricted).mapError (.unboundVariable · p.clause.head.relation) := by
  have hintact := hmoves.intact (intact_after limit ops)
  exact hintact.sound.wellFormed.join_eq hp restricted

/-- Links, among them one from the market to itself, and a rule for those that go both ways between two places; then a
formula that cannot be loaded, so that what follows it is not; and after a run two more links, of which one goes back,
and a fact that holds a variable. -/
def twoWays : List Operation :=
  let x : Term Symbol := .var ⟨14⟩
  let y : Term Symbol := .var ⟨15⟩
  let z : Term Symbol := .var ⟨16⟩
  let bothWays (s t : Term Symbol) : Atom Symbol := ⟨⟨18⟩, [s, t]⟩
  let visited (t : Term Symbol) : Atom Symbol := ⟨⟨19⟩, [t]⟩
  let harbour : Term Symbol := .const ⟨21⟩
  let market : Term Symbol := .const ⟨22⟩
  let tower : Term Symbol := .const ⟨23⟩
  let bridge : Term Symbol := .const ⟨24⟩
  [.load [link harbour market, link market harbour, link market market, link tower harbour,
      .rule (bothWays x y) [.atom ⟨Keyword.distinct, [x, y]⟩, link x y, link y x],
      .neg (link harbour harbour), link bridge bridge],
    .saturate, .load [link harbour tower, link bridge market, .atom (visited z)]]

/-- In the round that follows, the rule is restricted to the new links at its last step; the fact fails. -/
theorem join_eq_nestedLoops_twoWays : ∃ p q,
    (after none twoWays).advance.plans[0]? = some p ∧ (after none twoWays).advance.plans[1]? = some q ∧
      p.join (after none twoWays).advance.tables (some 2) = .ok [[⟨23⟩, ⟨21⟩]] ∧
      q.join (after none twoWays).advance.tables none = .error (.unboundVariable ⟨16⟩ ⟨19⟩) := by
  have hmoves : Moves (after none twoWays) (after none twoWays).advance := .single .advance
  have hfinds : ((after none twoWays).advance.plans[0]?.map fun p =>
      (p.nestedLoops (after none twoWays).advance.tables (some 2)).toOption) = some (some [[⟨23⟩, ⟨21⟩]]) := by
    decide +kernel
  have hfails : ((after none twoWays).advance.plans[1]?.map fun q =>
      (failure? (q.nestedLoops (after none twoWays).advance.tables none), q.clause.head.relation)) =
        some (some ⟨16⟩, ⟨19⟩) := by
    decide +kernel
  obtain ⟨p, hp, hfound⟩ := Option.map_eq_some_iff.1 hfinds
  obtain ⟨q, hq, hfailed⟩ := Option.map_eq_some_iff.1 hfails
  obtain ⟨herror, hrelation⟩ := Prod.mk.inj hfailed
  refine ⟨p, q, hp, hq, ?_, ?_⟩
  · rw [join_eq_nestedLoops hmoves hp, eq_ok_of_toOption hfound]
    rfl
  · rw [join_eq_nestedLoops hmoves hq, failure?_eq_some_iff.1 herror, hrelation]
    rfl

end Database

end GameCircuit
