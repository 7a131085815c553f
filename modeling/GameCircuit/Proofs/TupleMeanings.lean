import GameCircuit.Proofs.GroundProgram
import GameCircuit.Proofs.NestedLoops

/-!
# What tuples stand for

A table keeps a ground atom as the tuple of its constants; relation and functions are left to the schema of the table.
Nothing is lost by it.  Every tuple of the right length stands for an atom (`Schema.exists_denotes`), and for no other
than those that have the same arguments and a relation that shares its tuples (`Schema.Denotes.denotes_iff`).

So it is for every tuple that comes to stand in a table, and rules read and write tuples as what they stand for: a
template that is filled with values is the tuple of the atom under these values (`Database.Faithful`).
-/

namespace GameCircuit

/-! ## Relations that share their tuples -/

namespace Symbol

/-- The relations share their tuples.  A move that is made is one that is legal, and what holds at the start
or next holds in a state. -/
def SharesTuples (r s : Symbol) : Prop :=
  r = s ∨ (r ∈ [Keyword.legal, Keyword.does] ∧ s ∈ [Keyword.legal, Keyword.does]) ∨
    (r ∈ [Keyword.next, Keyword.init, Keyword.holds] ∧ s ∈ [Keyword.next, Keyword.init, Keyword.holds])

variable {r s : Symbol}

theorem canonical_eq_does_iff : r.canonical = Keyword.does ↔ r ∈ [Keyword.legal, Keyword.does] := by
  unfold canonical
  split_ifs with hlegal hstate
  · simp [hlegal]
  · simp only [Bool.or_eq_true, decide_eq_true_eq] at hstate
    rcases hstate with rfl | rfl <;> decide
  · simp [hlegal]

theorem canonical_eq_holds_iff : r.canonical = Keyword.holds ↔ r ∈ [Keyword.next, Keyword.init, Keyword.holds] := by
  unfold canonical
  split_ifs with hlegal hstate
  · subst hlegal
    decide
  · simp only [Bool.or_eq_true, decide_eq_true_eq] at hstate
    rcases hstate with rfl | rfl <;> decide
  · simp only [Bool.or_eq_true, decide_eq_true_eq, not_or] at hstate
    simp [hstate]

/-- A relation that shares its tuples with no other names them itself. -/
theorem canonical_eq_self (hdoes : r.canonical ≠ Keyword.does) (hholds : r.canonical ≠ Keyword.holds) :
    r.canonical = r := by
  unfold canonical at hdoes hholds ⊢
  split_ifs at hdoes hholds ⊢ with hlegal hstate
  · exact absurd rfl hdoes
  · exact absurd rfl hholds
  · rfl

theorem canonical_eq_canonical_iff : r.canonical = s.canonical ↔ r.SharesTuples s := by
  constructor
  · intro h
    by_cases hdoes : r.canonical = Keyword.does
    · exact .inr (.inl ⟨canonical_eq_does_iff.1 hdoes, canonical_eq_does_iff.1 (h ▸ hdoes)⟩)
    · by_cases hholds : r.canonical = Keyword.holds
      · exact .inr (.inr ⟨canonical_eq_holds_iff.1 hholds, canonical_eq_holds_iff.1 (h ▸ hholds)⟩)
      · have hs : s.canonical = s := canonical_eq_self (h ▸ hdoes) (h ▸ hholds)
        rw [canonical_eq_self hdoes hholds, hs] at h
        exact .inl h
  · rintro (rfl | ⟨hr, hs⟩ | ⟨hr, hs⟩)
    · rfl
    · rw [canonical_eq_does_iff.2 hr, canonical_eq_does_iff.2 hs]
    · rw [canonical_eq_holds_iff.2 hr, canonical_eq_holds_iff.2 hs]

end Symbol

/-! ## Atoms and their tuples -/

namespace Shape

/-- Constants for all places of some shapes make terms, if they do for each of the shapes. -/
theorem exists_args_of_length {ss : List Shape}
    (hss : ∀ s ∈ ss, ∀ tuple : List Symbol, tuple.length = s.arity →
      ∃ t : Term Symbol, t.shape = s ∧ t.slots = tuple.map .const)
    (tuple : List Symbol) (h : tuple.length = arityAll ss) :
    ∃ ts : List (Term Symbol), ts.map Term.shape = ss ∧ ts.flatMap Term.slots = tuple.map .const := by
  induction ss generalizing tuple with
  | nil =>
    obtain rfl : tuple = [] := List.length_eq_zero_iff.1 h
    exact ⟨[], rfl, rfl⟩
  | cons s ss ih =>
    -- the first term takes the constants up to its arity, and the others what is left
    rw [arityAll] at h
    obtain ⟨hs, hrest⟩ := List.forall_mem_cons.1 hss
    obtain ⟨t, hshape, hslots⟩ := hs (tuple.take s.arity) (by rw [List.length_take]; omega)
    obtain ⟨ts, hshapes, hslots'⟩ := ih hrest (tuple.drop s.arity) (by rw [List.length_drop]; omega)
    refine ⟨t :: ts, by rw [List.map_cons, hshape, hshapes], ?_⟩
    rw [List.flatMap_cons, hslots, hslots', ← List.map_append, List.take_append_drop]

/-- Constants for all places of a shape make a term. -/
theorem exists_term_of_length (s : Shape) : ∀ tuple : List Symbol, tuple.length = s.arity →
    ∃ t : Term Symbol, t.shape = s ∧ t.slots = tuple.map .const := by
  induction s with
  | filler =>
    intro tuple h
    obtain ⟨c, rfl⟩ := List.length_eq_one_iff.1 h
    exact ⟨.const c, rfl, rfl⟩
  | app f args ih =>
    intro tuple h
    obtain ⟨ts, hshapes, hslots⟩ := exists_args_of_length ih tuple h
    exact ⟨.app f ts, by rw [Term.shape_app, hshapes], by rw [Term.slots_app, hslots]⟩

end Shape

namespace Atom

variable {a b : Atom Symbol}

/-- Ground atoms are flattened to the same just if they have the same arguments and share their tuples. -/
theorem flattened_eq_iff (ha : a.isGround = true) (hb : b.isGround = true) :
    a.schema = b.schema ∧ a.constants = b.constants ↔
      a.args = b.args ∧ a.relation.canonical = b.relation.canonical := by
  rw [← canonical_eq_iff ha hb, canonical, canonical, mk.injEq, and_comm]

/-- To flatten an atom under a substitution by constants is to fill its slots. -/
theorem flattened_subst {s : Symbol → Term Symbol} {σ : Symbol → Symbol} (h : ∀ x ∈ a.vars, s x = .const (σ x)) :
    (a.subst s).schema = a.schema ∧ (a.subst s).constants = a.slots.map (Slot.eval σ) := by
  have hinst : a.subst s = a.inst σ := subst_congr h
  rw [hinst]
  exact ⟨schema_inst, constants_inst⟩

end Atom

namespace Schema

/-- The tuple, in a table with the schema, stands for the atom. -/
def Denotes (schema : Schema) (tuple : List Symbol) (a : Atom Symbol) : Prop :=
  a.isGround = true ∧ a.schema = schema ∧ a.constants = tuple

instance (schema : Schema) (tuple : List Symbol) (a : Atom Symbol) : Decidable (schema.Denotes tuple a) :=
  inferInstanceAs (Decidable (_ ∧ _ ∧ _))

variable {schema : Schema} {tuple : List Symbol} {a b : Atom Symbol}

/-- A tuple that has the length of a schema stands for an atom. -/
theorem exists_denotes (hrelation : schema.relation.canonical = schema.relation)
    (hlength : tuple.length = schema.arity) : ∃ a, schema.Denotes tuple a := by
  obtain ⟨ts, hshapes, hslots⟩ :=
    Shape.exists_args_of_length (fun s _ => Shape.exists_term_of_length s) tuple hlength
  have hschema : (⟨schema.relation, ts⟩ : Atom Symbol).schema = schema := by
    rw [Atom.schema, hshapes, hrelation]
  have hconstants : (⟨schema.relation, ts⟩ : Atom Symbol).constants = tuple := by
    rw [Atom.constants, Atom.slots, hslots, List.filterMap_map]
    exact List.filterMap_some
  refine ⟨⟨schema.relation, ts⟩, Atom.isGround_of_length_constants ?_, hschema, hconstants⟩
  rw [hconstants, hschema, hlength]

/-- What a tuple stands for is determined up to the relations that share their tuples. -/
theorem Denotes.denotes_iff (ha : schema.Denotes tuple a) :
    schema.Denotes tuple b ↔ b.args = a.args ∧ b.relation.SharesTuples a.relation := by
  obtain ⟨haground, rfl, rfl⟩ := ha
  rw [← Symbol.canonical_eq_canonical_iff]
  constructor
  · rintro ⟨hbground, hflattened⟩
    exact (Atom.flattened_eq_iff hbground haground).1 hflattened
  · rintro ⟨hargs, hrelation⟩
    have hbground : b.isGround = true := by
      rw [Atom.isGround, Atom.vars, hargs]
      exact haground
    exact ⟨hbground, (Atom.flattened_eq_iff hbground haground).2 ⟨hargs, hrelation⟩⟩

theorem denotes_inst (a : Atom Symbol) (σ : Symbol → Symbol) :
    a.schema.Denotes (a.slots.map (Slot.eval σ)) (a.inst σ) :=
  ⟨Atom.isGround_inst, Atom.schema_inst, Atom.constants_inst⟩

end Schema

theorem Clause.head?_inst (c : Clause Symbol) (σ : Symbol → Symbol) : (c.inst σ).head? = some (c.head.inst σ) := by
  rw [inst]
  split_ifs <;> rfl

namespace Database

variable {db db' : Database}

/-! ## Tables are named canonically -/

/-- The relation of each table is the one by which those that share its tuples are named. -/
def NamedCanonically (db : Database) : Prop :=
  ∀ schema ∈ db.schemas.toList, schema.relation.canonical = schema.relation

namespace NamedCanonically

theorem tableFor (h : db.NamedCanonically) (a : Atom Symbol) : (db.tableFor a).2.NamedCanonically := by
  intro schema hschema
  rw [schemas_tableFor] at hschema
  rcases OrderedSet.mem_toList_insert.1 hschema with hold | rfl
  · exact h schema hold
  · exact Symbol.canonical_canonical a.relation

theorem stepsFor (h : db.NamedCanonically) (φs : List (Formula Symbol)) : (db.stepsFor φs).2.NamedCanonically :=
  stepsFor_induction (fun _ a h => h.tableFor a) h φs

theorem addRule (h : db.NamedCanonically) (c : Clause Symbol) : (db.addRule c).NamedCanonically := by
  -- the rule is entered into tables that are there already, so that no schema is added
  have hconsumers : ∀ {db' : Database} (sources : List Nat) (f : Table → Table),
      (sources.foldl (fun db' table => db'.modifyTable table f) db').schemas = db'.schemas := by
    intro db' sources f
    induction sources generalizing db' with
    | nil => rfl
    | cons i sources ih => exact ih
  have hopen := (h.stepsFor c.body).tableFor c.head
  rw [NamedCanonically, Database.addRule]
  simp only [hconsumers]
  exact hopen

theorem loadFormula (h : db.NamedCanonically) (φ : Formula Symbol) : (db.loadFormula φ).1.NamedCanonically := by
  rcases loadFormula_fst_cases db φ with ⟨a, facts, rfl, -, heq⟩ | heq
  · rw [heq]
    exact h.tableFor a
  · rw [heq]
    exact List.foldlRecOn _ _ h fun _ hdb c _ => hdb.addRule c

theorem move (h : db.NamedCanonically) (hmove : Move db db') : db'.NamedCanonically := by
  cases hmove with
  | firing hfiring =>
    rw [NamedCanonically, (Firings.grows (.single hfiring)).schemas]
    exact h
  | advance => exact h
  | count => exact h

end NamedCanonically

/-- Whatever was asked of a database before, its tables are named canonically. -/
theorem namedCanonically_after (limit : Option Nat) (ops : List Operation) : (after limit ops).NamedCanonically := by
  refine (after_induction (P := fun db => db.Intact ∧ db.NamedCanonically) (fun h => h.1.sound)
    ⟨intact_empty limit, fun schema hschema => ?_⟩ (fun φ h => ⟨h.1.loadFormula φ, h.2.loadFormula φ⟩)
    fun hmove h => ⟨hmove.intact h.1, h.2.move hmove⟩).2
  simp [empty] at hschema

/-! ## Entries and templates -/

/-- The tuples in the tables stand for atoms, and the rules take them for these. -/
structure Faithful (db : Database) : Prop where
  /-- A tuple stands for an atom, and else just for what shares its tuple with it. -/
  entries : ∀ (i : Nat) (t : Table), db.tables[i]? = some t → ∀ tuple ∈ t.tuples.toList,
    ∃ a : Atom Symbol, ∀ b, t.schema.Denotes tuple b ↔ b.args = a.args ∧ b.relation.SharesTuples a.relation
  /-- The template of a scan, filled with values, is what stands for an atom of the body under these values. -/
  scans : ∀ (k : Nat) (p : Plan), db.plans[k]? = some p → ∀ i template, .scan i template ∈ p.steps →
    ∃ t a, db.tables[i]? = some t ∧ .atom a ∈ p.clause.body ∧
      ∀ σ, t.schema.Denotes (template.map (Slot.eval σ)) (a.inst σ)
  /-- What a rule produces for values is what stands for the head of its instance for these values. -/
  productions : ∀ (k : Nat) (p : Plan), db.plans[k]? = some p → ∃ t, db.tables[p.target]? = some t ∧
    ∀ σ, ∃ a, (p.instantiate (p.vars.map σ)).head? = some a ∧ t.schema.Denotes (p.produce (p.vars.map σ)) a

theorem WellFormed.exists_denotes (hwf : db.WellFormed) (hnamed : db.NamedCanonically) {i : Nat} {t : Table}
    (ht : db.tables[i]? = some t) {tuple : List Symbol} (htuple : tuple ∈ t.tuples.toList) :
    ∃ a, t.schema.Denotes tuple a := by
  have hmem : t.schema ∈ db.schemas.toList := by
    rw [← hwf.schemas]
    exact List.mem_map_of_mem (Array.mem_toList_iff.2 (Array.mem_of_getElem? ht))
  exact Schema.exists_denotes (hnamed t.schema hmem) ((hwf.tables ht).length_tuple tuple htuple)

theorem WellFormed.faithful (hwf : db.WellFormed) (hnamed : db.NamedCanonically) : db.Faithful where
  entries i t ht tuple htuple := by
    obtain ⟨a, ha⟩ := hwf.exists_denotes hnamed ht htuple
    exact ⟨a, fun b => ha.denotes_iff⟩
  scans k p hp i template hscan := by
    obtain ⟨a, t, ha, ht, hschema, rfl⟩ := hwf.exists_atom_of_scan hp hscan
    exact ⟨t, a, ht, ha, fun σ => hschema ▸ Schema.denotes_inst a σ⟩
  productions k p hp := by
    have hfits := hwf.plans hp
    obtain ⟨t, ht, hschema⟩ := hwf.position?_iff.1 hfits.target
    refine ⟨t, ht, fun σ => ⟨p.clause.head.inst σ, ?_, ?_⟩⟩
    · rw [hfits.instantiate_eq, Clause.head?_inst]
    · rw [hschema, hfits.produce_eq, Atom.constants_inst]
      exact Schema.denotes_inst p.clause.head σ

/-- An atom has as many slots as its schema has places.  Ground atoms are flattened to the same just if they have the
same arguments and relations of one canonical name.  An atom under a substitution by constants has the schema of the
atom, and its slots filled.  So, whatever was asked of a database before, what its tuples stand for is determined up to
the relations that share their tuples, and its rules read and write tuples as what they stand for. -/
theorem flattening_faithful :
    (∀ a : Atom Symbol, a.schema.arity = a.slots.length) ∧
    (∀ a b : Atom Symbol, a.isGround = true → b.isGround = true →
      (a.schema = b.schema ∧ a.constants = b.constants ↔
        a.args = b.args ∧ a.relation.canonical = b.relation.canonical)) ∧
    (∀ (a : Atom Symbol) (s : Symbol → Term Symbol) (σ : Symbol → Symbol), (∀ x ∈ a.vars, s x = .const (σ x)) →
      (a.subst s).schema = a.schema ∧ (a.subst s).constants = a.slots.map (Slot.eval σ)) ∧
    ∀ (limit : Option Nat) (ops : List Operation), (after limit ops).Faithful := by
  refine ⟨fun a => a.length_slots.symm, fun a b => Atom.flattened_eq_iff, fun a s σ => Atom.flattened_subst,
    fun limit ops => ?_⟩
  exact (intact_after limit ops).sound.wellFormed.faithful (namedCanonically_after limit ops)

/-- The player's move to mark a cell with a cross, which is a function without arguments. -/
def marking (relation : Symbol) (cell : Term Symbol) : Atom Symbol :=
  let mark (s t : Term Symbol) : Term Symbol := .app ⟨15⟩ [s, t]
  let cross : Term Symbol := .app ⟨16⟩ []
  let player : Term Symbol := .const ⟨20⟩
  ⟨relation, [player, mark cell cross]⟩

/-- The cells 21 and 22, each of which may be marked, and then holds as marked. -/
def marks : List Operation :=
  let x : Term Symbol := .var ⟨14⟩
  let cell (t : Term Symbol) : Formula Symbol := .atom ⟨⟨17⟩, [t]⟩
  let marked (t : Term Symbol) : Term Symbol := .app ⟨18⟩ [t]
  [.load [cell (.const ⟨21⟩), cell (.const ⟨22⟩), .rule (marking Keyword.legal x) [cell x],
      .rule ⟨Keyword.next, [marked x]⟩ [.atom (marking Keyword.does x)]],
    .saturate]

/-- To mark the cell 22 is legal and is done by one tuple, which stands for this move only. -/
theorem flattening_faithful_marks :
    (marking Keyword.legal (.const ⟨22⟩)).schema = (marking Keyword.does (.const ⟨22⟩)).schema ∧
      ((marking Keyword.legal (.var ⟨14⟩)).subst fun _ => .const ⟨22⟩).constants = [⟨20⟩, ⟨22⟩] ∧
      ∃ t, (after none marks).tables[1]? = some t ∧ [⟨20⟩, ⟨22⟩] ∈ t.tuples.toList ∧
        t.schema.Denotes [⟨20⟩, ⟨22⟩] (marking Keyword.legal (.const ⟨22⟩)) ∧
        ∀ b, t.schema.Denotes [⟨20⟩, ⟨22⟩] b → b.args = (marking Keyword.does (.const ⟨22⟩)).args := by
  obtain ⟨-, hflattened, hsubst, hfaithful⟩ := flattening_faithful
  have htable : ((after none marks).tables[1]?.map fun t => decide ([⟨20⟩, ⟨22⟩] ∈ t.tuples.toList ∧
      t.schema.Denotes [⟨20⟩, ⟨22⟩] (marking Keyword.legal (.const ⟨22⟩)))) = some true := by
    decide +kernel
  obtain ⟨t, ht, hdenotes⟩ := Option.map_eq_some_iff.1 htable
  obtain ⟨htuple, hlegal⟩ := of_decide_eq_true hdenotes
  obtain ⟨a, ha⟩ := (hfaithful none marks).entries 1 t ht _ htuple
  refine ⟨((hflattened _ _ (by decide) (by decide)).2 ⟨rfl, by decide⟩).1, ?_, t, ht, htuple, hlegal, fun b hb => ?_⟩
  · exact (hsubst _ _ (fun _ => ⟨22⟩) fun _ _ => rfl).2
  · exact ((ha b).1 hb).1.trans ((ha _).1 hlegal).1.symm

end Database

end GameCircuit
