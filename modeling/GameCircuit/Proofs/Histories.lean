import GameCircuit.Grounding.Emission
import GameCircuit.Proofs.FiniteUniverse

/-!
# Histories

A database is asked to load formulas, to fire its rules, to do both, and for the ground description, any number of
times and in any order, and some of these operations fail.  `Database.after` is what such a history leaves.  An
operation that fails stops halfway, in the middle of a list of formulas or of a round, but leaves a database whose
parts belong together as those of any other do (`Database.intact_after`).

`Database.after_induction` is how such facts are proved: what one formula that is loaded keeps, and one move of
saturation, every history keeps.
-/

namespace GameCircuit

/-- What a database can be asked for. -/
inductive Operation where
  /-- Load the formulas. -/
  | load (φs : List (Formula Symbol))
  /-- Fire the rules until nothing new is found. -/
  | saturate
  /-- Load the formulas, fire the rules and return the ground description. -/
  | ground (φs : List (Formula Symbol))
  /-- Return the ground description. -/
  | emit

/-- The error of a computation that failed. -/
def failure? {ε α : Type} : Except ε α → Option ε
  | .ok _ => none
  | .error e => some e

theorem failure?_eq_some_iff {ε α : Type} {x : Except ε α} {e : ε} : failure? x = some e ↔ x = .error e := by
  cases x <;> simp [failure?]

/-- The numbers of the rules that the table knows are below `n`. -/
def Table.RulesBelow (n : Nat) (t : Table) : Prop :=
  (∀ k ∈ t.producers.toList, k < n) ∧ ∀ k ∈ t.consumers.toList, k < n

theorem Table.RulesBelow.mono {m n : Nat} {t : Table} (h : t.RulesBelow m) (hmn : m ≤ n) : t.RulesBelow n :=
  ⟨fun k hk => Nat.lt_of_lt_of_le (h.1 k hk) hmn, fun k hk => Nat.lt_of_lt_of_le (h.2 k hk) hmn⟩

theorem Table.forall_mem_push_lt {n : Nat} {rules : Array Nat} (h : ∀ k ∈ rules.toList, k < n + 1) :
    ∀ k ∈ (rules.push n).toList, k < n + 1 := by
  intro k hk
  rw [Array.toList_push] at hk
  rcases List.mem_append.1 hk with hold | hnew
  · exact h k hold
  · rw [List.mem_singleton.1 hnew]
    exact Nat.lt_succ_self n

namespace Database

/-- Does the operation: the database that it leaves, and why it failed, if it did. -/
def perform (db : Database) : Operation → Database × Option CompileError
  | .load φs => db.load φs
  | .saturate => db.saturate
  | .ground φs => ((db.ground φs).1, failure? (db.ground φs).2)
  | .emit => (db, failure? db.emit)

/-- The database that the operations leave, done one after the other, whether they fail or not. -/
def after (limit : Option Nat) (ops : List Operation) : Database :=
  ops.foldl (fun db op => (db.perform op).1) (empty limit)

variable {db db' : Database} {n : Nat}

/-! ## The numbers of rules -/

/-- The numbers of the rules that the tables know are below `n`. -/
def RulesBelow (n : Nat) (db : Database) : Prop :=
  ∀ (i : Nat) (t : Table), db.tables[i]? = some t → t.RulesBelow n

namespace RulesBelow

theorem mono {m : Nat} (h : db.RulesBelow m) (hmn : m ≤ n) : db.RulesBelow n :=
  fun i t ht => (h i t ht).mono hmn

theorem modifyTable {i : Nat} {f : Table → Table} (h : db.RulesBelow n)
    (hf : ∀ t : Table, t.RulesBelow n → (f t).RulesBelow n) : (db.modifyTable i f).RulesBelow n := by
  intro j t' ht'
  obtain ⟨t, ht, rfl | ⟨-, rfl⟩⟩ := getElem?_modifyTable_eq_some ht'
  · exact h j t' ht
  · exact hf t (h j t ht)

theorem tableFor (h : db.RulesBelow n) (a : Atom Symbol) : (db.tableFor a).2.RulesBelow n := by
  unfold Database.tableFor
  split
  · exact h
  · intro i t ht
    rw [Array.getElem?_push] at ht
    split_ifs at ht
    · obtain rfl := Option.some.inj ht
      exact ⟨by simp [Table.empty], by simp [Table.empty]⟩
    · exact h i t ht

theorem stepsFor (h : db.RulesBelow n) (φs : List (Formula Symbol)) : (db.stepsFor φs).2.RulesBelow n :=
  stepsFor_induction (fun _ a h => h.tableFor a) h φs

theorem addRule (hwf : db.WellFormed) (h : db.RulesBelow db.plans.size) (c : Clause Symbol) :
    (db.addRule c).RulesBelow (db.addRule c).plans.size := by
  obtain ⟨hopens1, -, -⟩ := opens_stepsFor hwf c.body
  obtain ⟨hopens2, -⟩ := opens_tableFor hopens1.wellFormed c.head
  have hnumber : ((db.stepsFor c.body).2.tableFor c.head).2.plans.size = db.plans.size := by
    rw [hopens2.plans, hopens1.plans]
  have hsize : (db.addRule c).plans.size = db.plans.size + 1 := by
    obtain ⟨p, db', -, -, hopens, hadd, -⟩ := addRule_spec hwf c
    rw [hadd, Array.size_push, hopens.plans]
  have hopen := ((h.stepsFor c.body).tableFor c.head).mono (Nat.le_succ db.plans.size)
  have hconsumers : ∀ {db' : Database} (sources : List Nat), db'.RulesBelow (db.plans.size + 1) →
      (sources.foldl (fun db' table => db'.modifyTable table fun t =>
        { t with consumers := t.consumers.push db.plans.size }) db').RulesBelow (db.plans.size + 1) := by
    intro db' sources h'
    induction sources generalizing db' with
    | nil => exact h'
    | cons i sources ih => exact ih (h'.modifyTable fun t ht => ⟨ht.1, Table.forall_mem_push_lt ht.2⟩)
  rw [hsize, Database.addRule]
  simp only [hnumber]
  exact hconsumers _ (hopen.modifyTable fun t ht => ⟨Table.forall_mem_push_lt ht.1, ht.2⟩)

end RulesBelow

/-! ## What every operation keeps -/

/-- The parts of the database belong together, and the tables know rules that are there. -/
structure Intact (db : Database) : Prop where
  sound : db.Sound
  rules : db.RulesBelow db.plans.size

theorem Grows.size_plans (h : Grows db db') : db'.plans.size = db.plans.size := by
  have hlength := congrArg List.length h.clauses
  rwa [List.length_map, List.length_map, Array.length_toList, Array.length_toList] at hlength

theorem Move.intact (h : Move db db') (hdb : db.Intact) : db'.Intact := by
  refine ⟨h.sound hdb.sound, ?_⟩
  cases h with
  | firing h =>
    have hgrows := Firings.grows (.single h)
    rw [hgrows.size_plans]
    intro i t' ht'
    obtain ⟨t, ht, htt'⟩ := exists_of_rel_some_right (ht' ▸ hgrows.tables i)
    rw [Table.RulesBelow, htt'.producers, htt'.consumers]
    exact hdb.rules i t ht
  | advance =>
    intro i t' ht'
    rw [getElem?_advance] at ht'
    obtain ⟨t, ht, rfl⟩ := Option.map_eq_some_iff.1 ht'
    exact hdb.rules i t ht
  | count => exact hdb.rules

theorem Moves.intact (h : Moves db db') (hdb : db.Intact) : db'.Intact := by
  induction h with
  | refl => exact hdb
  | tail _ hmove ih => exact hmove.intact ih

namespace Intact

/-- The list of facts has no part in it. -/
theorem withFacts (h : db.Intact) (facts : OrderedSet (Atom Symbol)) : Intact { db with facts := facts } :=
  ⟨⟨⟨h.sound.wellFormed.schemas, h.sound.wellFormed.tables, h.sound.wellFormed.plans, h.sound.wellFormed.consumers⟩,
    h.sound.found⟩, h.rules⟩

theorem tableFor (h : db.Intact) (a : Atom Symbol) : (db.tableFor a).2.Intact := by
  have hopens := (opens_tableFor h.sound.wellFormed a).1
  refine ⟨(Loads.of_opens h.sound.wellFormed hopens).sound h.sound, ?_⟩
  rw [hopens.plans]
  exact h.rules.tableFor a

/-- A tuple is added, whether the table may hold it or not. -/
theorem insert (h : db.Intact) {a : Atom Symbol} {i : Nat} (ha : a.isGround = true)
    (hi : db.schemas.position? a.schema = some i) : (db.insert i a.constants).1.Intact := by
  have hsound := (Loads.insertFact h.sound.wellFormed ha hi).sound h.sound
  have hrules : (db.modifyTable i (·.insert a.constants)).RulesBelow db.plans.size :=
    h.rules.modifyTable fun t ht => by
      have hgrows := Table.grows_insert t a.constants
      rw [Table.RulesBelow, hgrows.producers, hgrows.consumers]
      exact ht
  exact Intact.withFacts ⟨hsound, hrules⟩ db.facts

theorem addRule (h : db.Intact) (c : Clause Symbol) : (db.addRule c).Intact :=
  ⟨(adds_foldl_addRule h.sound.wellFormed [c]).sound h.sound, h.rules.addRule h.sound.wellFormed c⟩

theorem loadFormula (h : db.Intact) (φ : Formula Symbol) : (db.loadFormula φ).1.Intact := by
  rcases loadFormula_fst_cases db φ with ⟨a, facts, rfl, ha, heq⟩ | heq
  · rw [heq]
    exact ((h.tableFor a).insert ha (opens_tableFor h.sound.wellFormed a).2).withFacts facts
  · rw [heq]
    exact List.foldlRecOn _ _ h fun _ hdb c _ => hdb.addRule c

theorem load (h : db.Intact) (φs : List (Formula Symbol)) : (db.load φs).1.Intact :=
  runAll_induction (fun _ φ _ hdb => hdb.loadFormula φ) h

end Intact

theorem intact_empty (limit : Option Nat) : (empty limit).Intact :=
  ⟨(exhausted_empty limit).sound, fun i t ht => by simp [empty] at ht⟩

/-! ## Induction on histories -/

/-- Loading formulas and firing the rules leaves what loading leaves, or what firing leaves after it. -/
theorem ground_fst_eq_or (db : Database) (φs : List (Formula Symbol)) :
    (db.ground φs).1 = (db.load φs).1 ∨ (db.ground φs).1 = (db.load φs).1.saturate.1 := by
  rw [ground]
  rcases hloaded : db.load φs with ⟨db1, _ | e⟩
  · rcases hsaturated : db1.saturate with ⟨db2, _ | e⟩
    · exact .inr (by simp only [hsaturated])
    · exact .inr (by simp only [hsaturated])
  · exact .inl rfl

/-- What loading a formula keeps and every move keeps is so after every history. -/
theorem after_induction {P : Database → Prop} {limit : Option Nat} {ops : List Operation}
    (hsound : ∀ {db : Database}, P db → db.Sound) (hempty : P (empty limit))
    (hload : ∀ {db : Database} (φ : Formula Symbol), P db → P (db.loadFormula φ).1)
    (hmove : ∀ {db db' : Database}, Move db db' → P db → P db') : P (after limit ops) := by
  have hloads : ∀ {db : Database} (φs : List (Formula Symbol)), P db → P (db.load φs).1 :=
    fun φs h => runAll_induction (fun _ φ _ hdb => hload φ hdb) h
  have hruns : ∀ {db : Database}, P db → P db.saturate.1 := by
    intro db h
    have hmoves := (hsound h).moves_saturate
    generalize db.saturate.1 = db' at hmoves ⊢
    induction hmoves with
    | refl => exact h
    | tail _ hstep ih => exact hmove hstep ih
  have hperform : ∀ {db : Database} (op : Operation), P db → P (db.perform op).1 := by
    intro db op h
    cases op with
    | load φs => exact hloads φs h
    | saturate => exact hruns h
    | ground φs =>
      show P (db.ground φs).1
      rcases ground_fst_eq_or db φs with heq | heq
      · rw [heq]
        exact hloads φs h
      · rw [heq]
        exact hruns (hloads φs h)
    | emit => exact h
  exact List.foldlRecOn ops _ hempty fun _ hdb op _ => hperform op hdb

/-- Every history leaves a database whose parts belong together. -/
theorem intact_after (limit : Option Nat) (ops : List Operation) : (after limit ops).Intact :=
  after_induction (fun h => h.sound) (intact_empty limit) (fun φ h => h.loadFormula φ) fun hmove h => hmove.intact h

end Database

end GameCircuit
