import GameCircuit.Game
import GameCircuit.Proofs.GroundProgram
import GameCircuit.Proofs.Interpretation
import GameCircuit.Proofs.NormalForms

/-!
# Play refines the rules

A game that compiles is played as its rules say.  Among the atoms that the database knows, the normal form
of the rules and the ground description have the same interpretations; the ground description has just
one, which is what the values of the circuit mean; and what a machine answers is read off its values.
-/

namespace GameCircuit

/-! ## Atoms that the database knows -/

namespace Database

/-- The atom is ground, and in a table. -/
def Knows (db : Database) (a : Atom Symbol) : Prop := a.isGround = true ∧ db.Holds a

variable {db : Database} {a : Atom Symbol}

theorem knows_canonical : db.Knows a.canonical ↔ db.Knows a := by
  rw [Knows, Knows, Atom.isGround_canonical, holds_canonical]

/-- A legal move may be made. -/
theorem knows_does_iff {args : List (Term Symbol)} :
    db.Knows ⟨Keyword.does, args⟩ ↔ db.Knows ⟨Keyword.legal, args⟩ :=
  knows_canonical (a := ⟨Keyword.legal, args⟩)

/-- What is concluded about the next state or the start may hold in a state. -/
theorem Knows.holds {x : Term Symbol} (h : db.Knows ⟨Keyword.next, [x]⟩ ∨ db.Knows ⟨Keyword.init, [x]⟩) :
    db.Knows ⟨Keyword.holds, [x]⟩ := by
  rcases h with hnext | hinit
  · exact knows_canonical.2 hnext
  · exact knows_canonical.2 hinit

/-- What the ground description concludes is known. -/
theorem Saturated.knows_head {φs G : List (Formula Symbol)} {ψ : Formula Symbol} (h : Saturated φs db)
    (hemit : db.emit = .ok G) (hψ : ψ ∈ G) (hhead : ψ.head? = some a) : db.Knows a := by
  rcases (h.mem_emit_iff hemit).1 hψ with ⟨b, hb, hground, rfl⟩ |
    ⟨head, body, choice, σ, hrule, hchoice, hmay, rfl⟩
  · obtain rfl := Option.some.inj hhead
    exact ⟨hground, h.holds_fact b hb hground⟩
  · have hinst : (Clause.inst σ ⟨head, schedule choice⟩).head? = some (head.inst σ) := by
      rw [Clause.inst]
      split_ifs <;> rfl
    obtain rfl := Option.some.inj (hinst.symm.trans hhead)
    exact ⟨Atom.isGround_inst, h.holds_rule hrule hchoice hmay⟩

end Database

/-- `I` is what the formulas say is true, with atoms that the database knows. -/
def Circuit.InterpretsWithin (c : Circuit) (db : Database) (φs : List (Formula Symbol))
    (holding made : List Nat) (I : Set (Atom Symbol)) : Prop :=
  (∀ a ∈ I, db.Knows a) ∧ c.Interprets φs holding made I

theorem Circuit.interpretsWithin_congr {c : Circuit} {db : Database} {φs : List (Formula Symbol)}
    {holding made made' : List Nat} {I : Set (Atom Symbol)} (hmade : ∀ id, id ∈ made ↔ id ∈ made') :
    c.InterpretsWithin db φs holding made I ↔ c.InterpretsWithin db φs holding made' I :=
  and_congr_right fun _ => ⟨fun h => h.congr rfl hmade, fun h => h.congr rfl fun id => (hmade id).symm⟩

namespace Assembly

variable {A F : Assembly} {N G : List (Formula Symbol)} {db : Database} {l : Lexicon} {roles : List Symbol}
  {holding made : List Nat} {a : Atom Symbol} {w : Nat → Prop}

/-! ## The interpretation of the rules -/

section Interpretation

variable (h : Built G A F) (hsat : db.Saturated N) (hemit : db.emit = .ok G)
  (hstate : holding ⊆ (F.toCircuit l roles).base)
  (hmade : ∀ {args id}, F.Named ⟨Keyword.does, args⟩ id → id ∈ made → db.Knows ⟨Keyword.does, args⟩)

include h hsat hemit hstate hmade

/-- What is true in a state is known, if the moves are. -/
theorem Built.knows_of_mem_meaning (he : F.Evaluates ⟨holding, made, false⟩ w) (ha : a ∈ F.meaning w) :
    db.Knows a := by
  obtain ⟨id, hid, hw⟩ := ha
  by_cases hholds : a.relation = Keyword.holds
  · obtain ⟨args, t, hs, ht⟩ := h.mem_base_iff.1 (hstate ((he.state_iff hid hholds).1 hw))
    obtain rfl := h.named_inj hid hs
    have hs' := h.named_old hs (by decide : Keyword.holds ≠ Keyword.does)
    obtain ⟨x, rfl, φ, hφ, hhead⟩ := h.realizes.exists_head hs' ((h.feeds_state_iff hs').1 ht)
    exact .holds (hhead.imp (hsat.knows_head hemit hφ) (hsat.knows_head hemit hφ))
  by_cases hdoes : a.relation = Keyword.does
  · obtain ⟨relation, args⟩ := a
    obtain rfl : relation = Keyword.does := hdoes
    exact hmade hid ((he.move_iff hid rfl).1 hw)
  have hne : a ≠ ⟨Keyword.start, []⟩ := by
    rintro rfl
    exact he.start_not_mem_meaning rfl ⟨id, hid, hw⟩
  have hinit : a.relation ≠ Keyword.init := fun hinit => h.not_mem_meaning_of_init he hinit ⟨id, hid, hw⟩
  obtain ⟨φ, hφ, hhead, -⟩ :=
    concludes_iff.1 ((h.mem_meaning_iff_concludes he rfl hholds hdoes hne hinit).1 ⟨id, hid, hw⟩)
  exact hsat.knows_head hemit hφ hhead

/-- The rules have one interpretation with known atoms, and that is what the values mean. -/
theorem Built.interpretsWithin_iff {order : List Nat} (horder : (F.toCircuit l roles).IsOrder order)
    {v : Nat → Bool} {I : Set (Atom Symbol)}
    (hv : (F.toCircuit l roles).Solves ((F.toCircuit l roles).settle ⟨holding, made, false⟩) v) :
    (F.toCircuit l roles).InterpretsWithin db N holding made I ↔ I = F.meaning fun i => v i = true := by
  have hground := hsat.isGround_of_mem_emit hemit
  have he := (h.solves_iff hstate).1 hv
  constructor
  · rintro ⟨hknown, hI⟩
    have heq := hsat.consequences_eq hemit fun a ha => (hknown a ha).2
    exact h.eq_meaning_of_interprets hground (hI.congr heq fun _ => Iff.rfl) horder hstate hv
  · rintro rfl
    have hknown : ∀ a ∈ F.meaning fun i => v i = true, db.Knows a := fun a ha =>
      h.knows_of_mem_meaning hsat hemit hstate hmade he ha
    have heq := hsat.consequences_eq hemit fun a ha => (hknown a ha).2
    exact ⟨hknown, (h.interprets hground he).congr heq.symm fun _ => Iff.rfl⟩

end Interpretation

/-! ## What a machine answers -/

section Answers

variable {m : Machine} {s : GameState} (h : Built G A F) (hm : m.circuit = F.toCircuit l roles)

include h hm

theorem Built.mem_legalMoves_iff {role : Symbol} : (∃ id ∈ m.legalMoves s role, F.Named a id) ↔
    (a ∈ F.meaning fun i => (m.idleValues s).get i = true) ∧ a.relation = Keyword.legal ∧
      a.role? = some role := by
  simp only [Machine.legalMoves, hm, List.mem_filter, h.mem_legalOf_iff]
  constructor
  · rintro ⟨id, ⟨⟨a', ha', hlegal⟩, hvalue⟩, ha⟩
    obtain rfl := h.named_inj ha' ha
    exact ⟨⟨id, ha, hvalue⟩, hlegal⟩
  · rintro ⟨⟨id, ha, hvalue⟩, hlegal⟩
    exact ⟨id, ⟨⟨a, ha, hlegal⟩, hvalue⟩, ha⟩

theorem Built.exists_named_of_mem_legalMoves {role : Symbol} {id : Nat} (hid : id ∈ m.legalMoves s role) :
    ∃ a, F.Named a id := by
  rw [Machine.legalMoves, hm, List.mem_filter, h.mem_legalOf_iff] at hid
  obtain ⟨⟨a, ha, -⟩, -⟩ := hid
  exact ⟨a, ha⟩

theorem Built.isTerminal_iff : m.isTerminal s = true ↔
    ⟨Keyword.terminal, []⟩ ∈ F.meaning fun i => (m.idleValues s).get i = true := by
  have hterminal : m.circuit.terminal = F.names.get? ⟨Keyword.terminal, []⟩ := by
    rw [hm]
    exact h.lastNamed_eq (by decide)
  rw [Machine.isTerminal, hterminal]
  cases hid : F.names.get? ⟨Keyword.terminal, []⟩ with
  | none => simp [meaning, Named, hid]
  | some id => simp [meaning, Named, hid]

end Answers

end Assembly

namespace Machine

variable {m : Machine} {s next : GameState} {moves : List Nat}

theorem inputFor_eq_ok {v : Valuation} {role : Symbol} {input : Nat}
    (h : m.inputFor v moves role = .ok input) :
    ∃ move, moves.filter ((m.circuit.legalOf role).contains ·) = [move] ∧ v.get move = true ∧
      m.circuit.inputOf? move = some input := by
  unfold inputFor at h
  split at h
  · cases h
  · rename_i move hmove
    split_ifs at h with hvalue
    split at h
    · rename_i input' hinput
      obtain rfl := Except.ok.inj h
      exact ⟨move, hmove, hvalue, hinput⟩
    · cases h
  · cases h

/-- Moves are accepted only if each may be made, and the next state is the one in which they are. -/
theorem exists_inputs_of_nextState (h : m.nextState s moves = .ok next) :
    ∃ inputs, next = m.advance (m.values ⟨s.holding, inputs, false⟩) ∧
      (∀ id, id ∈ inputs ↔ id ∈ moves.filterMap m.circuit.inputOf?) ∧
      ∀ move ∈ moves, (m.idleValues s).get move = true := by
  unfold nextState at h
  split at h
  · cases h
  · rename_i hstray
    simp only at h
    split at h
    · cases h
    · rename_i inputs hinputs
      obtain rfl := Except.ok.inj h
      -- every move is the only one of some player
      have hmoves : ∀ move ∈ moves, ∃ role ∈ m.circuit.roles, ∃ input,
          m.inputFor (m.idleValues s) moves role = .ok input ∧ (m.idleValues s).get move = true ∧
            m.circuit.inputOf? move = some input := by
        intro move hmove
        have hisMove : m.isMove move = true := by simpa using List.find?_eq_none.1 hstray move hmove
        obtain ⟨role, hrole, hlegal⟩ := List.any_eq_true.1 hisMove
        obtain ⟨cs, hcs⟩ := exists_ok_of_collect hinputs hrole
        obtain ⟨input, hinput, -⟩ := map_ok.1 hcs
        obtain ⟨move', hfilter, hvalue, hpair⟩ := inputFor_eq_ok hinput
        have hmem : move ∈ moves.filter ((m.circuit.legalOf role).contains ·) :=
          List.mem_filter.2 ⟨hmove, hlegal⟩
        rw [hfilter, List.mem_singleton] at hmem
        exact ⟨role, hrole, input, hinput, hmem ▸ hvalue, hmem ▸ hpair⟩
      refine ⟨inputs, rfl, fun id => ?_, fun move hmove => ?_⟩
      · rw [mem_of_collect hinputs, List.mem_filterMap]
        constructor
        · rintro ⟨role, -, cs, hcs, hid⟩
          obtain ⟨input, hinput, rfl⟩ := map_ok.1 hcs
          obtain rfl := List.mem_singleton.1 hid
          obtain ⟨move, hfilter, -, hpair⟩ := inputFor_eq_ok hinput
          exact ⟨move, (List.mem_filter.1 (hfilter ▸ List.mem_singleton_self move)).1, hpair⟩
        · rintro ⟨move, hmove, hpair⟩
          obtain ⟨role, hrole, input, hinput, -, hpair'⟩ := hmoves move hmove
          obtain rfl := Option.some.inj (hpair.symm.trans hpair')
          exact ⟨role, hrole, [id], map_ok.2 ⟨id, hinput, rfl⟩, List.mem_singleton_self id⟩
      · obtain ⟨role, -, input, -, hvalue, -⟩ := hmoves move hmove
        exact hvalue

end Machine

theorem Atom.role?_eq_some_iff {a : Atom Symbol} {role : Symbol} :
    a.role? = some role ↔ a.args.head? = some (.const role) := by
  obtain ⟨relation, args⟩ := a
  match args with
  | [] | .var _ :: _ | .app _ _ :: _ | .const _ :: _ => simp [role?]

/-! ## Games -/

namespace Game

/-- A circuit is compiled from the ground description of a normal form. -/
theorem exists_built_of_compile {settings : Settings} {g : Game} {l l' : Lexicon} {c : Circuit}
    (hcompile : g.compile settings l = (.ok c, l')) :
    ∃ N G A F, normalize settings g.rules l = (.ok N, l') ∧
      ((Database.empty settings.maxDomain).ground N).2 = .ok G ∧ Assembly.Built G A F ∧
      c = F.toCircuit l' g.roles := by
  unfold compile at hcompile
  split at hcompile
  · cases hcompile
  · rename_i N l1 hN
    split at hcompile
    · cases hcompile
    · rename_i G hG
      obtain ⟨hbuild, rfl⟩ := Prod.mk.inj hcompile
      obtain ⟨A, F, hbuilt, rfl⟩ := Circuit.exists_built hbuild
      exact ⟨N, G, A, F, hN, hG, hbuilt, rfl⟩

/-- A game that compiles without a bound on its tables is played as its rules say.  In every state, and with
all moves that are accepted there, the normal form of the rules has one interpretation with known atoms.
It tells which moves are legal, whether the game is over, and what the next state is. -/
theorem play_refines_rules {settings : Settings} {g : Game} {l l' : Lexicon} {c : Circuit} {m : Machine}
    (hsettings : settings.maxDomain = none) (hcompile : g.compile settings l = (.ok c, l'))
    (hm : Machine.ofCircuit c = .ok m) :
    ∃ N, normalize settings g.rules l = (.ok N, l') ∧ ∀ holding, holding ⊆ c.base →
      let db := ((Database.empty none).ground N).1
      (∃! I, c.InterpretsWithin db N holding [] I) ∧
      (∀ I, c.InterpretsWithin db N holding [] I →
        (∀ role,
          (∀ a, (∃ id ∈ m.legalMoves ⟨holding⟩ role, c.proposition? a = some id) ↔
            a ∈ I ∧ a.relation = Keyword.legal ∧ a.args.head? = some (.const role)) ∧
          ∀ id ∈ m.legalMoves ⟨holding⟩ role, ∃ a, c.proposition? a = some id) ∧
        (m.isTerminal ⟨holding⟩ = true ↔ ⟨Keyword.terminal, []⟩ ∈ I)) ∧
      ∀ moves next, m.nextState ⟨holding⟩ moves = .ok next →
        (∃! I, c.InterpretsWithin db N holding (moves.filterMap c.inputOf?) I) ∧
        ∀ I, c.InterpretsWithin db N holding (moves.filterMap c.inputOf?) I →
          (∀ x, (∃ id ∈ next.holding, c.proposition? ⟨Keyword.holds, [x]⟩ = some id) ↔
            ⟨Keyword.next, [x]⟩ ∈ I) ∧
          ∀ id ∈ next.holding, ∃ x, c.proposition? ⟨Keyword.holds, [x]⟩ = some id := by
  obtain ⟨N, G, A, F, hN, hG, h, rfl⟩ := exists_built_of_compile hcompile
  refine ⟨N, hN, fun holding hstate => ?_⟩
  intro db
  rw [hsettings] at hG
  obtain ⟨hsat, hemit⟩ : db.Saturated N ∧ db.emit = .ok G :=
    Database.ground_eq_ok (isSupported_of_normalize hN) (eq_pair_of_snd hG)
  obtain ⟨hcircuit, horder⟩ := Machine.isOrder h.wired hm
  have hsolves := Machine.solves_values h.wired hm
  have hidle : ∀ {I}, (F.toCircuit l' g.roles).InterpretsWithin db N holding [] I ↔
      I = F.meaning fun i => (m.idleValues ⟨holding⟩).get i = true :=
    h.interpretsWithin_iff hsat hemit hstate (fun _ hid => absurd hid List.not_mem_nil) horder (hsolves _)
  simp only [Assembly.proposition?_toCircuit]
  refine ⟨⟨_, hidle.2 rfl, fun J hJ => hidle.1 hJ⟩, fun I hI => ?_, fun moves next hnext => ?_⟩
  · obtain rfl := hidle.1 hI
    simp only [← Atom.role?_eq_some_iff]
    exact ⟨fun role => ⟨fun a => h.mem_legalMoves_iff hcircuit,
      fun id hid => h.exists_named_of_mem_legalMoves hcircuit hid⟩, h.isTerminal_iff hcircuit⟩
  · obtain ⟨inputs, rfl, hinputs, hlegal⟩ := Machine.exists_inputs_of_nextState hnext
    rw [hcircuit] at hinputs
    -- a move that is made is known, as it may be made
    have hmade : ∀ {args id}, F.Named ⟨Keyword.does, args⟩ id → id ∈ inputs →
        db.Knows ⟨Keyword.does, args⟩ := by
      intro args id ha hid
      obtain ⟨move, hmove, hpair⟩ := List.mem_filterMap.1 ((hinputs id).1 hid)
      obtain ⟨args', hmove', ha'⟩ := h.exists_args_of_inputOf? hpair
      obtain rfl := (Atom.mk.inj (h.named_inj ha ha')).2
      rw [Database.knows_does_iff]
      exact (hidle.2 rfl).1 _ ⟨move, hmove', hlegal move hmove⟩
    have hiff : ∀ {I}, (F.toCircuit l' g.roles).InterpretsWithin db N holding
        (moves.filterMap (F.toCircuit l' g.roles).inputOf?) I ↔
        I = F.meaning fun i => (m.values ⟨holding, inputs, false⟩).get i = true := by
      intro I
      rw [← Circuit.interpretsWithin_congr hinputs]
      exact h.interpretsWithin_iff hsat hemit hstate hmade horder (hsolves _)
    refine ⟨⟨_, hiff.2 rfl, fun J hJ => hiff.1 hJ⟩, fun I hI => ?_⟩
    obtain rfl := hiff.1 hI
    exact ⟨fun x => h.advance_iff_next hcircuit ((h.solves_iff hstate).1 (hsolves _)) rfl,
      fun id hid => h.exists_named_of_mem_advance hcircuit hid⟩

/-- The lamps 16 and 17, of which the first is lit at the start.  Player 14 switches one lamp in each move.
It is dark, 19, while some lamp is not lit, and the game is over when it is not dark. -/
def lights : Game :=
  let player := .const ⟨14⟩
  let x := .var ⟨18⟩
  let lamp (t : Term Symbol) : Formula Symbol := .atom ⟨⟨15⟩, [t]⟩
  let first := .const ⟨16⟩
  let second := .const ⟨17⟩
  let dark : Atom Symbol := ⟨⟨19⟩, []⟩
  let lit : Formula Symbol := .atom ⟨Keyword.holds, [x]⟩
  let switched : Formula Symbol := .atom ⟨Keyword.does, [player, x]⟩
  .ofRules
    [.atom ⟨Keyword.role, [player]⟩, lamp first, lamp second, .atom ⟨Keyword.init, [first]⟩,
      .rule ⟨Keyword.legal, [player, x]⟩ [lamp x],
      .rule ⟨Keyword.next, [x]⟩ [lit, .neg switched], .rule ⟨Keyword.next, [x]⟩ [switched, .neg lit],
      .rule dark [lamp x, .neg lit], .rule ⟨Keyword.terminal, []⟩ [.neg (.atom dark)]]

/-- In the first state of the lamps the game is not over, and switching the second lamp lights it. -/
theorem play_refines_rules_lights :
    ∃ c l' m N next, Settings.standard.maxDomain = none ∧
      lights.compile .standard Lexicon.initial = (.ok c, l') ∧ Machine.ofCircuit c = .ok m ∧
      normalize .standard lights.rules Lexicon.initial = (.ok N, l') ∧ [11] ⊆ c.base ∧
      m.nextState ⟨[11]⟩ [9] = .ok next ∧
      (∃ I, c.InterpretsWithin ((Database.empty none).ground N).1 N [11] [] I ∧
        ⟨Keyword.terminal, []⟩ ∉ I) ∧
      ∃ I, c.InterpretsWithin ((Database.empty none).ground N).1 N [11] ([9].filterMap c.inputOf?) I ∧
        ⟨Keyword.next, [.const ⟨17⟩]⟩ ∈ I := by
  have hrun : (match lights.compile .standard Lexicon.initial with
      | (.ok c, _) =>
        match Machine.ofCircuit c with
        | .ok m =>
          match m.nextState ⟨[11]⟩ [9] with
          | .ok next => decide ([11] ⊆ c.base ∧ m.isTerminal ⟨[11]⟩ = false ∧ 18 ∈ next.holding ∧
              c.proposition? ⟨Keyword.holds, [.const ⟨17⟩]⟩ = some 18)
          | .error _ => false
        | .error _ => false
      | (.error _, _) => false) = true := by decide +kernel
  split at hrun
  · rename_i c l' hcompile
    split at hrun
    · rename_i m hm
      split at hrun
      · rename_i next hnext
        obtain ⟨hbase, hterminal, hlit, hname⟩ := of_decide_eq_true hrun
        obtain ⟨N, hN, hplay⟩ := play_refines_rules rfl hcompile hm
        obtain ⟨⟨I, hI, -⟩, hidle, hmoves⟩ := hplay [11] hbase
        obtain ⟨⟨J, hJ, -⟩, hadvance⟩ := hmoves [9] next hnext
        refine ⟨c, l', m, N, next, rfl, hcompile, hm, hN, hbase, hnext, ⟨I, hI, ?_⟩, J, hJ, ?_⟩
        · rw [← (hidle I hI).2, hterminal]
          exact Bool.false_ne_true
        · exact ((hadvance J hJ).1 _).1 ⟨18, hlit, hname⟩
      · cases hrun
    · cases hrun
  · cases hrun

end Game

end GameCircuit
