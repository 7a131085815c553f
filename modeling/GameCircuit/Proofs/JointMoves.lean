import GameCircuit.Proofs.CoherentCircuits
import GameCircuit.Proofs.Refinement

/-!
# Joint moves

A machine accepts a list of moves just if it holds, in whatever order, one legal move of each player
(`Machine.nextState_accepts_iff_joint`).  The argument is about lists: the moves of different players are different, so
that a list of moves falls into those of each player, and these are single moves just if the list picks one of each.
-/

namespace GameCircuit

/-! ## One of each -/

section OneOfEach

variable {α β : Type} {p : β → α → Bool} {R : β → α → Prop} {rs : List β} {xs : List α}

/-- A list falls into the parts that belong to different things, if each element belongs to one. -/
theorem perm_flatMap_filter (hrs : rs.Nodup) (hone : ∀ r r' x, p r x = true → p r' x = true → r = r')
    (hall : ∀ x ∈ xs, ∃ r ∈ rs, p r x = true) : xs.Perm (rs.flatMap fun r => xs.filter (p r)) := by
  induction rs generalizing xs with
  | nil =>
    have hnil : xs = [] := List.eq_nil_iff_forall_not_mem.2 fun x hx => by simpa using hall x hx
    rw [hnil]
    exact .nil
  | cons r rs ih =>
    obtain ⟨hr, hrs⟩ := List.nodup_cons.1 hrs
    have hothers : ∀ x ∈ xs.filter (fun x => !p r x), ∃ r' ∈ rs, p r' x = true := by
      intro x hx
      obtain ⟨hx, hnot⟩ := List.mem_filter.1 hx
      obtain ⟨r', hr', hp⟩ := hall x hx
      rcases List.mem_cons.1 hr' with rfl | hr'
      · simp [hp] at hnot
      · exact ⟨r', hr', hp⟩
    -- what belongs to another thing is among the others
    have hparts : (rs.flatMap fun r' => (xs.filter fun x => !p r x).filter (p r')) =
        rs.flatMap fun r' => xs.filter (p r') := by
      refine List.flatMap_congr fun r' hr' => ?_
      rw [List.filter_filter]
      refine List.filter_congr fun x _ => ?_
      cases hp : p r' x with
      | false => rfl
      | true =>
        cases hpr : p r x with
        | false => rfl
        | true => exact absurd (hone r' r x hp hpr ▸ hr') hr
    rw [List.flatMap_cons, ← hparts]
    exact (List.filter_append_perm (p r) xs).symm.trans ((ih hrs hothers).append_left _)

theorem exists_rel_of_mem (h : List.Forall₂ R rs xs) {x : α} (hx : x ∈ xs) : ∃ r ∈ rs, R r x := by
  induction h with
  | nil => cases hx
  | cons hR _ ih =>
    rcases List.mem_cons.1 hx with rfl | hx
    · exact ⟨_, List.mem_cons_self, hR⟩
    · obtain ⟨r, hr, hR⟩ := ih hx
      exact ⟨r, List.mem_cons_of_mem _ hr, hR⟩

/-- In a list with one element for each thing, just this one belongs to it. -/
theorem exists_filter_eq_singleton (hrs : rs.Nodup)
    (hone : ∀ r r' x, p r x = true → p r' x = true → r = r') (hR : ∀ r x, R r x → p r x = true)
    (h : List.Forall₂ R rs xs) {r : β} (hr : r ∈ rs) : ∃ x, xs.filter (p r) = [x] ∧ R r x := by
  induction h with
  | nil => cases hr
  | @cons r' x rs xs hx hxs ih =>
    obtain ⟨hr', hrs⟩ := List.nodup_cons.1 hrs
    rcases List.mem_cons.1 hr with rfl | hmem
    · have hothers : xs.filter (p r) = [] := by
        refine List.filter_eq_nil_iff.2 fun y hy hp => ?_
        obtain ⟨r'', hr'', hRy⟩ := exists_rel_of_mem hxs hy
        exact hr' (hone r r'' y hp (hR r'' y hRy) ▸ hr'')
      exact ⟨x, by rw [List.filter_cons_of_pos (hR r x hx), hothers], hx⟩
    · have hnot : ¬ p r x = true := fun hp => hr' (hone r' r x (hR r' x hx) hp ▸ hmem)
      rw [List.filter_cons_of_neg hnot]
      exact ih hrs hmem

theorem forall₂_flatMap_of_singleton {f : β → List α} (h : ∀ r ∈ rs, ∃ x, f r = [x] ∧ R r x) :
    List.Forall₂ R rs (rs.flatMap f) := by
  induction rs with
  | nil => exact .nil
  | cons r rs ih =>
    obtain ⟨⟨x, hx, hR⟩, hrs⟩ := List.forall_mem_cons.1 h
    rw [List.flatMap_cons, hx, List.singleton_append]
    exact .cons hR (ih hrs)

end OneOfEach

namespace Circuit

variable {c : Circuit} {role : Symbol} {id : Nat}

theorem mem_legalOf : id ∈ c.legalOf role ↔ (role, id) ∈ c.legal := by simp [legalOf]

/-- In a circuit as it was built, every legal move goes with a move. -/
theorem inputOf?_ne_none_of_build {l : Lexicon} {roles : List Symbol} {φs : List (Formula Symbol)}
    (h : Circuit.build l roles φs = .ok c) (hid : id ∈ c.legalOf role) : c.inputOf? id ≠ none := by
  obtain ⟨origins, A, F, hexplained, rfl⟩ := exists_explained_of_build h
  have hwell : (F.toCircuit l roles).WellFormed (origins.map Prod.fst) := hexplained.wellFormed
  exact Option.isSome_iff_ne_none.1 ((hwell.paired id).2 ⟨role, mem_legalOf.1 hid⟩)

end Circuit

namespace Machine

variable {m : Machine} {s next : GameState} {moves moves' : List Nat} {role : Symbol} {v : Valuation}

/-! ## What is accepted -/

theorem inputFor_eq_ok_iff {input : Nat} : m.inputFor v moves role = .ok input ↔
    ∃ move, moves.filter ((m.circuit.legalOf role).contains ·) = [move] ∧ v.get move = true ∧
      m.circuit.inputOf? move = some input := by
  refine ⟨inputFor_eq_ok, ?_⟩
  rintro ⟨move, hmove, hvalue, hinput⟩
  simp only [inputFor, hmove, hvalue, hinput, if_true]

/-- A player makes a move just if a single one of the moves is the player's, and this one is legal and goes with a
move. -/
theorem exists_inputFor_iff : (∃ input, m.inputFor (m.idleValues s) moves role = .ok input) ↔
    ∃ move, moves.filter ((m.circuit.legalOf role).contains ·) = [move] ∧ move ∈ m.legalMoves s role ∧
      m.circuit.inputOf? move ≠ none := by
  simp only [inputFor_eq_ok_iff]
  rw [exists_comm]
  refine exists_congr fun move => ?_
  rw [exists_and_left]
  refine and_congr_right fun hmove => ?_
  -- the only move is one of the player's, so that its value says whether it is legal
  have hmem : move ∈ m.circuit.legalOf role := by
    have hfilter : move ∈ moves.filter ((m.circuit.legalOf role).contains ·) := hmove ▸ List.mem_singleton_self move
    simpa using (List.mem_filter.1 hfilter).2
  rw [exists_and_left, legalMoves, List.mem_filter, and_iff_right hmem, Option.ne_none_iff_exists']

theorem nextState_eq_ok_iff : m.nextState s moves = .ok next ↔
    (∀ move ∈ moves, m.isMove move = true) ∧
      ∃ inputs, collect (fun role => ([·]) <$> m.inputFor (m.idleValues s) moves role) m.circuit.roles = .ok inputs ∧
        next = m.advance (m.values ⟨s.holding, inputs, false⟩) := by
  unfold nextState
  cases hstray : moves.find? (!m.isMove ·) with
  | some stray =>
    refine iff_of_false (by simp) fun h => ?_
    have hmove := h.1 stray (List.mem_of_find?_eq_some hstray)
    have hnot := List.find?_some hstray
    simp [hmove] at hnot
  | none =>
    have hmoves : ∀ move ∈ moves, m.isMove move = true := fun move hmove => by
      simpa using List.find?_eq_none.1 hstray move hmove
    rw [and_iff_right hmoves]
    simp only
    cases collect (fun role => ([·]) <$> m.inputFor (m.idleValues s) moves role) m.circuit.roles with
    | error e => simp
    | ok inputs => simp [eq_comm]

/-- Moves are accepted just if each is one of a player, and each player makes one, which is legal. -/
theorem exists_nextState_iff : (∃ next, m.nextState s moves = .ok next) ↔
    (∀ move ∈ moves, m.isMove move = true) ∧
      ∀ role ∈ m.circuit.roles, ∃ move, moves.filter ((m.circuit.legalOf role).contains ·) = [move] ∧
        move ∈ m.legalMoves s role ∧ m.circuit.inputOf? move ≠ none := by
  constructor
  · rintro ⟨next, hnext⟩
    obtain ⟨hmoves, inputs, hinputs, -⟩ := nextState_eq_ok_iff.1 hnext
    refine ⟨hmoves, fun role hrole => exists_inputFor_iff.1 ?_⟩
    obtain ⟨cs, hcs⟩ := exists_ok_of_collect hinputs hrole
    obtain ⟨input, hinput, -⟩ := map_ok.1 hcs
    exact ⟨input, hinput⟩
  · rintro ⟨hmoves, hroles⟩
    have hcollect : ∀ role ∈ m.circuit.roles, ∃ cs, ([·]) <$> m.inputFor (m.idleValues s) moves role = .ok cs := by
      intro role hrole
      obtain ⟨input, hinput⟩ := exists_inputFor_iff.2 (hroles role hrole)
      exact ⟨[input], map_ok.2 ⟨input, hinput, rfl⟩⟩
    obtain ⟨inputs, hinputs⟩ := exists_collect_ok hcollect
    exact ⟨_, nextState_eq_ok_iff.2 ⟨hmoves, inputs, hinputs, rfl⟩⟩

/-- The order of the moves makes no difference. -/
theorem nextState_of_perm (h : m.nextState s moves = .ok next) (hperm : moves.Perm moves') :
    m.nextState s moves' = .ok next := by
  obtain ⟨hmoves, inputs, hinputs, rfl⟩ := nextState_eq_ok_iff.1 h
  refine nextState_eq_ok_iff.2 ⟨fun move hmove => hmoves move (hperm.mem_iff.2 hmove), inputs, ?_, rfl⟩
  rw [← hinputs]
  refine collect_congr fun role hrole => ?_
  obtain ⟨cs, hcs⟩ := exists_ok_of_collect hinputs hrole
  obtain ⟨input, hinput, -⟩ := map_ok.1 hcs
  obtain ⟨move, hmove, hlegal⟩ := inputFor_eq_ok_iff.1 hinput
  have hmove' : moves'.filter ((m.circuit.legalOf role).contains ·) = [move] := by
    refine List.perm_singleton.1 ?_
    rw [← hmove]
    exact (hperm.filter _).symm
  rw [hinput, inputFor_eq_ok_iff.2 ⟨move, hmove', hlegal⟩]

/-- If no move is one of two players, the moves that are accepted are, in some order, one legal move of each player. -/
theorem exists_nextState_iff_joint (hroles : m.circuit.roles.Nodup)
    (hone : ∀ {role role' id}, (role, id) ∈ m.circuit.legal → (role', id) ∈ m.circuit.legal → role = role') :
    (∃ next, m.nextState s moves = .ok next) ↔ ∃ picks, moves.Perm picks ∧
      List.Forall₂ (fun role move => move ∈ m.legalMoves s role ∧ m.circuit.inputOf? move ≠ none)
        m.circuit.roles picks := by
  have hapart : ∀ role role' id, (m.circuit.legalOf role).contains id = true →
      (m.circuit.legalOf role').contains id = true → role = role' := by
    intro role role' id h h'
    rw [List.contains_iff_mem, Circuit.mem_legalOf] at h h'
    exact hone h h'
  have hcontains : ∀ role move, (move ∈ m.legalMoves s role ∧ m.circuit.inputOf? move ≠ none) →
      (m.circuit.legalOf role).contains move = true := fun _ _ h =>
    List.contains_iff_mem.2 (List.mem_filter.1 h.1).1
  rw [exists_nextState_iff]
  constructor
  · rintro ⟨hmoves, hpicks⟩
    refine ⟨_, perm_flatMap_filter hroles hapart fun move hmove => ?_, forall₂_flatMap_of_singleton hpicks⟩
    exact List.any_eq_true.1 (hmoves move hmove)
  · rintro ⟨picks, hperm, hpicks⟩
    refine ⟨fun move hmove => List.any_eq_true.2 ?_, fun role hrole => ?_⟩
    · obtain ⟨role, hrole, hpick⟩ := exists_rel_of_mem hpicks (hperm.mem_iff.1 hmove)
      exact ⟨role, hrole, hcontains role move hpick⟩
    · obtain ⟨move, hfilter, hpick⟩ := exists_filter_eq_singleton hroles hapart hcontains hpicks hrole
      refine ⟨move, List.perm_singleton.1 ?_, hpick⟩
      rw [← hfilter]
      exact hperm.filter _

/-! ## Joint moves of a circuit -/

/-- Moves are accepted just if they are, in some order, one legal move of each player that still goes with a move.  The
state that follows does not depend on the order, and if nothing was removed, one legal move of each player is always
accepted. -/
theorem nextState_accepts_iff_joint {l : Lexicon} {roles : List Symbol} {φs : List (Formula Symbol)} {c : Circuit}
    {ids : List Nat} {m : Machine} (hbuild : Circuit.build l roles φs = .ok c) (hroles : roles.Nodup)
    (hm : Machine.ofCircuit (c.removeEach ids) = .ok m) (s : GameState) (moves : List Nat) :
    ((∃ next, m.nextState s moves = .ok next) ↔ ∃ picks, moves.Perm picks ∧
      List.Forall₂ (fun role move => move ∈ m.legalMoves s role ∧ (c.removeEach ids).inputOf? move ≠ none)
        roles picks) ∧
    (∀ next moves', m.nextState s moves = .ok next → moves.Perm moves' → m.nextState s moves' = .ok next) ∧
    (c.removedBy ids = [] → ∀ picks, List.Forall₂ (fun role move => move ∈ m.legalMoves s role) roles picks →
      ∃ next, m.nextState s picks = .ok next) := by
  have hcoherent := Circuit.coherent_removeEach hbuild ids
  have hcircuit := (Machine.isOrder hcoherent.wired hm).1
  have hcroles : (c.removeEach ids).roles = roles := by
    rw [Circuit.removeEach_eq_restrict hbuild]
    obtain ⟨origins, A, F, -, rfl⟩ := Circuit.exists_explained_of_build hbuild
    rfl
  rw [← hcircuit] at hcroles hcoherent ⊢
  have hjoint : ∀ moves, (∃ next, m.nextState s moves = .ok next) ↔ ∃ picks, moves.Perm picks ∧
      List.Forall₂ (fun role move => move ∈ m.legalMoves s role ∧ m.circuit.inputOf? move ≠ none) roles picks := by
    intro moves
    rw [← hcroles] at hroles ⊢
    exact exists_nextState_iff_joint hroles hcoherent.player
  refine ⟨hjoint moves, fun next moves' hnext hperm => nextState_of_perm hnext hperm, fun hnone picks hpicks => ?_⟩
  refine (hjoint picks).2 ⟨picks, .refl _, hpicks.imp fun role move hmove => ⟨hmove, ?_⟩⟩
  have hwhole : m.circuit = c := by
    rw [hcircuit, Circuit.removeEach_eq_restrict hbuild, hnone, Circuit.restrict_nil]
  rw [legalMoves, hwhole] at hmove
  rw [hwhole]
  exact Circuit.inputOf?_ne_none_of_build hbuild (List.mem_filter.1 hmove).1

/-- The black player may draw or wait, and the white one may draw if the lamp is lit, which it is at the start and
whenever black drew. -/
def duel : List (Formula Symbol) :=
  let act (relation player move : Symbol) : Atom Symbol := ⟨relation, [.const player, .const move]⟩
  let black : Symbol := ⟨14⟩
  let white : Symbol := ⟨15⟩
  let draw : Symbol := ⟨16⟩
  let wait : Symbol := ⟨17⟩
  let lit : Term Symbol := .const ⟨18⟩
  [.atom (act Keyword.legal black draw), .atom (act Keyword.legal black wait),
    .rule (act Keyword.legal white draw) [.atom ⟨Keyword.holds, [lit]⟩], .atom ⟨Keyword.init, [lit]⟩,
    .rule ⟨Keyword.next, [lit]⟩ [.atom (act Keyword.does black draw)]]

/-- In the duel without the component 15, that black waits, the legal moves 3 and 7 of the two players, to draw, are
accepted in either order while the lamp, 6, is lit. -/
theorem nextState_accepts_iff_joint_duel :
    ∃ c m next, Circuit.build Lexicon.initial [⟨14⟩, ⟨15⟩] duel = .ok c ∧ [(⟨14⟩ : Symbol), ⟨15⟩].Nodup ∧
      Machine.ofCircuit (c.removeEach [15]) = .ok m ∧ (c.removeEach [15]).inputOf? 4 = none ∧
      m.nextState ⟨[6]⟩ [7, 3] = .ok next ∧ m.nextState ⟨[6]⟩ [3, 7] = .ok next := by
  have hroles : [(⟨14⟩ : Symbol), ⟨15⟩].Nodup := by decide
  have hrun : (match Circuit.build Lexicon.initial [⟨14⟩, ⟨15⟩] duel with
      | .ok c =>
        match Machine.ofCircuit (c.removeEach [15]) with
        | .ok m => decide (3 ∈ m.legalMoves ⟨[6]⟩ ⟨14⟩ ∧ 7 ∈ m.legalMoves ⟨[6]⟩ ⟨15⟩ ∧
            (c.removeEach [15]).inputOf? 3 ≠ none ∧ (c.removeEach [15]).inputOf? 7 ≠ none ∧
            (c.removeEach [15]).inputOf? 4 = none)
        | .error _ => false
      | .error _ => false) = true := by decide +kernel
  split at hrun
  · rename_i c hc
    split at hrun
    · rename_i m hm
      obtain ⟨hfirst, hsecond, hinput, hinput', hnone⟩ := of_decide_eq_true hrun
      obtain ⟨hjoint, horder, -⟩ := nextState_accepts_iff_joint hc hroles hm ⟨[6]⟩ [7, 3]
      obtain ⟨next, hnext⟩ := hjoint.2
        ⟨[3, 7], .swap _ _ _, .cons ⟨hfirst, hinput⟩ (.cons ⟨hsecond, hinput'⟩ .nil)⟩
      exact ⟨c, m, next, hc, hroles, hm, hnone, hnext, horder next [3, 7] hnext (.swap _ _ _)⟩
    · cases hrun
  · cases hrun

end Machine

end GameCircuit
