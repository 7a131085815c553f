import GameCircuit.Proofs.Idempotence
import GameCircuit.Proofs.SafeGrounding
import Mathlib.Data.List.Sort
import Mathlib.Data.Prod.Lex

/-!
# Schedules are stable sorts

A schedule is told by ranks.  Literals that are no equality literals (`anchors`) are ranked by their number.  An
equality literal is ranked behind the anchors before it, and behind as many as it takes to bind its variables, but no
further; one that is never bound comes last of all (`rank`).  Scheduling a body is sorting it by ranks, where literals
of the same rank keep their order (`schedule_eq_sortBy_rank`).
-/

namespace GameCircuit

/-! ## Sorting by keys -/

section Sorting

variable {α κ : Type} [LinearOrder κ] (key : α → κ)

/-- Sorts by keys.  What has the same key keeps its order. -/
def sortBy (as : List α) : List α := as.mergeSort fun a b => decide (key a ≤ key b)

variable {key} {as bs : List α} {a : α}

/-- What is more than the first elements is inserted behind them. -/
theorem orderedInsert_append (h : ∀ b ∈ as, key b < key a) :
    (as ++ bs).orderedInsert (fun a b => key a ≤ key b) a = as ++ bs.orderedInsert (fun a b => key a ≤ key b) a := by
  induction as with
  | nil => rfl
  | cons b as ih =>
    obtain ⟨hb, has⟩ := List.forall_mem_cons.1 h
    rw [List.cons_append, List.orderedInsert_cons, if_neg (not_le_of_gt hb), ih has, List.cons_append]

/-- What is no more than any element is inserted before them. -/
theorem orderedInsert_of_le (h : ∀ b ∈ as, key a ≤ key b) : as.orderedInsert (fun a b => key a ≤ key b) a = a :: as := by
  cases as with
  | nil => rfl
  | cons b as => exact if_pos (h b List.mem_cons_self)

variable (key) in
theorem sortBy_cons (a : α) (as : List α) :
    sortBy key (a :: as) = (sortBy key as).orderedInsert (fun a b => key a ≤ key b) a := by
  have htrans : ∀ a b c : α, decide (key a ≤ key b) = true → decide (key b ≤ key c) = true →
      decide (key a ≤ key c) = true := by
    intro a b c hab hbc
    exact decide_eq_true (le_trans (of_decide_eq_true hab) (of_decide_eq_true hbc))
  have htotal : ∀ a b : α, (decide (key a ≤ key b) || decide (key b ≤ key a)) = true := by
    intro a b
    simpa using le_total (key a) (key b)
  obtain ⟨before, after, hcons, has, hbefore⟩ := List.mergeSort_cons htrans htotal a as
  have hsorted := List.pairwise_mergeSort htrans htotal (a :: as)
  rw [hcons, List.pairwise_append] at hsorted
  have hafter : ∀ b ∈ after, key a ≤ key b := fun b hb =>
    of_decide_eq_true (List.rel_of_pairwise_cons hsorted.2.1 hb)
  rw [sortBy, sortBy, hcons, has, orderedInsert_append fun b hb => by simpa using hbefore b hb,
    orderedInsert_of_le hafter]

/-- What is sorted stays as it is. -/
theorem sortBy_of_pairwise (h : as.Pairwise fun a b => key a ≤ key b) : sortBy key as = as :=
  List.mergeSort_of_pairwise (h.imp decide_eq_true)

/-- What is less than all before it, and no more than what is behind it, comes first. -/
theorem sortBy_append_cons (has : ∀ b ∈ as, key a < key b) (hbs : ∀ b ∈ bs, key a ≤ key b) :
    sortBy key (as ++ a :: bs) = a :: sortBy key (as ++ bs) := by
  induction as with
  | nil =>
    rw [List.nil_append, List.nil_append, sortBy_cons]
    exact orderedInsert_of_le fun b hb => hbs b (List.mem_mergeSort.1 hb)
  | cons b as ih =>
    obtain ⟨hb, has⟩ := List.forall_mem_cons.1 has
    rw [List.cons_append, sortBy_cons, ih has, List.orderedInsert_cons, if_neg (not_le_of_gt hb), ← sortBy_cons]
    rfl

/-- What has the least key comes first, in its order. -/
theorem sortBy_append_of_least {r : κ} {p : α → Bool} (hleast : ∀ a ∈ as, p a = true → key a = r)
    (hmore : ∀ a ∈ as, p a = false → r < key a) (hbs : ∀ b ∈ bs, r ≤ key b) :
    sortBy key (as ++ bs) = as.filter p ++ sortBy key (as.filter (fun a => !p a) ++ bs) := by
  induction as with
  | nil => rfl
  | cons a as ih =>
    obtain ⟨hleasta, hleast⟩ := List.forall_mem_cons.1 hleast
    obtain ⟨hmorea, hmore⟩ := List.forall_mem_cons.1 hmore
    rw [List.cons_append, sortBy_cons, ih hleast hmore]
    cases hp : p a with
    | true =>
      rw [List.filter_cons_of_pos hp, List.filter_cons_of_neg (by simp [hp])]
      refine orderedInsert_of_le fun b hb => ?_
      rw [hleasta hp]
      rcases List.mem_append.1 hb with hb | hb
      · obtain ⟨hb, hpb⟩ := List.mem_filter.1 hb
        exact (hleast b hb hpb).ge
      · rcases List.mem_append.1 (List.mem_mergeSort.1 hb) with hb | hb
        · obtain ⟨hb, hpb⟩ := List.mem_filter.1 hb
          exact (hmore b hb (by simpa using hpb)).le
        · exact hbs b hb
    | false =>
      have hlt : ∀ b ∈ as.filter p, key b < key a := by
        intro b hb
        obtain ⟨hb, hpb⟩ := List.mem_filter.1 hb
        rw [hleast b hb hpb]
        exact hmorea hp
      rw [orderedInsert_append hlt, ← sortBy_cons, List.filter_cons_of_neg (by simp [hp]),
        List.filter_cons_of_pos (by simp [hp]), List.cons_append]

end Sorting

/-! ## Ranks -/

/-- The literals of a body that are no equality literals. -/
def anchors (body : List (Formula Symbol)) : List (Formula Symbol) := body.filter fun φ => !φ.isEquality

/-- The variables that the first `k` anchors of a body bind together. -/
def boundAfter (body : List (Formula Symbol)) (k : Nat) : List Symbol := ((anchors body).take k).flatMap Formula.binds

/-- The least number of anchors, from the first on, that together bind all variables of the literal. -/
def binders? (body : List (Formula Symbol)) (φ : Formula Symbol) : Option Nat :=
  (List.range ((anchors body).length + 1)).find? fun k => φ.isBoundBy (boundAfter body k)

/-- The rank of a literal at a place of a body: the number of anchors up to which it comes, and 0 for the anchor of
that number itself, 1 for an equality literal behind it, and 2 for one that is never bound. -/
def rank (body : List (Formula Symbol)) (p : Formula Symbol × Nat) : Nat ×ₗ Nat :=
  if p.1.isEquality then
    match binders? body p.1 with
    | some k => toLex (max (anchors (body.take p.2)).length k, 1)
    | none => toLex ((anchors body).length, 2)
  else toLex ((anchors (body.take p.2)).length + 1, 0)

section Rank

variable {body : List (Formula Symbol)} {φ : Formula Symbol} {p : Formula Symbol × Nat} {j k : Nat}

theorem isBoundBy_mono {bound bound' : List Symbol} (hsub : bound ⊆ bound') (h : φ.isBoundBy bound = true) :
    φ.isBoundBy bound' = true :=
  Formula.isBoundBy_iff.2 fun x hx => hsub (Formula.isBoundBy_iff.1 h x hx)

theorem boundAfter_subset (h : j ≤ k) : boundAfter body j ⊆ boundAfter body k := by
  intro x hx
  obtain ⟨φ, hφ, hxφ⟩ := List.mem_flatMap.1 hx
  exact List.mem_flatMap.2 ⟨φ, List.take_subset_take_left _ h hφ, hxφ⟩

theorem length_anchors_take_le (body : List (Formula Symbol)) (n : Nat) :
    (anchors (body.take n)).length ≤ (anchors body).length :=
  ((List.take_sublist n body).filter _).length_le

/-- The rank of an equality literal whose variables are bound where it stands. -/
theorem rank_of_bound (hequality : p.1.isEquality = true)
    (hbound : p.1.isBoundBy (boundAfter body (anchors (body.take p.2)).length) = true) :
    rank body p = toLex ((anchors (body.take p.2)).length, 1) := by
  have hle := length_anchors_take_le body p.2
  rw [rank, if_pos hequality]
  cases hk : binders? body p.1 with
  | none =>
    have hnot := List.find?_range_eq_none.1 hk _ (Nat.lt_succ_of_le hle)
    simp [hbound] at hnot
  | some k =>
    obtain ⟨-, -, hleast⟩ := List.find?_range_eq_some.1 hk
    have hkle : k ≤ (anchors (body.take p.2)).length := by
      by_contra hlt
      have hnot := hleast _ (Nat.lt_of_not_le hlt)
      simp [hbound] at hnot
    dsimp only
    rw [max_eq_left hkle]

/-- An equality literal that waits when `k` anchors are behind: it stands no further than these, and they do not bind
its variables. -/
structure Waits (body : List (Formula Symbol)) (k : Nat) (p : Formula Symbol × Nat) : Prop where
  equality : p.1.isEquality = true
  unbound : p.1.isBoundBy (boundAfter body k) = false
  place : (anchors (body.take p.2)).length ≤ k

theorem Waits.next (h : Waits body k p) (hunbound : p.1.isBoundBy (boundAfter body (k + 1)) = false) :
    Waits body (k + 1) p :=
  ⟨h.equality, hunbound, Nat.le_succ_of_le h.place⟩

/-- A literal that waits is ranked behind the first anchors that bind it, or last. -/
theorem Waits.rank_cases (h : Waits body k p) :
    (∃ j, k < j ∧ j ≤ (anchors body).length ∧ p.1.isBoundBy (boundAfter body j) = true ∧
        (∀ i < j, p.1.isBoundBy (boundAfter body i) = false) ∧ rank body p = toLex (j, 1)) ∨
      (p.1.isBoundBy (boundAfter body (anchors body).length) = false ∧
        rank body p = toLex ((anchors body).length, 2)) := by
  rw [rank, if_pos h.equality]
  cases hj : binders? body p.1 with
  | none =>
    have hnot := List.find?_range_eq_none.1 hj _ (Nat.lt_succ_self _)
    exact .inr ⟨by simpa using hnot, rfl⟩
  | some j =>
    obtain ⟨hbound, hmem, hleast⟩ := List.find?_range_eq_some.1 hj
    have hlt : k < j := by
      by_contra hle
      have hbound' := isBoundBy_mono (boundAfter_subset (Nat.le_of_not_lt hle)) hbound
      rw [h.unbound] at hbound'
      cases hbound'
    refine .inl ⟨j, hlt, Nat.le_of_lt_succ (List.mem_range.1 hmem), hbound, fun i hi => ?_, ?_⟩
    · simpa using hleast i hi
    · dsimp only
      rw [max_eq_right (Nat.le_trans h.place (Nat.le_of_lt hlt))]

theorem Waits.lt_rank (h : Waits body k p) (hk : k ≤ (anchors body).length) : toLex (k, 1) < rank body p := by
  rcases h.rank_cases with ⟨j, hlt, -, -, -, hrank⟩ | ⟨-, hrank⟩
  · rw [hrank, Prod.Lex.toLex_lt_toLex]
    exact .inl hlt
  · rw [hrank, Prod.Lex.toLex_lt_toLex]
    rcases Nat.lt_or_eq_of_le hk with hlt | heq
    · exact .inl hlt
    · exact .inr ⟨heq, Nat.one_lt_two⟩

/-- If one more anchor binds the variables, the literal is ranked behind it. -/
theorem Waits.rank_of_released (h : Waits body k p) (hk : k < (anchors body).length)
    (hbound : p.1.isBoundBy (boundAfter body (k + 1)) = true) : rank body p = toLex (k + 1, 1) := by
  rcases h.rank_cases with ⟨j, hlt, -, -, hleast, hrank⟩ | ⟨hnever, -⟩
  · have hj : j = k + 1 := by
      by_contra hne
      have hunbound := hleast (k + 1) (by omega)
      rw [hbound] at hunbound
      cases hunbound
    rw [hrank, hj]
  · have hbound' := isBoundBy_mono (boundAfter_subset hk) hbound
    rw [hnever] at hbound'
    cases hbound'

/-- Literals from some place on are ranked behind the anchors before it. -/
theorem le_rank (h : k ≤ (anchors (body.take p.2)).length) : toLex (k, 1) ≤ rank body p := by
  have hle := length_anchors_take_le body p.2
  unfold rank
  split_ifs
  · split
    · rw [Prod.Lex.toLex_le_toLex]
      rcases Nat.lt_or_eq_of_le (Nat.le_trans h (Nat.le_max_left _ _)) with hlt | heq
      · exact .inl hlt
      · exact .inr ⟨heq, Nat.le_refl _⟩
    · rw [Prod.Lex.toLex_le_toLex]
      rcases Nat.lt_or_eq_of_le (Nat.le_trans h hle) with hlt | heq
      · exact .inl hlt
      · exact .inr ⟨heq, Nat.le_succ 1⟩
  · rw [Prod.Lex.toLex_le_toLex]
    exact .inl (Nat.lt_succ_of_le h)

end Rank

/-! ## Schedules -/

theorem anchors_append (φs ψs : List (Formula Symbol)) : anchors (φs ++ ψs) = anchors φs ++ anchors ψs :=
  List.filter_append ..

theorem anchors_of_equality {φ : Formula Symbol} (h : φ.isEquality = true) : anchors [φ] = [] := by
  simp [anchors, h]

theorem anchors_of_anchor {φ : Formula Symbol} (h : ¬ φ.isEquality = true) : anchors [φ] = [φ] := by
  simp [anchors, h]

section Step

-- the literal `φ` comes next, when `done` is scheduled and `rest` is to come
variable {body done rest : List (Formula Symbol)} {φ : Formula Symbol} (hbody : body = done ++ φ :: rest)

include hbody

theorem anchors_take : anchors (body.take done.length) = anchors done := by
  rw [hbody, List.take_left]

theorem le_rank_of_mem_rest {q : Formula Symbol × Nat} (hq : q ∈ rest.zipIdx (done.length + 1)) :
    toLex ((anchors (done ++ [φ])).length, 1) ≤ rank body q := by
  refine le_rank ?_
  have hplace : (done ++ [φ]).length ≤ q.2 := by
    rw [List.length_append, List.length_singleton]
    exact (List.mem_zipIdx hq).1
  rw [hbody, List.append_cons done φ rest, List.take_append, List.take_of_length_le hplace, anchors_append (done ++ [φ]),
    List.length_append]
  exact Nat.le_add_right _ _

/-- An equality literal that is bound where it stands comes next. -/
theorem sortBy_of_bound {held : List (Formula Symbol × Nat)} (hheld : ∀ p ∈ held, Waits body (anchors done).length p)
    (hequality : φ.isEquality = true) (hbound : φ.isBoundBy (boundAfter body (anchors done).length) = true) :
    sortBy (rank body) (held ++ (φ, done.length) :: rest.zipIdx (done.length + 1)) =
      (φ, done.length) :: sortBy (rank body) (held ++ rest.zipIdx (done.length + 1)) := by
  have hplace := anchors_take hbody
  have hrank : rank body (φ, done.length) = toLex ((anchors done).length, 1) := by
    rw [rank_of_bound hequality (by rwa [hplace]), hplace]
  have hle := length_anchors_take_le body done.length
  rw [hplace] at hle
  refine sortBy_append_cons (fun p hp => ?_) fun q hq => ?_
  · rw [hrank]
    exact (hheld p hp).lt_rank hle
  · have hlater := le_rank_of_mem_rest hbody hq
    rwa [anchors_append, anchors_of_equality hequality, List.append_nil, ← hrank] at hlater

theorem length_anchors_lt (hanchor : ¬ φ.isEquality = true) : (anchors done).length < (anchors body).length := by
  rw [hbody, List.append_cons, anchors_append, anchors_append, anchors_of_anchor hanchor, List.length_append,
    List.length_append, List.length_singleton]
  omega

theorem boundAfter_anchor (hanchor : ¬ φ.isEquality = true) :
    boundAfter body ((anchors done).length + 1) = boundAfter body (anchors done).length ++ φ.binds := by
  have hanchors : anchors body = anchors done ++ φ :: anchors rest := by
    rw [hbody, List.append_cons, anchors_append, anchors_append, anchors_of_anchor hanchor, ← List.append_cons]
  rw [boundAfter, boundAfter, hanchors, List.take_left, List.take_length_add_append]
  simp

/-- An anchor comes next, and behind it what it releases. -/
theorem sortBy_of_anchor {held : List (Formula Symbol × Nat)} (hheld : ∀ p ∈ held, Waits body (anchors done).length p)
    (hanchor : ¬ φ.isEquality = true) :
    sortBy (rank body) (held ++ (φ, done.length) :: rest.zipIdx (done.length + 1)) =
      (φ, done.length) :: (held.filter (fun p => p.1.isBoundBy (boundAfter body ((anchors done).length + 1))) ++
        sortBy (rank body) (held.filter (fun p => !p.1.isBoundBy (boundAfter body ((anchors done).length + 1))) ++
          rest.zipIdx (done.length + 1))) := by
  have hlt := length_anchors_lt hbody hanchor
  have hrank : rank body (φ, done.length) = toLex ((anchors done).length + 1, 0) := by
    rw [rank, if_neg hanchor, anchors_take hbody]
  have hreleased : ∀ p ∈ held, p.1.isBoundBy (boundAfter body ((anchors done).length + 1)) = true →
      rank body p = toLex ((anchors done).length + 1, 1) := fun p hp => (hheld p hp).rank_of_released hlt
  have hwaiting : ∀ p ∈ held, p.1.isBoundBy (boundAfter body ((anchors done).length + 1)) = false →
      toLex ((anchors done).length + 1, 1) < rank body p := fun p hp hunbound =>
    ((hheld p hp).next hunbound).lt_rank hlt
  have hlater : ∀ q ∈ rest.zipIdx (done.length + 1), toLex ((anchors done).length + 1, 1) ≤ rank body q := by
    intro q hq
    have hle := le_rank_of_mem_rest hbody hq
    rwa [anchors_append, anchors_of_anchor hanchor, List.length_append] at hle
  have hfirst : rank body (φ, done.length) < toLex ((anchors done).length + 1, 1) := by
    rw [hrank, Prod.Lex.toLex_lt_toLex]
    exact .inr ⟨rfl, Nat.zero_lt_one⟩
  have hbehind : ∀ p ∈ held, toLex ((anchors done).length + 1, 1) ≤ rank body p := by
    intro p hp
    cases hbound : p.1.isBoundBy (boundAfter body ((anchors done).length + 1)) with
    | true => exact (hreleased p hp hbound).ge
    | false => exact (hwaiting p hp hbound).le
  rw [sortBy_append_cons (fun p hp => hfirst.trans_le (hbehind p hp)) fun q hq => (hfirst.trans_le (hlater q hq)).le,
    sortBy_append_of_least hreleased hwaiting hlater]

end Step

/-- Sorting by ranks what waits and what is to come is scheduling it. -/
theorem map_sortBy_rank {body done rest : List (Formula Symbol)} {held : List (Formula Symbol × Nat)}
    (hbody : body = done ++ rest) (hheld : ∀ p ∈ held, Waits body (anchors done).length p) :
    (sortBy (rank body) (held ++ rest.zipIdx done.length)).map Prod.fst =
      scheduleFrom (boundAfter body (anchors done).length) (held.map Prod.fst) rest := by
  induction rest generalizing done held with
  | nil =>
    rw [List.append_nil] at hbody
    -- what still waits is never bound
    have hrank : ∀ p ∈ held, rank body p = toLex ((anchors body).length, 2) := by
      intro p hp
      rcases (hheld p hp).rank_cases with ⟨j, hlt, hle, -⟩ | ⟨-, hrank⟩
      · rw [hbody] at hle
        omega
      · exact hrank
    have hsorted : held.Pairwise fun p q => rank body p ≤ rank body q :=
      List.pairwise_of_forall_mem_list fun p hp q hq => ((hrank p hp).trans (hrank q hq).symm).le
    rw [List.zipIdx_nil, List.append_nil, sortBy_of_pairwise hsorted, scheduleFrom]
  | cons φ rest ih =>
    have hrun : ∀ {held' : List (Formula Symbol × Nat)}, (∀ p ∈ held', Waits body (anchors (done ++ [φ])).length p) →
        (sortBy (rank body) (held' ++ rest.zipIdx (done.length + 1))).map Prod.fst =
          scheduleFrom (boundAfter body (anchors (done ++ [φ])).length) (held'.map Prod.fst) rest := by
      intro held' hheld'
      have hrun := ih (hbody.trans (List.append_cons ..)) hheld'
      rwa [List.length_append, List.length_singleton] at hrun
    rw [anchors_append] at hrun
    rw [List.zipIdx_cons, scheduleFrom]
    split_ifs with hequality hbound
    · rw [anchors_of_equality hequality, List.append_nil] at hrun
      rw [sortBy_of_bound hbody hheld hequality hbound, List.map_cons, hrun hheld]
    · rw [anchors_of_equality hequality, List.append_nil] at hrun
      have hwaits : ∀ p ∈ held ++ [(φ, done.length)], Waits body (anchors done).length p := by
        intro p hp
        rcases List.mem_append.1 hp with hp | hp
        · exact hheld p hp
        · rw [List.mem_singleton.1 hp]
          exact ⟨hequality, by simpa using hbound, by rw [anchors_take hbody]⟩
      rw [List.append_cons, hrun hwaits, List.map_append, List.map_singleton]
    · rw [anchors_of_anchor hequality, List.length_append, List.length_singleton] at hrun
      rw [sortBy_of_anchor hbody hheld hequality, List.map_cons, List.map_append, hrun fun p hp => ?_]
      · simp only [← boundAfter_anchor hbody hequality, List.filter_map]
        rfl
      · obtain ⟨hp, hunbound⟩ := List.mem_filter.1 hp
        exact (hheld p hp).next (by simpa using hunbound)

/-- An equality literal that some literals of the body bind comes behind such literals. -/
theorem isBoundBy_before_scheduleFrom {bound : List Symbol} {held rest before after : List (Formula Symbol)}
    {φ : Formula Symbol} (h : scheduleFrom bound held rest = before ++ φ :: after) (hequality : φ.isEquality = true)
    (hbound : φ.isBoundBy (bound ++ rest.flatMap Formula.binds) = true) :
    φ.isBoundBy (bound ++ before.flatMap Formula.binds) = true := by
  induction rest generalizing bound held before with
  | nil =>
    rw [List.flatMap_nil, List.append_nil] at hbound
    exact isBoundBy_mono (List.subset_append_left _ _) hbound
  | cons ψ rest ih =>
    rw [List.flatMap_cons, ← List.append_assoc] at hbound
    rw [scheduleFrom] at h
    split_ifs at h with hψ hψbound
    · rw [Formula.binds_of_isEquality hψ, List.append_nil] at hbound
      rcases List.append_eq_cons_iff.1 h.symm with ⟨rfl, heq⟩ | ⟨before', rfl, heq⟩
      · rw [(List.cons.inj heq).1]
        exact isBoundBy_mono (List.subset_append_left _ _) hψbound
      · rw [List.flatMap_cons, Formula.binds_of_isEquality hψ, List.nil_append]
        exact ih heq hbound
    · rw [Formula.binds_of_isEquality hψ, List.append_nil] at hbound
      exact ih h hbound
    · rcases List.append_eq_cons_iff.1 h.symm with ⟨rfl, heq⟩ | ⟨before', rfl, heq⟩
      · exact absurd ((List.cons.inj heq).1 ▸ hequality) hψ
      · rw [List.flatMap_cons, ← List.append_assoc]
        by_cases hnow : φ.isBoundBy (bound ++ ψ.binds) = true
        · exact isBoundBy_mono (List.subset_append_left _ _) hnow
        · -- the literal is not among those that are released here
          rcases List.append_eq_append_iff.1 heq with ⟨before'', rfl, heq'⟩ | ⟨_ | ⟨χ, more⟩, hreleased, heq'⟩
          · rw [List.flatMap_append]
            exact isBoundBy_mono (fun x hx => by grind) (ih heq' hbound)
          · have hlate : φ.isBoundBy (bound ++ ψ.binds ++ [].flatMap Formula.binds) = true := ih heq'.symm hbound
            exact isBoundBy_mono (by simp) hlate
          · have hmem : φ ∈ held.filter (·.isBoundBy (bound ++ ψ.binds)) := by
              rw [hreleased, (List.cons.inj heq').1]
              simp
            exact absurd (List.mem_filter.1 hmem).2 hnow

/-- Scheduling a body sorts it by ranks, and literals of the same rank keep their order.  In particular no literal is
lost or doubled, the anchors keep their order, an equality literal that can be bound comes behind literals that bind
it, and scheduling a schedule changes nothing. -/
theorem schedule_eq_sortBy_rank (body : List (Formula Symbol)) :
    schedule body = (sortBy (rank body) body.zipIdx).map Prod.fst ∧
    (schedule body).Perm body ∧
    anchors (schedule body) = anchors body ∧
    (∀ before φ after, schedule body = before ++ φ :: after → φ.isEquality = true →
      φ.isBoundBy (body.flatMap Formula.binds) = true → φ.isBoundBy (before.flatMap Formula.binds) = true) ∧
    schedule (schedule body) = schedule body := by
  refine ⟨?_, schedule_perm body, filter_schedule body, fun before φ after h hequality hbound => ?_,
    schedule_schedule body⟩
  · have hnone : ∀ p ∈ ([] : List (Formula Symbol × Nat)), Waits body (anchors []).length p := by simp
    exact (map_sortBy_rank (List.nil_append body).symm hnone).symm
  · exact isBoundBy_before_scheduleFrom h hequality hbound

end GameCircuit
