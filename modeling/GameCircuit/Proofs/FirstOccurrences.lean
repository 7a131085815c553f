import GameCircuit.Proofs.OrderedMaps
import GameCircuit.Proofs.Variants
import Mathlib.Data.List.TakeWhile
import Mathlib.Order.Filter.AtTopBot.Basic

/-!
# First occurrences

Lists that are told apart by their members and the order in which these first occur (`Alike`).  If every
element of such a list is replaced over and over by a list that holds the element itself and smaller ones
only, the list settles (`exists_eventually_eq_of_flatMap`).
-/

namespace GameCircuit

open Filter

variable {α β : Type} [BEq α] [LawfulBEq α] [BEq β] [LawfulBEq β] {xs xs' ys ys' zs : List α} {x y : α} {p : α → Bool}

/-! ## Elements where they first occur -/

theorem eraseDups_filter (p : α → Bool) (xs : List α) : (xs.filter p).eraseDups = xs.eraseDups.filter p := by
  induction hn : xs.length using Nat.strong_induction_on generalizing xs with
  | _ n ih =>
    cases xs with
    | nil => rfl
    | cons x xs =>
      have hlt : (xs.filter fun y => !y == x).length < n := by
        rw [← hn]
        exact Nat.lt_succ_of_le (List.length_filter_le _ _)
      by_cases hp : p x = true
      · rw [List.filter_cons_of_pos hp, List.eraseDups_cons, List.eraseDups_cons, List.filter_cons_of_pos hp,
          ← ih _ hlt _ rfl, List.filter_filter, List.filter_filter]
        simp only [Bool.and_comm]
      · rw [List.filter_cons_of_neg hp, List.eraseDups_cons, List.filter_cons_of_neg hp, ← ih _ hlt _ rfl,
          List.filter_filter]
        -- what differs from an element that is left out is told apart already
        refine congrArg List.eraseDups (List.filter_congr fun y _ => ?_)
        by_cases hyx : y = x
        · simp [hyx, hp]
        · simp [hyx]

/-- What comes later counts only where it is new. -/
theorem eraseDups_append (xs ys : List α) :
    (xs ++ ys).eraseDups = xs.eraseDups ++ ys.eraseDups.filter fun y => !xs.contains y := by
  rw [List.eraseDups_append, List.removeAll, eraseDups_filter]

theorem eraseDups_eq_self (h : xs.Nodup) : xs.eraseDups = xs := by
  induction xs with
  | nil => rfl
  | cons x xs ih =>
    obtain ⟨hx, hxs⟩ := List.nodup_cons.1 h
    have hfilter : xs.filter (fun y => !y == x) = xs := by
      refine List.filter_eq_self.2 fun y hy => ?_
      have hne : y ≠ x := fun heq => hx (heq ▸ hy)
      simpa using hne
    rw [List.eraseDups_cons, hfilter, ih hxs]

theorem distinct_eq_eraseDups {α : Type} [BEq α] [LawfulBEq α] [Keyed α] (xs : List α) : distinct xs = xs.eraseDups := by
  suffices hfold : ∀ s : OrderedSet α, (xs.foldl OrderedSet.insert s).toList =
      s.toList ++ xs.eraseDups.filter fun x => !s.toList.contains x by
    have hempty := hfold .empty
    simp only [OrderedSet.toList_empty, List.nil_append, List.contains_nil, Bool.not_false,
      List.filter_true] at hempty
    exact hempty
  induction xs with
  | nil => simp
  | cons x xs ih =>
    intro s
    rw [List.foldl_cons, ih, ← List.singleton_append (l := xs), eraseDups_append]
    have hone : [x].eraseDups = [x] := eraseDups_eq_self (List.nodup_singleton x)
    rw [hone, List.filter_append, List.filter_filter]
    by_cases hx : x ∈ s.toList
    · rw [OrderedSet.toList_insert_of_mem hx, List.filter_cons_of_neg (by simpa using hx), List.filter_nil,
        List.nil_append]
      refine congrArg (s.toList ++ ·) (List.filter_congr fun y _ => ?_)
      by_cases hyx : y = x
      · simp [hyx, hx]
      · simp [hyx]
    · rw [OrderedSet.toList_insert_of_not_mem hx, List.filter_cons_of_pos (by simpa using hx), List.filter_nil,
        ← List.append_assoc]
      refine congrArg (s.toList ++ [x] ++ ·) (List.filter_congr fun y _ => ?_)
      rw [Bool.eq_iff_iff]
      simp

theorem find?_eraseDups (p : α → Bool) (xs : List α) : xs.eraseDups.find? p = xs.find? p := by
  rw [← List.head?_filter, ← List.head?_filter, ← eraseDups_filter]
  cases xs.filter p with
  | nil => rfl
  | cons x xs => rw [List.eraseDups_cons, List.head?_cons, List.head?_cons]

theorem takeWhile_eraseDups (p : α → Bool) (xs : List α) :
    xs.eraseDups.takeWhile p = (xs.takeWhile p).eraseDups := by
  conv_lhs => rw [← List.takeWhile_append_dropWhile (p := p) (l := xs)]
  rw [eraseDups_append]
  have hall : ∀ x ∈ (xs.takeWhile p).eraseDups, p x = true := fun x hx =>
    List.mem_takeWhile_imp (List.mem_eraseDups.1 hx)
  rw [List.takeWhile_append_of_pos hall]
  cases hdrop : xs.dropWhile p with
  | nil => simp
  | cons y ys =>
    have hy : ¬ p y = true := by
      have hhead := List.head?_dropWhile_not p xs
      rw [hdrop] at hhead
      simpa using hhead
    have hnew : y ∉ xs.takeWhile p := fun hmem => hy (List.mem_takeWhile_imp hmem)
    rw [List.eraseDups_cons, List.filter_cons_of_pos (by simpa using hnew), List.takeWhile_cons_of_neg hy,
      List.append_nil]

/-- What comes before the first occurrence of an element comes before it when repetitions are dropped, and nothing
else does. -/
theorem eq_eraseDups_of_append_cons {before after rest : List α} (hx : x ∉ xs)
    (h : (xs ++ x :: rest).eraseDups = before ++ x :: after) : before = xs.eraseDups := by
  have hnodup := nodup_eraseDups (xs ++ x :: rest)
  rw [h, List.nodup_middle, List.nodup_cons, List.mem_append, not_or] at hnodup
  rw [eraseDups_append, List.eraseDups_cons, List.filter_cons_of_pos (by simpa using hx), eq_comm] at h
  exact ((List.append_cons_inj_of_notMem hnodup.1.1 hnodup.1.2).1 h).1

/-- If elements come first, the others follow them in the order of their first occurrences. -/
theorem eraseDups_eq_append (h : ys <+: xs.eraseDups) :
    xs.eraseDups = ys ++ (xs.filter fun x => !ys.contains x).eraseDups := by
  obtain ⟨zs, hzs⟩ := h
  have hnodup := nodup_eraseDups xs
  rw [← hzs, List.nodup_append] at hnodup
  have hfirst : ys.filter (fun x => !ys.contains x) = [] := List.filter_eq_nil_iff.2 fun y hy => by simp [hy]
  have hrest : zs.filter (fun x => !ys.contains x) = zs := by
    refine List.filter_eq_self.2 fun z hz => ?_
    have hnot : z ∉ ys := fun hy => hnodup.2.2 z hy z hz rfl
    simpa using hnot
  rw [eraseDups_filter, ← hzs, List.filter_append, hfirst, hrest, List.nil_append]

/-- The lists have the same members, in the same order of their first occurrences. -/
def Alike (xs ys : List α) : Prop := xs.eraseDups = ys.eraseDups

theorem alike_eraseDups (xs : List α) : Alike xs.eraseDups xs := eraseDups_eq_self (nodup_eraseDups xs)

theorem Alike.mem_iff (h : Alike xs ys) : x ∈ xs ↔ x ∈ ys := by
  rw [← List.mem_eraseDups, h, List.mem_eraseDups]

theorem Alike.append (hxs : Alike xs xs') (hys : Alike ys ys') : Alike (xs ++ ys) (xs' ++ ys') := by
  rw [Alike, eraseDups_append, eraseDups_append, hxs, hys]
  refine congrArg (xs'.eraseDups ++ ·) (List.filter_congr fun y _ => ?_)
  rw [Bool.eq_iff_iff]
  simp [hxs.mem_iff]

theorem alike_append_of_subset (h : ∀ y ∈ ys, y ∈ xs) : Alike (xs ++ ys) xs := by
  have hnone : ys.eraseDups.filter (fun y => !xs.contains y) = [] := by
    refine List.filter_eq_nil_iff.2 fun y hy => ?_
    simpa using h y (List.mem_eraseDups.1 hy)
  rw [Alike, eraseDups_append, hnone, List.append_nil]

omit [BEq β] [LawfulBEq β] in
theorem Alike.flatMap {f g : β → List α} {bs : List β} (h : ∀ b ∈ bs, Alike (f b) (g b)) :
    Alike (bs.flatMap f) (bs.flatMap g) := by
  induction bs with
  | nil => exact rfl
  | cons b bs ih =>
    obtain ⟨hb, hbs⟩ := List.forall_mem_cons.1 h
    rw [List.flatMap_cons, List.flatMap_cons]
    exact hb.append (ih hbs)

/-- What repeated elements are replaced by is repeated. -/
theorem alike_flatMap_eraseDups (f : α → List β) (xs : List α) : Alike (xs.eraseDups.flatMap f) (xs.flatMap f) := by
  induction xs using List.reverseRecOn with
  | nil => exact rfl
  | append_singleton xs x ih =>
    have hone : [x].eraseDups = [x] := eraseDups_eq_self (List.nodup_singleton x)
    rw [eraseDups_append, hone, List.flatMap_append, List.flatMap_append]
    by_cases hx : x ∈ xs
    · rw [List.filter_cons_of_neg (by simpa using hx), List.filter_nil, List.flatMap_nil, List.append_nil]
      refine ih.trans (alike_append_of_subset fun y hy => ?_).symm
      rw [List.flatMap_singleton] at hy
      exact List.mem_flatMap.2 ⟨x, hx, hy⟩
    · rw [List.filter_cons_of_pos (by simpa using hx), List.filter_nil]
      exact ih.append rfl

omit [BEq α] [LawfulBEq α] [BEq β] [LawfulBEq β] in
theorem flatMap_ite_nil (p : α → Bool) (f : α → List β) (as : List α) :
    as.flatMap (fun a => if p a then f a else []) = (as.filter p).flatMap f := by
  induction as with
  | nil => rfl
  | cons a as ih =>
    rw [List.flatMap_cons, ih]
    split_ifs with ha
    · rw [List.filter_cons_of_pos ha, List.flatMap_cons]
    · rw [List.filter_cons_of_neg ha, List.nil_append]

/-! ## Replacing elements over and over -/

omit [BEq α] [LawfulBEq α] in
/-- A sequence of which each member is the one before or smaller settles. -/
theorem exists_eventually_eq_of_descent {u : Nat → α} {μ : α → Nat}
    (h : ∀ᶠ k in atTop, u (k + 1) = u k ∨ μ (u (k + 1)) < μ (u k)) : ∃ x, ∀ᶠ k in atTop, u k = x := by
  classical
  obtain ⟨K, hK⟩ := eventually_atTop.1 h
  suffices hdesc : ∀ n k, K ≤ k → μ (u k) = n → ∃ x, ∀ᶠ k in atTop, u k = x from hdesc _ K le_rfl rfl
  intro n
  induction n using Nat.strong_induction_on with
  | _ n ih =>
    intro k hk hn
    by_cases hsettled : ∀ j ≥ k, u (j + 1) = u j
    · refine ⟨u k, eventually_atTop.2 ⟨k, fun j hj => ?_⟩⟩
      induction j, hj using Nat.le_induction with
      | base => rfl
      | succ j hj ih => exact (hsettled j hj).trans ih
    · -- the first change makes the member smaller
      push Not at hsettled
      obtain ⟨hjk, hj⟩ := Nat.find_spec hsettled
      have hbefore : ∀ i, k ≤ i → i ≤ Nat.find hsettled → u i = u k := by
        intro i hi
        induction i, hi using Nat.le_induction with
        | base => exact fun _ => rfl
        | succ i hi ih =>
          intro hle
          have hmin := Nat.find_min hsettled (m := i) (by omega)
          push Not at hmin
          rw [hmin hi, ih (by omega)]
      have hlt := (hK _ (hk.trans hjk)).resolve_left hj
      rw [hbefore _ hjk le_rfl, hn] at hlt
      exact ih _ hlt (Nat.find hsettled + 1) (by omega) rfl

/-- Replaces every element by the list that is given for it, so many times. -/
def expandTimes (E : α → List α) : Nat → List α → List α
  | 0, xs => xs
  | n + 1, xs => expandTimes E n (xs.flatMap E)

section Expand

variable {E : α → List α} {μ : α → Nat}

omit [BEq α] [LawfulBEq α] in
theorem expandTimes_append (n : Nat) (xs ys : List α) :
    expandTimes E n (xs ++ ys) = expandTimes E n xs ++ expandTimes E n ys := by
  induction n generalizing xs ys with
  | zero => rfl
  | succ n ih => rw [expandTimes, List.flatMap_append, ih, ← expandTimes, ← expandTimes]

omit [BEq α] [LawfulBEq α] in
theorem expandTimes_succ (n : Nat) (xs : List α) : expandTimes E (n + 1) xs = (expandTimes E n xs).flatMap E := by
  induction n generalizing xs with
  | zero => rfl
  | succ n ih => rw [expandTimes, ih, ← expandTimes]

theorem exists_eventually_alike_expandTimes_of_mem
    (h : ∀ x ∈ xs, ∃ zs, ∀ᶠ n in atTop, Alike (expandTimes E n [x]) zs) :
    ∃ zs, ∀ᶠ n in atTop, Alike (expandTimes E n xs) zs := by
  induction xs with
  | nil =>
    refine ⟨[], Eventually.of_forall fun n => ?_⟩
    induction n with
    | zero => exact rfl
    | succ n ih => exact ih
  | cons x xs ih =>
    obtain ⟨hx, hxs⟩ := List.forall_mem_cons.1 h
    obtain ⟨zs, hzs⟩ := hx
    obtain ⟨zs', hzs'⟩ := ih hxs
    refine ⟨zs ++ zs', (hzs.and hzs').mono fun n hn => ?_⟩
    rw [← List.singleton_append, expandTimes_append]
    exact hn.1.append hn.2

variable (hE : ∀ u, ∀ x ∈ E u, x = u ∨ μ x < μ u) (hnodup : ∀ u, (E u).Nodup)

include hE hnodup

/-- What becomes of a single element settles: the smaller ones do, and they come before and behind it. -/
theorem exists_eventually_alike_expandTimes (u : α) : ∃ zs, ∀ᶠ n in atTop, Alike (expandTimes E n [u]) zs := by
  induction hn : μ u using Nat.strong_induction_on generalizing u with
  | _ m ih =>
    have hsmall : ∀ x, μ x < μ u → ∃ zs, ∀ᶠ n in atTop, Alike (expandTimes E n [x]) zs := fun x hx =>
      ih _ (hn ▸ hx) x rfl
    by_cases hself : u ∈ E u
    · obtain ⟨pre, post, hsplit⟩ := List.append_of_mem hself
      have hne : u ∉ pre ++ post := by
        have hnd := hnodup u
        rw [hsplit, List.nodup_middle] at hnd
        exact (List.nodup_cons.1 hnd).1
      have hless : ∀ x ∈ pre ++ post, μ x < μ u := by
        intro x hx
        refine (hE u x ?_).resolve_left fun heq => hne (heq ▸ hx)
        rw [hsplit]
        simp only [List.mem_append, List.mem_cons] at hx ⊢
        tauto
      obtain ⟨ps, hps⟩ := exists_eventually_alike_expandTimes_of_mem fun x hx =>
        hsmall x (hless x (List.mem_append_left post hx))
      obtain ⟨qs, hqs⟩ := exists_eventually_alike_expandTimes_of_mem fun x hx =>
        hsmall x (hless x (List.mem_append_right pre hx))
      -- from some time on each step puts the same lists before and behind
      obtain ⟨N, hN⟩ := eventually_atTop.1 (hps.and hqs)
      have hstep : ∀ n ≥ N, Alike (expandTimes E (n + 1) [u]) (ps ++ expandTimes E n [u] ++ qs) := by
        intro n hle
        rw [expandTimes, List.flatMap_singleton, hsplit, ← List.singleton_append (l := post), ← List.append_assoc,
          expandTimes_append, expandTimes_append]
        exact ((hN n hle).1.append rfl).append (hN n hle).2
      refine ⟨ps ++ expandTimes E N [u] ++ qs, eventually_atTop.2 ⟨N + 1, fun n hle => ?_⟩⟩
      induction n, hle using Nat.le_induction with
      | base => exact hstep N le_rfl
      | succ n hle ih =>
        have hps : Alike (ps ++ (ps ++ expandTimes E N [u] ++ qs) ++ qs) (ps ++ expandTimes E N [u] ++ qs) := by
          have hdouble : Alike (ps ++ ps) ps := alike_append_of_subset fun _ h => h
          have hlast : Alike (ps ++ ps ++ expandTimes E N [u] ++ qs ++ qs) (ps ++ ps ++ expandTimes E N [u] ++ qs) :=
            alike_append_of_subset fun _ h => List.mem_append_right _ h
          simp only [← List.append_assoc]
          exact hlast.trans ((hdouble.append rfl).append rfl)
        have hrest : Alike (ps ++ expandTimes E n [u] ++ qs) (ps ++ (ps ++ expandTimes E N [u] ++ qs) ++ qs) :=
          Alike.append (Alike.append rfl ih) rfl
        exact (hstep n (by omega)).trans (hrest.trans hps)
    · have hless : ∀ x ∈ E u, μ x < μ u := fun x hx => (hE u x hx).resolve_left fun heq => hself (heq ▸ hx)
      obtain ⟨zs, hzs⟩ := exists_eventually_alike_expandTimes_of_mem fun x hx => hsmall x (hless x hx)
      refine ⟨zs, ?_⟩
      obtain ⟨N, hN⟩ := eventually_atTop.1 hzs
      refine eventually_atTop.2 ⟨N + 1, fun n hle => ?_⟩
      obtain ⟨n, rfl⟩ : ∃ k, n = k + 1 := ⟨n - 1, by omega⟩
      rw [expandTimes, List.flatMap_singleton]
      exact hN n (by omega)

end Expand

/-- A list settles if from some time on all its elements are replaced, by themselves and smaller ones. -/
theorem exists_eventually_eq_of_flatMap {E : α → List α} {μ : α → Nat} {L : Nat → List α}
    (hE : ∀ u, ∀ x ∈ E u, x = u ∨ μ x < μ u)
    (hL : ∀ᶠ k in atTop, L (k + 1) = ((L k).flatMap E).eraseDups) : ∃ N, ∀ᶠ k in atTop, L k = N := by
  obtain ⟨K, hK⟩ := eventually_atTop.1 hL
  have hE' : ∀ u, ∀ x ∈ (E u).eraseDups, x = u ∨ μ x < μ u := fun u x hx => hE u x (List.mem_eraseDups.1 hx)
  obtain ⟨N, hN⟩ := exists_eventually_alike_expandTimes_of_mem fun x (_ : x ∈ L (K + 1)) =>
    exists_eventually_alike_expandTimes (E := fun u => (E u).eraseDups) hE' (fun u => nodup_eraseDups (E u)) x
  have hrun : ∀ n, L (K + 1 + n) = (expandTimes (fun u => (E u).eraseDups) n (L (K + 1))).eraseDups := by
    intro n
    induction n with
    | zero =>
      refine (eraseDups_eq_self ?_).symm
      rw [hK K le_rfl]
      exact nodup_eraseDups _
    | succ n ih =>
      rw [← Nat.add_assoc, hK _ (by omega), expandTimes_succ, ih]
      refine (alike_flatMap_eraseDups E _).trans (Alike.flatMap fun u _ => ?_)
      exact (alike_eraseDups (E u)).symm
  obtain ⟨M, hM⟩ := eventually_atTop.1 hN
  refine ⟨N.eraseDups, eventually_atTop.2 ⟨K + 1 + M, fun k hk => ?_⟩⟩
  obtain ⟨n, rfl⟩ : ∃ n, k = K + 1 + n := ⟨k - (K + 1), by omega⟩
  rw [hrun]
  exact hM n (by omega)

end GameCircuit
