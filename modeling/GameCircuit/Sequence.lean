/-!
# Sequences

Operations on lists and arrays that the rest of the library shares.
-/

namespace GameCircuit

variable {α β ε σ : Type}

/-- Appends an element, if it is new. -/
def appendNew [BEq α] (as : List α) (a : α) : List α := if as.contains a then as else as ++ [a]

/-- Runs the function on each element and puts the results behind those that are there; the first
error ends it. -/
def collectOnto (f : α → Except ε (List β)) (done : Array β) : List α → Except ε (List β)
  | [] => .ok done.toList
  | a :: as =>
    match f a with
    | .error e => .error e
    | .ok bs => collectOnto f (done ++ bs) as

/-- Runs the function on each element and puts the results together; the first error ends it. -/
def collect (f : α → Except ε (List β)) (as : List α) : Except ε (List β) := collectOnto f #[] as

theorem collectOnto_eq (f : α → Except ε (List β)) (done : Array β) (as : List α) :
    collectOnto f done as = (done.toList ++ ·) <$> collect f as := by
  induction as generalizing done with
  | nil => simp [collectOnto, collect, Functor.map, Except.map]
  | cons a as ih =>
    simp only [collectOnto, collect]
    cases f a with
    | error e => rfl
    | ok bs =>
      simp only [ih]
      cases collect f as with
      | error e => rfl
      | ok cs => simp [Functor.map, Except.map]

@[simp] theorem collect_nil (f : α → Except ε (List β)) : collect f [] = .ok [] := rfl

theorem collect_cons (f : α → Except ε (List β)) (a : α) (as : List α) :
    collect f (a :: as) =
      match f a with
      | .error e => .error e
      | .ok bs => (bs ++ ·) <$> collect f as := by
  simp only [collect, collectOnto]
  cases f a with
  | error e => rfl
  | ok bs => simp [collectOnto_eq]

/-- Runs the step on each element in turn, each on the state that the one before leaves, up to the
first error; the state that the failing step leaves is kept. -/
def runAll (step : σ → α → σ × Option ε) (s : σ) : List α → σ × Option ε
  | [] => (s, none)
  | a :: as =>
    match step s a with
    | (s, none) => runAll step s as
    | (s, some e) => (s, some e)

/-- Runs the step on each element in turn, each on the state that the one before leaves; the first
error ends it. -/
def foldSteps (step : σ → α → Except ε σ) (s : σ) : List α → Except ε σ
  | [] => .ok s
  | a :: as =>
    match step s a with
    | .ok s => foldSteps step s as
    | .error e => .error e

end GameCircuit
