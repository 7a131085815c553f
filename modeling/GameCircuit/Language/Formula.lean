import GameCircuit.Language.Term

/-!
# Formulas

The expressions of a game description: an atom, a rule `head <= body`, a negation or a disjunction.
A description is a list of atoms and rules, and the body of a rule is built from atoms with negation
and disjunction; the type also admits what a description may not hold, such as a rule inside a body,
so that checks can refuse it.
-/

namespace GameCircuit

/-- An expression of the game language over the names `ν`. -/
inductive Formula (ν : Type) where
  /-- An atom: at the top of a description, a fact. -/
  | atom (a : Atom ν)
  /-- A rule: the head follows from the body. -/
  | rule (head : Atom ν) (body : List (Formula ν))
  /-- A negation. -/
  | neg (φ : Formula ν)
  /-- A disjunction of any number of alternatives. -/
  | disj (alternatives : List (Formula ν))
deriving Inhabited

namespace Formula

variable {ν μ : Type} {β : Type}

mutual

/-- Replaces atoms, rules, negations and disjunctions by the given functions. -/
def fold (atom : Atom ν → β) (rule : Atom ν → List β → β) (neg : β → β) (disj : List β → β) :
    Formula ν → β
  | .atom a => atom a
  | .rule head body => rule head (foldAll atom rule neg disj body)
  | .neg φ => neg (fold atom rule neg disj φ)
  | .disj φs => disj (foldAll atom rule neg disj φs)

/-- Folds each formula of a list. -/
def foldAll (atom : Atom ν → β) (rule : Atom ν → List β → β) (neg : β → β) (disj : List β → β) :
    List (Formula ν) → List β
  | [] => []
  | φ :: φs => fold atom rule neg disj φ :: foldAll atom rule neg disj φs

end

section Fold

variable (atom : Atom ν → β) (rule : Atom ν → List β → β) (neg : β → β) (disj : List β → β)

theorem foldAll_eq_map (φs : List (Formula ν)) :
    foldAll atom rule neg disj φs = φs.map (fold atom rule neg disj) := by
  induction φs with
  | nil => rfl
  | cons φ φs ih => simp [foldAll, ih]

@[simp] theorem fold_atom (a : Atom ν) : fold atom rule neg disj (.atom a) = atom a := rfl

@[simp] theorem fold_rule (head : Atom ν) (body : List (Formula ν)) :
    fold atom rule neg disj (.rule head body) =
      rule head (body.map (fold atom rule neg disj)) := by
  rw [fold, foldAll_eq_map]

@[simp] theorem fold_neg (φ : Formula ν) :
    fold atom rule neg disj (.neg φ) = neg (fold atom rule neg disj φ) := rfl

@[simp] theorem fold_disj (φs : List (Formula ν)) :
    fold atom rule neg disj (.disj φs) = disj (φs.map (fold atom rule neg disj)) := by
  rw [fold, foldAll_eq_map]

end Fold

mutual

/-- Formulas can be compared when names can. -/
def decEq [DecidableEq ν] : (φ ψ : Formula ν) → Decidable (φ = ψ)
  | .atom a, .atom b => if h : a = b then isTrue (h ▸ rfl) else isFalse (by simpa using h)
  | .rule a φs, .rule b ψs =>
    if h : a = b then
      match decEqAll φs ψs with
      | isTrue h' => isTrue (h ▸ h' ▸ rfl)
      | isFalse h' => isFalse (by simp [h'])
    else isFalse (by simp [h])
  | .neg φ, .neg ψ =>
    match decEq φ ψ with
    | isTrue h => isTrue (h ▸ rfl)
    | isFalse h => isFalse (by simpa using h)
  | .disj φs, .disj ψs =>
    match decEqAll φs ψs with
    | isTrue h => isTrue (h ▸ rfl)
    | isFalse h => isFalse (by simpa using h)
  | .atom _, .rule _ _ => isFalse (by simp)
  | .atom _, .neg _ => isFalse (by simp)
  | .atom _, .disj _ => isFalse (by simp)
  | .rule _ _, .atom _ => isFalse (by simp)
  | .rule _ _, .neg _ => isFalse (by simp)
  | .rule _ _, .disj _ => isFalse (by simp)
  | .neg _, .atom _ => isFalse (by simp)
  | .neg _, .rule _ _ => isFalse (by simp)
  | .neg _, .disj _ => isFalse (by simp)
  | .disj _, .atom _ => isFalse (by simp)
  | .disj _, .rule _ _ => isFalse (by simp)
  | .disj _, .neg _ => isFalse (by simp)

/-- Lists of formulas can be compared when names can. -/
def decEqAll [DecidableEq ν] : (φs ψs : List (Formula ν)) → Decidable (φs = ψs)
  | [], [] => isTrue rfl
  | φ :: φs, ψ :: ψs =>
    match decEq φ ψ with
    | isTrue h =>
      match decEqAll φs ψs with
      | isTrue h' => isTrue (h ▸ h' ▸ rfl)
      | isFalse h' => isFalse (by simp [h'])
    | isFalse h => isFalse (by simp [h])
  | [], _ :: _ => isFalse (by simp)
  | _ :: _, [] => isFalse (by simp)

end

instance [DecidableEq ν] : DecidableEq (Formula ν) := decEq

/-- Induction on formulas, with the hypothesis for each part of a body or a disjunction. -/
@[elab_as_elim, induction_eliminator]
theorem induct {motive : Formula ν → Prop} (atom : ∀ a, motive (.atom a))
    (rule : ∀ head body, (∀ φ ∈ body, motive φ) → motive (.rule head body))
    (neg : ∀ φ, motive φ → motive (.neg φ))
    (disj : ∀ φs, (∀ φ ∈ φs, motive φ) → motive (.disj φs)) (φ : Formula ν) : motive φ :=
  @Formula.rec ν motive (fun φs => ∀ φ ∈ φs, motive φ) atom rule neg disj (by simp)
    (fun _ _ h hs => by simpa using ⟨h, hs⟩) φ

/-! ## Names, variables and substitution -/

/-- Renames every relation, constant, variable and function. -/
def map (g : ν → μ) : Formula ν → Formula μ :=
  fold (fun a => .atom (a.map g)) (fun head body => .rule (head.map g) body) .neg .disj

/-- The atoms of a formula, in order. -/
def atoms : Formula ν → List (Atom ν) :=
  fold (fun a => [a]) (fun head body => head :: body.flatten) id List.flatten

/-- The variables of a formula, in order and as often as they occur. -/
def vars (φ : Formula ν) : List ν := φ.atoms.flatMap Atom.vars

/-- The formula holds no variable. -/
def isGround (φ : Formula ν) : Bool := φ.vars.isEmpty

/-- Replaces each variable `x` by the term `σ x`, all at once. -/
def subst (σ : ν → Term ν) : Formula ν → Formula ν :=
  fold (fun a => .atom (a.subst σ)) (fun head body => .rule (head.subst σ) body) .neg .disj

/-- Replaces every function without arguments by the constant of that name. -/
def collapse : Formula ν → Formula ν :=
  fold (fun a => .atom a.collapse) (fun head body => .rule head.collapse body) .neg .disj

/-- What a formula concludes: the atom itself, or the head of a rule. -/
def head? : Formula ν → Option (Atom ν)
  | .atom a => some a
  | .rule head _ => some head
  | .neg _ | .disj _ => none

/-- The conditions of a rule, and none of any other formula. -/
def body : Formula ν → List (Formula ν)
  | .rule _ body => body
  | .atom _ | .neg _ | .disj _ => []

end Formula

/-- A rule taken apart: what it concludes, and from what. -/
structure Clause (ν : Type) where
  /-- What the rule concludes. -/
  head : Atom ν
  /-- The conditions, all of which have to hold. -/
  body : List (Formula ν)
deriving DecidableEq, Inhabited

namespace Clause

variable {ν : Type}

/-- The rule as a formula. -/
def toFormula (c : Clause ν) : Formula ν := .rule c.head c.body

/-- The variables of a rule, each once, in the order in which they first occur. -/
def vars [DecidableEq ν] (c : Clause ν) : List ν := c.toFormula.vars.eraseDups

/-- Replaces each variable `x` by the term `σ x`, all at once. -/
def subst (σ : ν → Term ν) (c : Clause ν) : Clause ν :=
  ⟨c.head.subst σ, c.body.map (Formula.subst σ)⟩

end Clause

end GameCircuit
