/-!
# Terms and atoms

A term is a constant, a variable, or a function applied to terms; an atom is a relation applied to
terms.  The type of names is a parameter: text is read into terms over `String`, and the rest of the
library works on terms over `Symbol`.

Functions on terms are given by `Term.fold`, which replaces each constructor by a function;
`Term.fold_app` is the equation that proofs use.
-/

namespace GameCircuit

/-- A term over the names `ν`. -/
inductive Term (ν : Type) where
  /-- A constant. -/
  | const (c : ν)
  /-- A variable. -/
  | var (x : ν)
  /-- A function and its arguments.  A function without arguments is not a constant. -/
  | app (f : ν) (args : List (Term ν))
deriving Inhabited

namespace Term

variable {ν μ : Type} {β : Type}

mutual

/-- Replaces constants, variables and applications by the given functions. -/
def fold (const var : ν → β) (app : ν → List β → β) : Term ν → β
  | .const c => const c
  | .var x => var x
  | .app f ts => app f (foldAll const var app ts)

/-- Folds each term of a list. -/
def foldAll (const var : ν → β) (app : ν → List β → β) : List (Term ν) → List β
  | [] => []
  | t :: ts => fold const var app t :: foldAll const var app ts

end

theorem foldAll_eq_map (const var : ν → β) (app : ν → List β → β) (ts : List (Term ν)) :
    foldAll const var app ts = ts.map (fold const var app) := by
  induction ts with
  | nil => rfl
  | cons t ts ih => simp [foldAll, ih]

@[simp] theorem fold_const (const var : ν → β) (app : ν → List β → β) (c : ν) :
    fold const var app (.const c) = const c := rfl

@[simp] theorem fold_var (const var : ν → β) (app : ν → List β → β) (x : ν) :
    fold const var app (.var x) = var x := rfl

@[simp] theorem fold_app (const var : ν → β) (app : ν → List β → β) (f : ν) (ts : List (Term ν)) :
    fold const var app (.app f ts) = app f (ts.map (fold const var app)) := by
  rw [fold, foldAll_eq_map]

mutual

/-- Terms can be compared when names can. -/
def decEq [DecidableEq ν] : (s t : Term ν) → Decidable (s = t)
  | .const a, .const b => if h : a = b then isTrue (h ▸ rfl) else isFalse (by simpa using h)
  | .var a, .var b => if h : a = b then isTrue (h ▸ rfl) else isFalse (by simpa using h)
  | .app f ss, .app g ts =>
    if h : f = g then
      match decEqAll ss ts with
      | isTrue h' => isTrue (h ▸ h' ▸ rfl)
      | isFalse h' => isFalse (by simp [h'])
    else isFalse (by simp [h])
  | .const _, .var _ => isFalse (by simp)
  | .const _, .app _ _ => isFalse (by simp)
  | .var _, .const _ => isFalse (by simp)
  | .var _, .app _ _ => isFalse (by simp)
  | .app _ _, .const _ => isFalse (by simp)
  | .app _ _, .var _ => isFalse (by simp)

/-- Lists of terms can be compared when names can. -/
def decEqAll [DecidableEq ν] : (ss ts : List (Term ν)) → Decidable (ss = ts)
  | [], [] => isTrue rfl
  | s :: ss, t :: ts =>
    match decEq s t with
    | isTrue h =>
      match decEqAll ss ts with
      | isTrue h' => isTrue (h ▸ h' ▸ rfl)
      | isFalse h' => isFalse (by simp [h'])
    | isFalse h => isFalse (by simp [h])
  | [], _ :: _ => isFalse (by simp)
  | _ :: _, [] => isFalse (by simp)

end

instance [DecidableEq ν] : DecidableEq (Term ν) := decEq

/-- Induction on terms, with the hypothesis for each argument of an application. -/
@[elab_as_elim, induction_eliminator]
theorem induct {motive : Term ν → Prop} (const : ∀ c, motive (.const c))
    (var : ∀ x, motive (.var x))
    (app : ∀ f args, (∀ t ∈ args, motive t) → motive (.app f args)) (t : Term ν) : motive t :=
  @Term.rec ν motive (fun ts => ∀ t ∈ ts, motive t) const var app (by simp)
    (fun _ _ ht hts => by simpa using ⟨ht, hts⟩) t

/-! ## Names, variables and substitution -/

/-- Renames every constant, variable and function. -/
def map (g : ν → μ) : Term ν → Term μ :=
  fold (fun c => .const (g c)) (fun x => .var (g x)) (fun f ts => .app (g f) ts)

/-- The variables of a term, in order and as often as they occur. -/
def vars : Term ν → List ν := fold (fun _ => []) (fun x => [x]) (fun _ vs => vs.flatten)

/-- The term holds no variable. -/
def isGround (t : Term ν) : Bool := t.vars.isEmpty

/-- Replaces each variable `x` by the term `σ x`, all at once. -/
def subst (σ : ν → Term ν) : Term ν → Term ν := fold .const σ .app

/-- The substitution that replaces `x` by `t` and leaves other variables alone. -/
def single [DecidableEq ν] (x : ν) (t : Term ν) : ν → Term ν := fun y => if y = x then t else .var y

/-- The substitution that first acts as `σ` and then as `τ`. -/
def andThen (σ τ : ν → Term ν) : ν → Term ν := fun x => (σ x).subst τ

/-- The substitution given by pairs of a variable and a term, of which the last for a variable
counts. -/
def ofPairs [DecidableEq ν] : List (ν × Term ν) → ν → Term ν
  | [], x => .var x
  | (y, t) :: pairs, x => if x = y ∧ x ∉ pairs.map Prod.fst then t else ofPairs pairs x

/-- Replaces every function without arguments by the constant of that name. -/
def collapse : Term ν → Term ν :=
  fold .const .var fun f ts => if ts.isEmpty then .const f else .app f ts

end Term

/-! ## Atoms -/

/-- A relation and its arguments. -/
structure Atom (ν : Type) where
  /-- The relation. -/
  relation : ν
  /-- The arguments. -/
  args : List (Term ν)
deriving DecidableEq, Inhabited

namespace Atom

variable {ν μ : Type}

/-- Renames the relation and everything in the arguments. -/
def map (g : ν → μ) (a : Atom ν) : Atom μ := ⟨g a.relation, a.args.map (Term.map g)⟩

/-- The number of arguments. -/
def arity (a : Atom ν) : Nat := a.args.length

/-- The variables of an atom, in order and as often as they occur. -/
def vars (a : Atom ν) : List ν := a.args.flatMap Term.vars

/-- The atom holds no variable. -/
def isGround (a : Atom ν) : Bool := a.vars.isEmpty

/-- Replaces each variable `x` by the term `σ x`, all at once. -/
def subst (σ : ν → Term ν) (a : Atom ν) : Atom ν := ⟨a.relation, a.args.map (Term.subst σ)⟩

/-- Replaces every function without arguments by the constant of that name. -/
def collapse (a : Atom ν) : Atom ν := ⟨a.relation, a.args.map Term.collapse⟩

end Atom

end GameCircuit
