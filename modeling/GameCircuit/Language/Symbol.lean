import GameCircuit.Collection.OrderedSet

/-!
# Symbols and the lexicon

A game description speaks about relations, functions, constants and variables by name.  A
`Lexicon` numbers the names in the order in which they are first met, and a `Symbol` is such a
number.  Every lexicon begins with the fourteen names that the game language itself gives a
meaning to, so the symbols in the namespace `Keyword` mean the same in all of them.

A lexicon is an ordered set, so no name is numbered twice; it carries a proof that the keywords come
first.
-/

namespace GameCircuit

/-- A name, as its number in a `Lexicon`. -/
structure Symbol where
  /-- The position of the name in the lexicon. -/
  handle : Nat
deriving DecidableEq, Inhabited

namespace Symbol

/-- How a symbol is written where no lexicon is at hand. -/
def mark (s : Symbol) : String := "$" ++ toString s.handle

end Symbol

/-! ## Keywords -/

namespace Keyword

/-- The names that every lexicon begins with. -/
def names : List String :=
  ["role", "init", "true", "next", "legal", "does", "goal", "terminal", "distinct", "base", "input",
    "INIT", "anon", "disjunct"]

/-- In `role(r)`, `r` is a player. -/
def role : Symbol := ⟨0⟩

/-- In `init(x)`, `x` holds at the start. -/
def init : Symbol := ⟨1⟩

/-- In `true(x)`, `x` holds in the current state. -/
def holds : Symbol := ⟨2⟩

/-- In `next(x)`, `x` holds in the state after this one. -/
def next : Symbol := ⟨3⟩

/-- In `legal(r, m)`, player `r` may make the move `m`. -/
def legal : Symbol := ⟨4⟩

/-- In `does(r, m)`, player `r` makes the move `m`. -/
def does : Symbol := ⟨5⟩

/-- In `goal(r, n)`, the state is worth `n` to player `r`. -/
def goal : Symbol := ⟨6⟩

/-- The game is over. -/
def terminal : Symbol := ⟨7⟩

/-- In `distinct(s, t)`, the terms `s` and `t` differ. -/
def distinct : Symbol := ⟨8⟩

/-- In `base(x)`, `x` may hold in a state. -/
def base : Symbol := ⟨9⟩

/-- In `input(r, m)`, player `r` may at some time make the move `m`. -/
def input : Symbol := ⟨10⟩

/-- The proposition that is true before the first state only. -/
def start : Symbol := ⟨11⟩

/-- The name of propositions that no atom of the rules stands for. -/
def anonymous : Symbol := ⟨12⟩

/-- The name of propositions that stand for one source of a proposition with several. -/
def disjunct : Symbol := ⟨13⟩

/-- All keywords, in the order of `names`. -/
def all : List Symbol :=
  [role, init, holds, next, legal, does, goal, terminal, distinct, base, input, start, anonymous,
    disjunct]

end Keyword

namespace Symbol

/-- The relations whose argument is a part of a game state. -/
def isStateRelation (s : Symbol) : Bool :=
  s = Keyword.holds || s = Keyword.next || s = Keyword.init || s = Keyword.base

/-- Relations that share their tuples are named by one of them: a legal move may be made, and what
holds at the start or next may hold in a state. -/
def canonical (s : Symbol) : Symbol :=
  if s = Keyword.legal then Keyword.does
  else if s = Keyword.next || s = Keyword.init then Keyword.holds
  else s

end Symbol

/-! ## The lexicon -/

/-- Names are told apart by their characters. -/
instance : Keyed String where
  key name := name.toList.map Char.toNat
  key_injective h :=
    String.toList_inj.1 (List.map_inj_right (fun _ _ => Char.toNat_inj.1) |>.1 h)

/-- The names in use, each at the position that its symbol gives. -/
structure Lexicon where
  /-- The names, in the order in which they were first met. -/
  names : OrderedSet String
  /-- The keywords stand first. -/
  keywords_le : Keyword.names <+: names.toList

namespace Lexicon

/-- The lexicon that knows the keywords only. -/
def initial : Lexicon where
  names := .ofList Keyword.names
  keywords_le := by decide +kernel

instance : Inhabited Lexicon := ⟨initial⟩

/-- The number of names. -/
def size (l : Lexicon) : Nat := l.names.size

/-- The symbol of a name, if the name is known. -/
def find? (l : Lexicon) (name : String) : Option Symbol := (l.names.position? name).map Symbol.mk

/-- The name of a symbol, and `?` for a symbol of another lexicon. -/
def resolve (l : Lexicon) (s : Symbol) : String := l.names.items[s.handle]?.getD "?"

/-- The symbol of a name, which is numbered now if it was not before. -/
def intern (l : Lexicon) (name : String) : Symbol × Lexicon :=
  match h : l.names.position? name with
  | some i => (⟨i⟩, l)
  | none =>
    let s : Symbol := ⟨l.size⟩
    (s,
      { names := l.names.push name h
        keywords_le := by simpa using l.keywords_le.trans (List.prefix_append _ _) })

/-- The names beyond the keywords. -/
def newNames (l : Lexicon) : List String := l.names.toList.drop Keyword.names.length

end Lexicon

end GameCircuit
