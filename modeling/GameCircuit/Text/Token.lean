import GameCircuit.Text.Lexeme

/-!
# Tokens

Lexemes with matching brackets put together.
-/

namespace GameCircuit.Text

/-- A lexeme, or everything between two matching brackets. -/
inductive Token where
  /-- A word. -/
  | word (name : String)
  /-- A mark, and whether another one follows at once. -/
  | mark (c : Char) (joint : Bool)
  /-- An integer without its sign. -/
  | integer (value : Nat)
  /-- What rule text has no use for. -/
  | other
  /-- What stands between two brackets. -/
  | group (b : Bracket) (content : List Token)

/-- Puts the tokens together, where `outer` are the groups that are still open, the innermost first,
each with what stands in front of it, and `done` are the tokens of the innermost group, the last
first. -/
def nest (outer : List (Bracket × List Token)) (done : List Token) :
    List Lexeme → Option (List Token)
  | [] => if outer.isEmpty then some done.reverse else none
  | .word name :: ls => nest outer (.word name :: done) ls
  | .mark c joint :: ls => nest outer (.mark c joint :: done) ls
  | .integer value :: ls => nest outer (.integer value :: done) ls
  | .other :: ls => nest outer (.other :: done) ls
  | .opening b :: ls => nest ((b, done) :: outer) [] ls
  | .closing b :: ls =>
    match outer with
    | [] => none
    | (b', before) :: outer =>
      if b = b' then nest outer (.group b done.reverse :: before) ls else none

/-- The tokens of a text, if all of it can be cut into lexemes and its brackets match. -/
def tokens (cs : List Char) : Option (List Token) := (lexemes cs).bind (nest [] [])

end GameCircuit.Text
