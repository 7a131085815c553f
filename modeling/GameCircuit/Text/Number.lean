import GameCircuit.Text.Quoted

/-!
# Numbers

An integer is written in base ten, or behind `0x`, `0o` and `0b` in base 16, 8 and 2.  Underscores
between digits and a word right behind the digits mean nothing.  A number with a point or an
exponent is recognized only to be refused.
-/

namespace GameCircuit.Text

/-- The base of an integer, and its characters behind the mark of the base. -/
def integerBase : List Char → Nat × List Char
  | '0' :: 'x' :: cs => (16, cs)
  | '0' :: 'o' :: cs => (8, cs)
  | '0' :: 'b' :: cs => (2, cs)
  | cs => (10, cs)

/-- Reads digits onto `value?`, which is `none` before the first.  Fails at a decimal digit that the
base does not have, and at an underscore in front of the digits in base ten. -/
def digits (base : Nat) (value? : Option Nat) : List Char → Option (Nat × List Char)
  | [] => value?.map (·, [])
  | c :: cs =>
    if isHexDigit c && decide (hexValue c < base) then
      digits base (some (value?.getD 0 * base + hexValue c)) cs
    else if c.isDigit then none
    else if c == '_' then
      if value?.isNone && base == 10 then none else digits base value? cs
    else value?.map (·, c :: cs)

/-- Fails where a word goes on. -/
def wordBreak : List Char → Option (List Char)
  | [] => some []
  | c :: cs => if isWordPart c then none else some (c :: cs)

/-- Recognizes an integer and gives its value. -/
def integer (cs : List Char) : Option (Nat × List Char) :=
  let (base, cs) := integerBase cs
  match digits base none cs with
  | none => none
  | some (value, cs) => (wordBreak (dropWord cs)).map (value, ·)

/-- Recognizes an exponent behind its `e`: digits, perhaps with a sign in front and underscores. -/
def exponent (signed valued : Bool) : List Char → Option (List Char)
  | [] => if valued then some [] else none
  | c :: cs =>
    if c == '+' || c == '-' then
      if valued then some (c :: cs)
      else if signed then none
      else exponent true valued cs
    else if c.isDigit then exponent signed true cs
    else if c == '_' then exponent signed valued cs
    else if valued then some (c :: cs)
    else none

/-- Recognizes the rest of a number with a point or an exponent, where `point` tells whether the
point was passed.  A point may not be followed by a second one or by a word. -/
def decimalRest (point : Bool) : List Char → Option (List Char)
  | [] => if point then some [] else none
  | c :: cs =>
    if c.isDigit || c == '_' then decimalRest point cs
    else if c == '.' && !point then
      match cs with
      | [] => some []
      | d :: _ => if d == '.' || isWordStart d then none else decimalRest true cs
    else if c == 'e' || c == 'E' then
      match exponent false false cs with
      | some cs => some cs
      | none => if point then some (c :: cs) else none
    else if point then some (c :: cs)
    else none

/-- Recognizes a number with a point or an exponent. -/
def decimal (cs : List Char) : Option (List Char) :=
  match cs with
  | c :: cs =>
    if c.isDigit then (decimalRest false cs).bind fun cs => wordBreak (dropWord cs) else none
  | [] => none

end GameCircuit.Text
