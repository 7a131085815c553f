import GameCircuit.Text.Number

/-!
# Lexemes

Rule text is cut into words, marks, integers and brackets; blanks and comments between them are
dropped.  What rule text has no use for, quoted texts and numbers with a point among them, is one
more lexeme, which the reader refuses wherever it stands.

A word may carry `r#` in front, which is part of its name.  A mark is *joint* if another follows it
without a blank, since `<=` is one sign only if its marks are joint.  A variable is a joint `'` and
a word.
-/

namespace GameCircuit.Text

/-- The three kinds of brackets. -/
inductive Bracket where
  /-- Parentheses, `(` and `)`. -/
  | round
  /-- Brackets, `[` and `]`. -/
  | square
  /-- Curly brackets. -/
  | curly
deriving DecidableEq

/-- A piece of rule text. -/
inductive Lexeme where
  /-- A word. -/
  | word (name : String)
  /-- A mark, and whether another one follows at once. -/
  | mark (c : Char) (joint : Bool)
  /-- An integer without its sign. -/
  | integer (value : Nat)
  /-- What rule text has no use for. -/
  | other
  /-- An opening bracket. -/
  | opening (b : Bracket)
  /-- A closing bracket. -/
  | closing (b : Bracket)
deriving DecidableEq

/-! ## Words and marks -/

/-- Recognizes a word without `r#` in front. -/
def plainWord : List Char → Option (String × List Char)
  | [] => none
  | c :: cs =>
    if isWordStart c then
      some (String.ofList (c :: cs.takeWhile isWordPart), cs.dropWhile isWordPart)
    else none

/-- The words that may not stand behind `r#`. -/
def unescapable : List String := ["_", "super", "self", "Self", "crate"]

/-- Recognizes a word. -/
def anyWord (cs : List Char) : Option (String × List Char) :=
  match cs with
  | 'r' :: '#' :: cs =>
    match plainWord cs with
    | some (name, cs) => if name ∈ unescapable then none else some ("r#" ++ name, cs)
    | none => none
  | cs => plainWord cs

/-- The beginnings that are kept for quoted texts. -/
def quoteStarts : List String :=
  ["r\"", "r#\"", "r##", "b\"", "b'", "br\"", "br#", "c\"", "cr\"", "cr#"]

/-- Recognizes a word that does not begin like a quoted text. -/
def word (cs : List Char) : Option (Lexeme × List Char) :=
  if quoteStarts.any (beginsWith cs) then none
  else
    match anyWord cs with
    | some (name, cs) => some (.word name, cs)
    | none => none

/-- The marks of rule text. -/
def isMark (c : Char) : Bool := "~!@#$%^&*-=+|;:,<.>/?'".toList.contains c

/-- The characters begin with a mark that does not begin a comment. -/
def atMark (cs : List Char) : Bool :=
  match cs with
  | [] => false
  | c :: _ => isMark c && !beginsWith cs "//" && !beginsWith cs "/*"

/-- The word that follows `'` is the name of a variable: no quote closes it. -/
def endsVariable (start rest : List Char) : Bool :=
  match rest with
  | '\'' :: _ => false
  | '#' :: _ => beginsWith start "r#"
  | _ => true

/-- Recognizes a mark. -/
def mark (cs : List Char) : Option (Lexeme × List Char) :=
  match cs with
  | [] => none
  | c :: cs' =>
    if !atMark cs then none
    else if c == '\'' then
      match anyWord cs' with
      | some (_, rest) => if endsVariable cs' rest then some (.mark c true, cs') else none
      | none => none
    else some (.mark c (atMark cs'), cs')

/-- Recognizes a quoted text, a quoted character or a number. -/
def literal (cs : List Char) : Option (Lexeme × List Char) :=
  match quotedText cs with
  | some rest => some (.other, rest)
  | none =>
    match quotedCharacter cs with
    | some rest => some (.other, rest)
    | none =>
      match decimal cs with
      | some rest => some (.other, rest)
      | none =>
        match integer cs with
        | some (value, rest) => some (.integer value, rest)
        | none => none

/-! ## Comments -/

/-- Recognizes the rest of a comment in which `depth` further comments are open. -/
def commentRest : (depth : Nat) → List Char → Option (List Char)
  | _, [] => none
  | depth, '/' :: '*' :: cs => commentRest (depth + 1) cs
  | 0, '*' :: '/' :: cs => some cs
  | depth + 1, '*' :: '/' :: cs => commentRest depth cs
  | depth, _ :: cs => commentRest depth cs

/-- Recognizes a comment between `/*` and `*/`. -/
def comment : List Char → Option (List Char)
  | '/' :: '*' :: cs => commentRest 0 cs
  | _ => none

/-- There is a carriage return that no line feed follows. -/
def hasLoneReturn : List Char → Bool
  | [] => false
  | ['\r'] => true
  | '\r' :: c :: cs => c != '\n' || hasLoneReturn (c :: cs)
  | _ :: cs => hasLoneReturn cs

/-- The characters from the end of the line on. -/
def dropLine (cs : List Char) : List Char := cs.dropWhile (· != '\n')

/-- The characters of a line, without a carriage return at its end. -/
def takeLine : List Char → List Char
  | [] => []
  | '\n' :: _ => []
  | '\r' :: '\n' :: _ => []
  | c :: cs => c :: takeLine cs

/-- What a comment is. -/
inductive Remark where
  /-- It says nothing. -/
  | plain
  /-- It documents what follows, which rule text has no use for. -/
  | documentation
deriving DecidableEq

/-- Recognizes a comment. -/
def remark (cs : List Char) : Option (Remark × List Char) :=
  if beginsWith cs "//!" || (beginsWith cs "///" && !beginsWith cs "////") then
    if hasLoneReturn (takeLine cs) then none else some (.documentation, dropLine cs)
  else if beginsWith cs "//" then some (.plain, dropLine cs)
  else if beginsWith cs "/**/" then some (.plain, cs.drop 4)
  else
    match comment cs with
    | none => none
    | some rest =>
      if beginsWith cs "/*!" || (beginsWith cs "/**" && !beginsWith cs "/***") then
        if hasLoneReturn (cs.take (cs.length - rest.length)) then none
        else some (.documentation, rest)
      else some (.plain, rest)

/-! ## Cutting -/

/-- What stands for an expression that could not be read elsewhere; it is no bracket. -/
def errorMark : String := "(/*ERROR*/)"

/-- Recognizes a lexeme. -/
def lexeme (cs : List Char) : Option (Lexeme × List Char) :=
  match cs with
  | [] => none
  | c :: cs' =>
    if c == '(' then
      if beginsWith cs errorMark then some (.other, cs.drop errorMark.length)
      else some (.opening .round, cs')
    else if c == ')' then some (.closing .round, cs')
    else if c == '[' then some (.opening .square, cs')
    else if c == ']' then some (.closing .square, cs')
    else if c == '\x7b' then some (.opening .curly, cs')
    else if c == '\x7d' then some (.closing .curly, cs')
    else
      match literal cs with
      | some found => some found
      | none =>
        match mark cs with
        | some found => some found
        | none => word cs

/-- Cuts at most `fuel` pieces off the text, which have to be all of it. -/
def cutUpTo : (fuel : Nat) → List Char → Option (List Lexeme)
  | _, [] => some []
  | 0, _ :: _ => none
  | fuel + 1, c :: cs =>
    if isBlank c then cutUpTo fuel cs
    else
      match remark (c :: cs) with
      | some (.plain, rest) => cutUpTo fuel rest
      | some (.documentation, rest) => (cutUpTo fuel rest).map (.other :: ·)
      | none =>
        match lexeme (c :: cs) with
        | some (l, rest) => (cutUpTo fuel rest).map (l :: ·)
        | none => none

/-- Cuts a text into lexemes. -/
def lexemes (cs : List Char) : Option (List Lexeme) := cutUpTo cs.length cs

end GameCircuit.Text
