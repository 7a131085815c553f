import GameCircuit.Language.Interning
import GameCircuit.Text.Token

/-!
# Reading rule text

Rule text is a sequence of sentences between semicolons:

    role(robot);
    next(step('y)) <= true(step('x)), succ('x, 'y);

A sentence is an atom, or an atom, `<=` and literals between commas.  A literal is an atom,
`not(literal)` or `or(literal, ..)`; `not` and `or` are atoms where no round bracket follows, and as
the head of a rule.  A term is a variable `'x`, an integer, a word, or a word and terms in round
brackets.  A comma may follow the last entry between brackets, and a semicolon the last sentence.
-/

namespace GameCircuit.Text

/-- Why text is no rule text. -/
inductive ReadError where
  /-- It does not follow the grammar. -/
  | malformed
  /-- A `not` has no literal, or more than one. -/
  | negationCount
deriving DecidableEq

namespace ReadError

/-- The words for an error, if there are any. -/
def message? : ReadError → Option String
  | malformed => none
  | negationCount => some "unexpected end of input, `not` takes exactly one literal"

end ReadError

/-! ## Terms -/

/-- How much of a term was read. -/
inductive TermState where
  /-- Nothing. -/
  | empty
  /-- A word, which arguments may follow. -/
  | word (f : String)
  /-- The mark of a variable. -/
  | quote
  /-- The sign of an integer. -/
  | minus
  /-- All of it. -/
  | full (t : Term String)

namespace TermState

/-- The state behind one more token, brackets apart. -/
def next : TermState → Token → Except ReadError TermState
  | empty, .word f => .ok (word f)
  | empty, .integer n => .ok (full (.const (toString n)))
  | empty, .mark '\'' true => .ok quote
  | empty, .mark '-' _ => .ok minus
  | quote, .word x => .ok (full (.var x))
  | minus, .integer n => .ok (full (.const ("-" ++ toString n)))
  | _, _ => .error .malformed

/-- The term that was read. -/
def term? : TermState → Option (Term String)
  | word c => some (.const c)
  | full t => some t
  | empty | quote | minus => none

/-- The terms that were read, at the end of a list. -/
def close : TermState → Except ReadError (List (Term String))
  | empty => .ok []
  | s => match s.term? with
    | some t => .ok [t]
    | none => .error .malformed

end TermState

mutual

/-- Reads terms between commas, where `s` is what was read of the first. -/
def readTerms (s : TermState) : List Token → Except ReadError (List (Term String))
  | [] => s.close
  | tok :: toks =>
    match s, tok with
    | .word f, .group .round _ => do
      let args ← readArguments tok
      readTerms (.full (.app f args)) toks
    | s, .mark ',' _ =>
      match s.term? with
      | some t => (t :: ·) <$> readTerms .empty toks
      | none => .error .malformed
    | s, tok => do
      let s ← s.next tok
      readTerms s toks
termination_by structural toks => toks

/-- Reads the terms in brackets. -/
def readArguments : Token → Except ReadError (List (Term String))
  | .group _ content => readTerms .empty content
  | _ => .error .malformed
termination_by structural tok => tok

end

/-! ## Literals -/

/-- How much of a literal was read. -/
inductive LiteralState where
  /-- Nothing. -/
  | empty
  /-- A word, which arguments may follow. -/
  | word (name : String)
  /-- All of it. -/
  | full (φ : Formula String)

namespace LiteralState

/-- The state behind one more token, brackets apart. -/
def next : LiteralState → Token → Except ReadError LiteralState
  | empty, .word name => .ok (word name)
  | _, _ => .error .malformed

/-- The literal that was read. -/
def literal? : LiteralState → Option (Formula String)
  | word name => some (.atom ⟨name, []⟩)
  | full φ => some φ
  | empty => none

end LiteralState

/-- A negation, which has to be of one literal. -/
def negationOf : List (Formula String) → Except ReadError (Formula String)
  | [φ] => .ok (.neg φ)
  | _ => .error .negationCount

mutual

/-- Reads literals between commas, where `s` is what was read of the first.  In brackets there may
be none, and a comma may stand at the end. -/
def readLiterals (inBrackets : Bool) (s : LiteralState) :
    List Token → Except ReadError (List (Formula String))
  | [] =>
    match s.literal? with
    | some φ => .ok [φ]
    | none => if inBrackets then .ok [] else .error .malformed
  | tok :: toks =>
    match s, tok with
    | .word name, .group .round _ => do
      let φ ← readConnective name tok
      readLiterals inBrackets (.full φ) toks
    | s, .mark ',' _ =>
      match s.literal? with
      | some φ => (φ :: ·) <$> readLiterals inBrackets .empty toks
      | none => .error .malformed
    | s, tok => do
      let s ← s.next tok
      readLiterals inBrackets s toks
termination_by structural toks => toks

/-- Reads the brackets behind a word: literals behind `not` and `or`, and terms behind any other. -/
def readConnective (name : String) : Token → Except ReadError (Formula String)
  | .group b content =>
    if name = "not" then do
      let φs ← readLiterals true .empty content
      negationOf φs
    else if name = "or" then .disj <$> readLiterals true .empty content
    else do
      let args ← readArguments (.group b content)
      return .atom ⟨name, args⟩
  | _ => .error .malformed
termination_by structural tok => tok

end

/-! ## Sentences -/

/-- Reads what follows the head of a sentence. -/
def readBody (head : Atom String) : List Token → Except ReadError (Formula String)
  | [] => .ok (.atom head)
  | .mark '<' true :: .mark '=' _ :: toks => .rule head <$> readLiterals false .empty toks
  | _ => .error .malformed

/-- Reads a sentence. -/
def readSentence : List Token → Except ReadError (Formula String)
  | .word relation :: .group .round content :: toks => do
    let args ← readArguments (.group .round content)
    readBody ⟨relation, args⟩ toks
  | .word relation :: toks => readBody ⟨relation, []⟩ toks
  | _ => .error .malformed

/-- The tokens between semicolons; what stands behind the last semicolon comes last. -/
def splitSentences : List Token → List (List Token)
  | [] => [[]]
  | .mark ';' _ :: toks => [] :: splitSentences toks
  | tok :: toks =>
    match splitSentences toks with
    | [] => [[tok]]
    | first :: rest => (tok :: first) :: rest

/-- Reads sentences, of which the last may be missing. -/
def readSentences : List (List Token) → Except ReadError (List (Formula String))
  | [] | [[]] => .ok []
  | toks :: rest => do
    let φ ← readSentence toks
    let φs ← readSentences rest
    return φ :: φs

/-- Reads rule text. -/
def read (cs : List Char) : Except ReadError (List (Formula String)) :=
  match tokens cs with
  | none => .error .malformed
  | some toks => readSentences (splitSentences toks)

/-- Reads rule text and turns its names into symbols. -/
def readInto (text : String) (l : Lexicon) :
    Except ReadError (List (Formula Symbol) × Lexicon) :=
  match read text.toList with
  | .error e => .error e
  | .ok φs => .ok (internAll (φs.map Formula.intern) l)

end GameCircuit.Text
