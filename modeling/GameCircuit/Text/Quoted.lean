import GameCircuit.Text.Character

/-!
# Quoted texts

Rule text has no use for quoted texts and characters, but it is refused as a whole if one of them is
not well formed, so the lexer has to know where each ends.  A recognizer takes the characters from
where it starts and returns those behind what it recognizes.
-/

namespace GameCircuit.Text

/-- The characters begin with those of `start`. -/
def beginsWith (cs : List Char) (start : String) : Bool := start.toList.isPrefixOf cs

/-- Drops a word from the front, if there is one. -/
def dropWord : List Char → List Char
  | [] => []
  | c :: cs => if isWordStart c then cs.dropWhile isWordPart else c :: cs

/-- The three kinds of quoted text. -/
inductive QuoteKind where
  /-- Characters: `"text"`. -/
  | text
  /-- ASCII characters as bytes: `b"text"`. -/
  | bytes
  /-- Text that ends at a zero: `c"text"`. -/
  | zeroEnded
deriving DecidableEq

namespace QuoteKind

/-- The character may stand in the text as it is. -/
def admits : QuoteKind → Char → Bool
  | text, _ => true
  | bytes, c => c.toNat < 128
  | zeroEnded, c => c.toNat != 0

/-- The character may stand alone behind a backslash. -/
def admitsEscape (k : QuoteKind) (c : Char) : Bool :=
  c == 'n' || c == 'r' || c == 't' || c == '\\' || c == '\'' || c == '"' ||
    (k != zeroEnded && c == '0')

/-- These two digits may follow `\x`. -/
def admitsHex (k : QuoteKind) (high low : Char) : Bool :=
  isHexDigit high && isHexDigit low &&
    match k with
    | text => '0' ≤ high && high ≤ '7'
    | bytes => true
    | zeroEnded => !(high == '0' && low == '0')

end QuoteKind

/-- The number is that of a Unicode character. -/
def isScalar (n : Nat) : Bool := n < 0xD800 || (0xE000 ≤ n && n < 0x110000)

/-- Where in a quoted text a character is read. -/
inductive QuoteState where
  /-- Between characters. -/
  | plain
  /-- Behind a carriage return, which only a line feed may follow. -/
  | carriage
  /-- Behind a backslash. -/
  | escape
  /-- Behind `\x`. -/
  | hex
  /-- Behind `\x` and its first digit. -/
  | hexLow (high : Char)
  /-- Behind `\u`. -/
  | unicode
  /-- Behind `\u` and a brace, with the number and count of the digits so far. -/
  | unicodeDigits (value count : Nat)
  /-- Behind a backslash at the end of a line, where blanks are skipped. -/
  | continued
  /-- Behind a carriage return among such blanks. -/
  | continuedCarriage
deriving DecidableEq

namespace QuoteKind

/-- The state behind a character that is read between characters. -/
def next (k : QuoteKind) (c : Char) : Option QuoteState :=
  if c == '\r' then some .carriage
  else if c == '\\' then some .escape
  else if k.admits c then some .plain
  else none

/-- The state behind a character that is read behind a backslash. -/
def nextEscape (k : QuoteKind) (c : Char) : Option QuoteState :=
  if c == 'x' then some .hex
  else if c == 'u' && k != bytes then some .unicode
  else if c == '\n' then some .continued
  else if c == '\r' then some .continuedCarriage
  else if k.admitsEscape c then some .plain
  else none

/-- The state behind a character among the digits of `\u`. -/
def nextUnicode (k : QuoteKind) (value count : Nat) (c : Char) : Option QuoteState :=
  if isHexDigit c then
    if count = 6 then none else some (.unicodeDigits (value * 16 + hexValue c) (count + 1))
  else if count = 0 then none
  else if c == '_' then some (.unicodeDigits value count)
  else if c == '\x7d' then
    if isScalar value && !(k == zeroEnded && value == 0) then some .plain else none
  else none

/-- Recognizes the rest of a quoted text, its closing quote and a word right behind it. -/
def rest (k : QuoteKind) : QuoteState → List Char → Option (List Char)
  | _, [] => none
  | .plain, c :: cs =>
    if c == '"' then some (dropWord cs)
    else
      match k.next c with
      | some s => rest k s cs
      | none => none
  | .carriage, c :: cs => if c == '\n' then rest k .plain cs else none
  | .escape, c :: cs =>
    match k.nextEscape c with
    | some s => rest k s cs
    | none => none
  | .hex, c :: cs => rest k (.hexLow c) cs
  | .hexLow high, c :: cs => if k.admitsHex high c then rest k .plain cs else none
  | .unicode, c :: cs => if c == '\x7b' then rest k (.unicodeDigits 0 0) cs else none
  | .unicodeDigits value count, c :: cs =>
    match k.nextUnicode value count c with
    | some s => rest k s cs
    | none => none
  | .continued, c :: cs =>
    if c == ' ' || c == '\t' || c == '\n' then rest k .continued cs
    else if c == '\r' then rest k .continuedCarriage cs
    else if c == '"' then some (dropWord cs)
    else
      match k.next c with
      | some s => rest k s cs
      | none => none
  | .continuedCarriage, c :: cs => if c == '\n' then rest k .continued cs else none

/-- Recognizes the rest of a text without escapes, which ends at a quote and `hashes` hash signs. -/
def rawRest (k : QuoteKind) (hashes : Nat) : List Char → Option (List Char)
  | [] => none
  | c :: cs =>
    if c == '"' && (List.replicate hashes '#').isPrefixOf cs then some (dropWord (cs.drop hashes))
    else if c == '\r' then
      match cs with
      | '\n' :: cs => rawRest k hashes cs
      | _ => none
    else if k.admits c then rawRest k hashes cs
    else none

/-- Recognizes a text without escapes from its hash signs on; there may be 255 of them. -/
def raw (k : QuoteKind) (cs : List Char) : Option (List Char) :=
  let hashes := (cs.takeWhile (· == '#')).length
  match cs.drop hashes with
  | '"' :: cs => if hashes ≤ 255 then k.rawRest hashes cs else none
  | _ => none

end QuoteKind

/-- Recognizes a quoted text of any kind. -/
def quotedText (cs : List Char) : Option (List Char) :=
  match cs with
  | '"' :: cs => QuoteKind.text.rest .plain cs
  | 'r' :: cs => QuoteKind.text.raw cs
  | 'b' :: '"' :: cs => QuoteKind.bytes.rest .plain cs
  | 'b' :: 'r' :: cs => QuoteKind.bytes.raw cs
  | 'c' :: '"' :: cs => QuoteKind.zeroEnded.rest .plain cs
  | 'c' :: 'r' :: cs => QuoteKind.zeroEnded.raw cs
  | _ => none

/-- Recognizes the closing quote of a character and a word right behind it. -/
def closeCharacter : List Char → Option (List Char)
  | '\'' :: cs => some (dropWord cs)
  | _ => none

/-- Recognizes the digits and the brace behind `\u` and a brace. -/
def unicodeEscape (value count : Nat) : List Char → Option (List Char)
  | [] => none
  | c :: cs =>
    match QuoteKind.text.nextUnicode value count c with
    | some (.unicodeDigits value count) => unicodeEscape value count cs
    | some _ => some cs
    | none => none

/-- Recognizes one character, or one escape, and the closing quote behind it. -/
def quotedCharacterRest (k : QuoteKind) : List Char → Option (List Char)
  | '\\' :: 'x' :: high :: low :: cs => if k.admitsHex high low then closeCharacter cs else none
  | '\\' :: 'u' :: '\x7b' :: cs =>
    if k == .text then (unicodeEscape 0 0 cs).bind closeCharacter else none
  | '\\' :: c :: cs => if k.admitsEscape c then closeCharacter cs else none
  | c :: cs => if c != '\\' && k.admits c then closeCharacter cs else none
  | [] => none

/-- Recognizes a quoted character: `'a'` or `b'a'`. -/
def quotedCharacter (cs : List Char) : Option (List Char) :=
  match cs with
  | '\'' :: cs => quotedCharacterRest .text cs
  | 'b' :: '\'' :: cs => quotedCharacterRest .bytes cs
  | _ => none

end GameCircuit.Text
