import GameCircuit.Text.Lexeme
import Mathlib.Data.List.Basic

/-!
# How names and numbers are cut off

A name or a number of a written formula is followed by a bracket, a comma, a semicolon, a blank or nothing
(`Stops`), and so it is cut off as a whole: a plain name is no beginning of a quoted text
(`lexeme_word`), `'` in front of a name opens no quoted character (`lexeme_quote`), and digits are no number
with a point or an exponent (`lexeme_numeral`).  A number without a zero in front is the text of its value
(`toString_ofDigitChars`).
-/

namespace GameCircuit.Text

variable {c : Char} {name : String} {cs ns ds rest : List Char}

/-! ## Names and numbers -/

/-- The characters of a plain name: the letters and digits of ASCII, and `_`. -/
def isNamePart (c : Char) : Bool := c.isAlphanum || c == '_'

/-- A plain name.  It does not begin with a digit. -/
def isName : List Char → Bool
  | [] => false
  | c :: cs => isNamePart c && !c.isDigit && cs.all isNamePart

/-- A number without a sign, and without a zero in front. -/
def isNumeral (cs : List Char) : Bool :=
  cs.all Char.isDigit && (cs == ['0'] || cs.head?.any (· != '0'))

/-- A plain name or an integer without a zero in front. -/
def isConstant (cs : List Char) : Bool :=
  isName cs || isNumeral cs || (cs.head? == some '-' && isNumeral cs.tail)

/-- The characters that may stand behind a name or a number. -/
def isStop (c : Char) : Bool := c == '(' || c == ')' || c == ',' || c == ';' || c == ' '

/-- The text ends, or goes on with what may stand behind a name. -/
def Stops (cs : List Char) : Prop := ∀ c ∈ cs.head?, isStop c = true

/-- The text begins with characters of a name, perhaps none, and stops behind them. -/
def isPlain : List Char → Bool
  | [] => true
  | c :: cs => isStop c || (isNamePart c && isPlain cs)

theorem exists_of_isName (h : isName cs = true) :
    ∃ c ns, cs = c :: ns ∧ isNamePart c = true ∧ c.isDigit = false ∧ ∀ d ∈ ns, isNamePart d = true := by
  cases cs with
  | nil => cases h
  | cons c ns =>
    simp only [isName, Bool.and_eq_true, Bool.not_eq_true', List.all_eq_true] at h
    exact ⟨c, ns, rfl, h.1.1, h.1.2, h.2⟩

theorem stops_nil : Stops [] := by simp [Stops]

theorem stops_cons (h : isStop c = true) : Stops (c :: cs) := by simpa [Stops] using h

theorem isPlain_append (hns : ∀ c ∈ ns, isNamePart c = true) (hrest : Stops rest) :
    isPlain (ns ++ rest) = true := by
  induction ns with
  | nil =>
    cases rest with
    | nil => rfl
    | cons c rest => simp [isPlain, hrest c rfl]
  | cons c ns ih =>
    obtain ⟨hc, hns⟩ := List.forall_mem_cons.1 hns
    simp [isPlain, hc, ih hns]

/-! ## Characters of names -/

theorem toNat_of_isNamePart (h : isNamePart c = true) : 48 ≤ c.toNat ∧ c.toNat ≤ 122 := by
  delta isNamePart Char.isAlphanum Char.isAlpha Char.isUpper Char.isLower Char.isDigit at h
  simp only [Bool.or_eq_true, Bool.and_eq_true, decide_eq_true_eq, beq_iff_eq, UInt32.le_iff_toNat_le,
    ge_iff_le, Char.toNat_val] at h
  rcases h with ((h | h) | h) | rfl
  · simp at h; omega
  · simp at h; omega
  · simp at h; omega
  · decide

theorem isNamePart_of_isDigit (h : c.isDigit = true) : isNamePart c = true := by
  simp [isNamePart, Char.isAlphanum, h]

theorem isWordPart_of_isNamePart (h : isNamePart c = true) : isWordPart c = true := by
  have hascii := toNat_of_isNamePart h
  rw [isWordPart, if_pos (by omega)]
  exact h

theorem isWordStart_of_isNamePart (h : isNamePart c = true) (hdigit : c.isDigit = false) :
    isWordStart c = true := by
  have hascii := toNat_of_isNamePart h
  rw [isWordStart, if_pos (by omega)]
  simpa [isNamePart, Char.isAlphanum, hdigit] using h

theorem isBlank_of_isNamePart (h : isNamePart c = true) : isBlank c = false := by
  have hascii := toNat_of_isNamePart h
  have hblank : c ≠ ' ' := by
    rintro rfl
    cases h
  simp [isBlank, inRanges, hblank]
  omega

theorem isMark_of_isNamePart (h : isNamePart c = true) : isMark c = false := by
  have hmarks : "~!@#$%^&*-=+|;:,<.>/?'".toList.all (!isNamePart ·) = true := by decide
  rw [Bool.eq_false_iff]
  intro hmark
  have hc := List.all_eq_true.1 hmarks c (List.elem_iff.1 hmark)
  simp [h] at hc

theorem atMark_of_isNamePart (h : isNamePart c = true) : atMark (c :: cs) = false := by
  simp [atMark, isMark_of_isNamePart h]

/-- Behind a name stands no character that could continue a word, or a number. -/
theorem breaks_of_isStop (h : isStop c = true) : isWordStart c = false ∧ isWordPart c = false ∧
    c.isDigit = false ∧ c ∉ ['_', '.', 'e', 'E'] := by
  simp only [isStop, Bool.or_eq_true, beq_iff_eq] at h
  rcases h with (((rfl | rfl) | rfl) | rfl) | rfl <;> decide

/-! ## What a name does not begin -/

theorem quoteStarts_of_isPlain (h : isPlain cs = true) : quoteStarts.any (beginsWith cs) = false := by
  simp only [quoteStarts, List.any_eq_false]
  intro start hstart hbegins
  obtain ⟨cs', rfl⟩ := List.isPrefixOf_iff_prefix.1 hbegins
  simp only [List.mem_cons, List.not_mem_nil, or_false] at hstart
  rcases hstart with rfl | rfl | rfl | rfl | rfl | rfl | rfl | rfl | rfl | rfl <;> cases h

theorem raw_of_isPlain (k : QuoteKind) (h : isPlain cs = true) : k.raw cs = none := by
  cases cs with
  | nil => rfl
  | cons c cs =>
    have hhash : c ≠ '#' := by
      rintro rfl
      cases h
    have hquote : c ≠ '"' := by
      rintro rfl
      cases h
    simp [QuoteKind.raw, hhash, hquote]

theorem quotedText_of_isPlain (h : isPlain cs = true) : quotedText cs = none := by
  -- behind `r` the text is plain again, so neither a quote nor a hash sign follows
  unfold quotedText
  split
  · cases h
  · exact raw_of_isPlain _ h
  · cases h
  · exact raw_of_isPlain _ h
  · cases h
  · exact raw_of_isPlain _ h
  · rfl

theorem quotedCharacter_of_isPlain (h : isPlain cs = true) : quotedCharacter cs = none := by
  unfold quotedCharacter
  split
  · cases h
  · cases h
  · rfl

/-- The quote in front of a name opens no quoted character, since none closes it behind the first one. -/
theorem quotedCharacter_quote (hc : isNamePart c = true) (hcs : isPlain cs = true) :
    quotedCharacter ('\'' :: c :: cs) = none := by
  have hescape : c ≠ '\\' := by
    rintro rfl
    cases hc
  have hclose : closeCharacter cs = none := by
    unfold closeCharacter
    split
    · cases hcs
    · rfl
  show quotedCharacterRest .text (c :: cs) = none
  unfold quotedCharacterRest
  split
  · exact absurd (List.cons.inj ‹_›).1 hescape
  · exact absurd (List.cons.inj ‹_›).1 hescape
  · exact absurd (List.cons.inj ‹_›).1 hescape
  · rename_i hcons
    rw [← (List.cons.inj hcons).2, hclose, ite_self]
  · cases ‹_›

theorem hexDigit_of_not_isDigit (h : c.isDigit = false) :
    (isHexDigit c && decide (hexValue c < 10)) = false := by
  simp only [isHexDigit, hexValue, h]
  grind

theorem digits_of_not_isDigit (h : c.isDigit = false) : digits 10 none (c :: cs) = none := by
  rw [digits, hexDigit_of_not_isDigit h, h]
  simp

theorem decimal_of_not_isDigit (h : c.isDigit = false) : decimal (c :: cs) = none := by simp [decimal, h]

theorem integerBase_of_ne (h : c ≠ '0') : integerBase (c :: cs) = (10, c :: cs) := by
  unfold integerBase
  split
  · exact absurd (List.cons.inj ‹_›).1 h
  · exact absurd (List.cons.inj ‹_›).1 h
  · exact absurd (List.cons.inj ‹_›).1 h
  · rfl

theorem integer_of_not_isDigit (h : c.isDigit = false) : integer (c :: cs) = none := by
  have hzero : c ≠ '0' := by
    rintro rfl
    cases h
  simp [integer, integerBase_of_ne hzero, digits_of_not_isDigit h]

theorem literal_of_not_isDigit (h : c.isDigit = false) (htext : quotedText (c :: cs) = none)
    (hcharacter : quotedCharacter (c :: cs) = none) : literal (c :: cs) = none := by
  simp [literal, htext, hcharacter, decimal_of_not_isDigit h, integer_of_not_isDigit h]

theorem remark_of_ne (h : c ≠ '/') : remark (c :: cs) = none := by
  have hcomment : comment (c :: cs) = none := by
    unfold comment
    split
    · exact absurd (List.cons.inj ‹_›).1 h
    · rfl
  have hslash : ('/' == c) = false := beq_eq_false_iff_ne.2 h.symm
  simp [remark, hcomment, beginsWith, List.isPrefixOf, hslash]

/-! ## Words and marks -/

theorem anyWord_of_isPlain (h : isPlain cs = true) : anyWord cs = plainWord cs := by
  unfold anyWord
  split
  · cases h
  · rfl

theorem isPlain_name (h : isName name.toList = true) (hrest : Stops rest) :
    isPlain (name.toList ++ rest) = true := by
  obtain ⟨c, ns, hname, hc, -, hns⟩ := exists_of_isName h
  rw [hname]
  exact isPlain_append (List.forall_mem_cons.2 ⟨hc, hns⟩) hrest

theorem anyWord_append (h : isName name.toList = true) (hrest : Stops rest) :
    anyWord (name.toList ++ rest) = some (name, rest) := by
  obtain ⟨c, ns, hname, hc, hdigit, hns⟩ := exists_of_isName h
  have hparts : ∀ d ∈ ns, isWordPart d = true := fun d hd => isWordPart_of_isNamePart (hns d hd)
  have hstop : rest.takeWhile isWordPart = [] ∧ rest.dropWhile isWordPart = rest := by
    cases rest with
    | nil => exact ⟨rfl, rfl⟩
    | cons d rest => simp [(breaks_of_isStop (hrest d rfl)).2.1]
  rw [anyWord_of_isPlain (isPlain_name h hrest), hname, List.cons_append, plainWord,
    if_pos (isWordStart_of_isNamePart hc hdigit), List.takeWhile_append_of_pos hparts,
    List.dropWhile_append_of_pos hparts, hstop.1, hstop.2, List.append_nil, ← hname, String.ofList_toList]

/-- What does not begin with a bracket is a literal, a mark or a word, tried in this order. -/
theorem lexeme_of_not_mem (h : c ∉ ['(', ')', '[', ']', '\x7b', '\x7d']) :
    lexeme (c :: cs) = ((literal (c :: cs)).or (mark (c :: cs))).or (word (c :: cs)) := by
  simp only [List.mem_cons, List.not_mem_nil, or_false, not_or, ← beq_eq_false_iff_ne] at h
  simp only [lexeme, h, Bool.false_eq_true, if_false]
  cases literal (c :: cs) with
  | some found => rfl
  | none =>
    cases mark (c :: cs) with
    | some found => rfl
    | none => rfl

theorem not_mem_brackets_of_isNamePart (h : isNamePart c = true) :
    c ∉ ['(', ')', '[', ']', '\x7b', '\x7d'] := by
  have hbrackets : ['(', ')', '[', ']', '\x7b', '\x7d'].all (!isNamePart ·) = true := by decide
  intro hmem
  have hc := List.all_eq_true.1 hbrackets c hmem
  simp [h] at hc

/-- A plain name is cut off as a word. -/
theorem lexeme_word (h : isName name.toList = true) (hrest : Stops rest) :
    lexeme (name.toList ++ rest) = some (.word name, rest) := by
  have hany := anyWord_append h hrest
  have hplain := isPlain_name h hrest
  have hword : word (name.toList ++ rest) = some (.word name, rest) := by
    simp [word, quoteStarts_of_isPlain hplain, hany]
  obtain ⟨c, ns, hname, hc, hdigit, -⟩ := exists_of_isName h
  rw [hname, List.cons_append] at hplain hword ⊢
  have hliteral := literal_of_not_isDigit hdigit (quotedText_of_isPlain hplain)
    (quotedCharacter_of_isPlain hplain)
  have hmark : mark (c :: (ns ++ rest)) = none := by
    rw [mark, atMark_of_isNamePart hc]
    rfl
  rw [lexeme_of_not_mem (not_mem_brackets_of_isNamePart hc), hliteral, hmark, hword]
  rfl

/-- A quote in front of a plain name is cut off as the mark of a variable. -/
theorem lexeme_quote (h : isName name.toList = true) (hrest : Stops rest) :
    lexeme ('\'' :: (name.toList ++ rest)) = some (.mark '\'' true, name.toList ++ rest) := by
  have hany := anyWord_append h hrest
  have hends : endsVariable (name.toList ++ rest) rest = true := by
    unfold endsVariable
    split
    · exact absurd (hrest _ rfl) (by decide)
    · exact absurd (hrest _ rfl) (by decide)
    · rfl
  have hmark : mark ('\'' :: (name.toList ++ rest)) = some (.mark '\'' true, name.toList ++ rest) := by
    have hat : atMark ('\'' :: (name.toList ++ rest)) = true := rfl
    simp [mark, hat, hany, hends]
  have hliteral : literal ('\'' :: (name.toList ++ rest)) = none := by
    obtain ⟨c, ns, hname, hc, -, hns⟩ := exists_of_isName h
    rw [hname]
    exact literal_of_not_isDigit rfl rfl (quotedCharacter_quote hc (isPlain_append hns hrest))
  rw [lexeme_of_not_mem (by decide), hliteral, hmark]
  rfl

theorem lexeme_mark (h : c ∈ [',', ';', '<', '=', '-']) :
    lexeme (c :: cs) = some (.mark c (atMark cs), cs) := by
  simp only [List.mem_cons, List.not_mem_nil, or_false] at h
  rcases h with rfl | rfl | rfl | rfl | rfl <;>
    rw [lexeme_of_not_mem (by decide), literal_of_not_isDigit rfl rfl rfl] <;> rfl

-- `(/*ERROR*/)` is the only text that begins with a round bracket and is cut off as a whole
theorem lexeme_opening (h : cs.head? ≠ some '/') : lexeme ('(' :: cs) = some (.opening .round, cs) := by
  have herror : beginsWith ('(' :: cs) errorMark = false := by
    rw [Bool.eq_false_iff]
    intro hbegins
    obtain ⟨cs', hcs⟩ := List.isPrefixOf_iff_prefix.1 hbegins
    cases hcs
    exact h rfl
  simp [lexeme, herror]

theorem lexeme_closing : lexeme (')' :: cs) = some (.closing .round, cs) := rfl

/-! ## Numbers -/

theorem isDigit_iff : c.isDigit = true ↔ 48 ≤ c.toNat ∧ c.toNat ≤ 57 := by
  simp [Char.isDigit, UInt32.le_iff_toNat_le]

theorem sub_lt_ten_of_isDigit (h : c.isDigit = true) : c.toNat - '0'.toNat < 10 := by
  have hbounds := isDigit_iff.1 h
  have hzero : '0'.toNat = 48 := rfl
  omega

theorem digits_cons (h : c.isDigit = true) (value? : Option Nat) : digits 10 value? (c :: cs) =
    digits 10 (some (10 * value?.getD 0 + (c.toNat - '0'.toNat))) cs := by
  have hvalue : hexValue c = c.toNat - '0'.toNat := by simp [hexValue, h]
  have hlt : hexValue c < 10 := hvalue ▸ sub_lt_ten_of_isDigit h
  rw [digits, if_pos (by simp [isHexDigit, h, hlt]), hvalue, Nat.mul_comm]

theorem digits_append (hds : ∀ d ∈ ds, d.isDigit = true) (hrest : Stops rest) (n : Nat) :
    digits 10 (some n) (ds ++ rest) = some (Nat.ofDigitChars 10 ds n, rest) := by
  induction ds generalizing n with
  | nil =>
    cases rest with
    | nil => rfl
    | cons c rest =>
      obtain ⟨-, -, hdigit, hc⟩ := breaks_of_isStop (hrest c rfl)
      simp only [List.mem_cons, not_or] at hc
      rw [List.nil_append, digits, hexDigit_of_not_isDigit hdigit, hdigit]
      simp [hc, Nat.ofDigitChars]
  | cons d ds ih =>
    obtain ⟨hd, hds⟩ := List.forall_mem_cons.1 hds
    rw [List.cons_append, digits_cons hd, ih hds, Nat.ofDigitChars_cons]
    rfl

theorem decimalRest_append (hds : ∀ d ∈ ds, d.isDigit = true) (hrest : Stops rest) :
    decimalRest false (ds ++ rest) = none := by
  induction ds with
  | nil =>
    cases rest with
    | nil => rfl
    | cons c rest =>
      obtain ⟨-, -, hdigit, hc⟩ := breaks_of_isStop (hrest c rfl)
      simp only [List.mem_cons, not_or] at hc
      simp [decimalRest, hdigit, hc]
  | cons d ds ih =>
    obtain ⟨hd, hds⟩ := List.forall_mem_cons.1 hds
    simp [decimalRest, hd, ih hds]

theorem exists_of_isNumeral (h : isNumeral ds = true) : ∃ d ds', ds = d :: ds' ∧ d.isDigit = true ∧
    (∀ d' ∈ ds', d'.isDigit = true) ∧ (d = '0' → ds' = []) := by
  cases ds with
  | nil => cases h
  | cons d ds =>
    simp [isNumeral] at h
    refine ⟨d, ds, rfl, h.1.1, h.1.2, ?_⟩
    rintro rfl
    simpa using h.2

theorem integer_append (h : isNumeral ds = true) (hrest : Stops rest) :
    integer (ds ++ rest) = some (Nat.ofDigitChars 10 ds 0, rest) := by
  obtain ⟨d, ds, rfl, hd, hds, hzero⟩ := exists_of_isNumeral h
  have hbase : integerBase (d :: (ds ++ rest)) = (10, d :: (ds ++ rest)) := by
    by_cases h0 : d = '0'
    · rw [hzero h0, h0]
      unfold integerBase
      split
      · cases ‹_›
        exact absurd (hrest _ rfl) (by decide)
      · cases ‹_›
        exact absurd (hrest _ rfl) (by decide)
      · cases ‹_›
        exact absurd (hrest _ rfl) (by decide)
      · rfl
    · exact integerBase_of_ne h0
  have hbreak : wordBreak (dropWord rest) = some rest := by
    cases rest with
    | nil => rfl
    | cons c rest =>
      obtain ⟨hstart, hpart, -⟩ := breaks_of_isStop (hrest c rfl)
      simp [dropWord, wordBreak, hstart, hpart]
  have hdigits : digits 10 none (d :: (ds ++ rest)) = some (Nat.ofDigitChars 10 (d :: ds) 0, rest) := by
    rw [digits_cons hd, digits_append hds hrest, Nat.ofDigitChars_cons]
    rfl
  simp [integer, hbase, hdigits, hbreak]

/-- A number is cut off as an integer. -/
theorem lexeme_numeral (h : isNumeral ds = true) (hrest : Stops rest) :
    lexeme (ds ++ rest) = some (.integer (Nat.ofDigitChars 10 ds 0), rest) := by
  have hinteger := integer_append h hrest
  obtain ⟨d, ds, rfl, hd, hds, -⟩ := exists_of_isNumeral h
  have hparts : ∀ c ∈ d :: ds, isNamePart c = true :=
    List.forall_mem_cons.2 ⟨isNamePart_of_isDigit hd, fun c hc => isNamePart_of_isDigit (hds c hc)⟩
  have hplain := isPlain_append hparts hrest
  have hdecimal : decimal (d :: ds ++ rest) = none := by
    simp [decimal, hd, decimalRest_append hds hrest]
  have hliteral : literal (d :: ds ++ rest) = some (.integer (Nat.ofDigitChars 10 (d :: ds) 0), rest) := by
    simp only [literal, quotedText_of_isPlain hplain, quotedCharacter_of_isPlain hplain, hdecimal, hinteger]
  rw [List.cons_append] at hliteral ⊢
  rw [lexeme_of_not_mem (not_mem_brackets_of_isNamePart (isNamePart_of_isDigit hd)), hliteral]
  rfl

theorem toDigits_of_isDigit (h : c.isDigit = true) : Nat.toDigits 10 (c.toNat - '0'.toNat) = [c] := by
  have hlt := sub_lt_ten_of_isDigit h
  have hchar : (c.toNat - '0'.toNat).digitChar = c := by
    apply Char.toNat_inj.1
    have hbounds := isDigit_iff.1 h
    have hzero : '0'.toNat = 48 := rfl
    rw [Nat.toNat_digitChar_of_lt_ten hlt]
    omega
  rw [Nat.toDigits_of_lt_base hlt, hchar]

theorem toDigits_ofDigitChars {n : Nat} (hn : 0 < n) (hds : ∀ d ∈ ds, d.isDigit = true) :
    Nat.toDigits 10 (Nat.ofDigitChars 10 ds n) = Nat.toDigits 10 n ++ ds := by
  induction ds generalizing n with
  | nil => simp [Nat.ofDigitChars]
  | cons d ds ih =>
    obtain ⟨hd, hds⟩ := List.forall_mem_cons.1 hds
    rw [Nat.ofDigitChars_cons, ih (by omega) hds,
      ← Nat.toDigits_append_toDigits (by decide) hn (sub_lt_ten_of_isDigit hd),
      toDigits_of_isDigit hd, List.append_assoc, List.singleton_append]

/-- A number without a zero in front is the text of its value. -/
theorem toString_ofDigitChars (h : isNumeral ds = true) :
    toString (Nat.ofDigitChars 10 ds 0) = String.ofList ds := by
  obtain ⟨d, ds, rfl, hd, hds, hzero⟩ := exists_of_isNumeral h
  rw [Nat.toString_eq_ofList_toDigits]
  by_cases h0 : d = '0'
  · rw [hzero h0, h0]
    rfl
  · have hpos : 0 < d.toNat - '0'.toNat := by
      have hbounds := isDigit_iff.1 hd
      have hne : d.toNat ≠ '0'.toNat := fun h => h0 (Char.toNat_inj.1 h)
      have hzero : '0'.toNat = 48 := rfl
      omega
    rw [Nat.ofDigitChars_cons, Nat.mul_zero, Nat.zero_add, toDigits_ofDigitChars hpos hds,
      toDigits_of_isDigit hd, List.singleton_append]

end GameCircuit.Text
