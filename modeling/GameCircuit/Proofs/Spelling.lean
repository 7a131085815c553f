import GameCircuit.Language.Printing
import GameCircuit.Proofs.NamesAndNumbers
import GameCircuit.Text.Token
import Mathlib.Data.List.Forall2

/-!
# The tokens of written formulas

Text spells tokens if it is cut into them wherever it ends or something follows that may stand behind a name
(`Spells`).  The tokens of a formula (`Formula.tokens`) follow its structure as its text does, and a formula
whose names are plain spells them (`Formula.spells`).  So the tokens of written formulas with semicolons
between them are known (`tokens_intercalate`).
-/

namespace GameCircuit

namespace Text

variable {c : Char} {name : String} {cs ns ds rest : List Char} {ls : List Lexeme} {toks : List Token}

/-! ## Lexemes of tokens -/

namespace Token

mutual

/-- The lexemes of a token. -/
def lexemes : Token → List Lexeme
  | .word name => [.word name]
  | .mark c joint => [.mark c joint]
  | .integer value => [.integer value]
  | .other => [.other]
  | .group b content => .opening b :: (lexemesAll content ++ [.closing b])

/-- The lexemes of tokens, one after the other. -/
def lexemesAll : List Token → List Lexeme
  | [] => []
  | tok :: toks => tok.lexemes ++ lexemesAll toks

end

theorem lexemesAll_append (toks toks' : List Token) :
    lexemesAll (toks ++ toks') = lexemesAll toks ++ lexemesAll toks' := by
  induction toks with
  | nil => rfl
  | cons tok toks ih => simp [lexemesAll, ih]

end Token

open Token (lexemesAll lexemesAll_append)

mutual

theorem nest_lexemes (tok : Token) (outer : List (Bracket × List Token)) (done : List Token)
    (ls : List Lexeme) : nest outer done (tok.lexemes ++ ls) = nest outer (tok :: done) ls := by
  cases tok with
  | word name => rfl
  | mark c joint => rfl
  | integer value => rfl
  | other => rfl
  | group b content =>
    rw [Token.lexemes, List.cons_append, nest, List.append_assoc, nest_lexemesAll content]
    simp [nest]

/-- Putting together the lexemes of tokens gives the tokens. -/
theorem nest_lexemesAll (toks : List Token) (outer : List (Bracket × List Token)) (done : List Token)
    (ls : List Lexeme) :
    nest outer done (lexemesAll toks ++ ls) = nest outer (toks.reverse ++ done) ls := by
  cases toks with
  | nil => rfl
  | cons tok toks =>
    rw [lexemesAll, List.append_assoc, nest_lexemes tok, nest_lexemesAll toks, List.reverse_cons,
      List.append_assoc, List.singleton_append]

end

/-! ## Cutting -/

/-- The text is cut into the lexemes, with any fuel that is enough. -/
def Cuts (cs : List Char) (ls : List Lexeme) : Prop := ∀ fuel, cs.length ≤ fuel → cutUpTo fuel cs = some ls

theorem cuts_nil : Cuts [] [] := fun fuel _ => by cases fuel <;> rfl

theorem Cuts.blank (h : Cuts cs ls) : Cuts (' ' :: cs) ls := by
  intro fuel hfuel
  cases fuel with
  | zero => simp at hfuel
  | succ fuel => exact h fuel (by simpa using hfuel)

theorem Cuts.cons {l : Lexeme} (h : Cuts rest ls) (hlexeme : lexeme (c :: cs) = some (l, rest))
    (hlength : rest.length ≤ cs.length) (hblank : isBlank c = false) (hslash : c ≠ '/') :
    Cuts (c :: cs) (l :: ls) := by
  intro fuel hfuel
  cases fuel with
  | zero => simp at hfuel
  | succ fuel =>
    have hrest := h fuel (by simp at hfuel; omega)
    simp [cutUpTo, hblank, remark_of_ne hslash, hlexeme, hrest]

theorem tokens_of_cuts (h : Cuts cs (lexemesAll toks)) : tokens cs = some toks := by
  have hnest := nest_lexemesAll toks [] [] []
  rw [List.append_nil, List.append_nil] at hnest
  rw [tokens, lexemes, h _ (Nat.le_refl _), Option.bind_some, hnest]
  simp [nest]

/-- The text begins with no `/`, and in front of all that may stand behind a name it is cut into the
tokens. -/
structure Spells (cs : List Char) (toks : List Token) : Prop where
  starts : ∃ c cs', cs = c :: cs' ∧ c ≠ '/'
  cuts : ∀ {rest ls}, Stops rest → Cuts rest ls → Cuts (cs ++ rest) (lexemesAll toks ++ ls)

theorem ne_slash_of_isNamePart (h : isNamePart c = true) : c ≠ '/' := by
  rintro rfl
  cases h

theorem spells_word (h : isName name.toList = true) : Spells name.toList [.word name] := by
  obtain ⟨c, ns, hname, hc, -, -⟩ := exists_of_isName h
  refine ⟨⟨c, ns, hname, ne_slash_of_isNamePart hc⟩, fun {rest ls} hrest hcuts => ?_⟩
  have hlexeme := lexeme_word h hrest
  rw [hname, List.cons_append] at hlexeme ⊢
  exact hcuts.cons hlexeme (by simp) (isBlank_of_isNamePart hc) (ne_slash_of_isNamePart hc)

theorem spells_variable (h : isName name.toList = true) :
    Spells ('\'' :: name.toList) [.mark '\'' true, .word name] := by
  refine ⟨⟨'\'', _, rfl, by decide⟩, fun {rest ls} hrest hcuts => ?_⟩
  exact ((spells_word h).cuts hrest hcuts).cons (lexeme_quote h hrest) (Nat.le_refl _) rfl (by decide)

theorem spells_numeral (h : isNumeral ds = true) : Spells ds [.integer (Nat.ofDigitChars 10 ds 0)] := by
  obtain ⟨d, ds', hds, hd, -, -⟩ := exists_of_isNumeral h
  have hpart := isNamePart_of_isDigit hd
  refine ⟨⟨d, ds', hds, ne_slash_of_isNamePart hpart⟩, fun {rest ls} hrest hcuts => ?_⟩
  have hlexeme := lexeme_numeral h hrest
  generalize Nat.ofDigitChars 10 ds 0 = n at hlexeme ⊢
  rw [hds, List.cons_append] at hlexeme ⊢
  exact hcuts.cons hlexeme (by simp) (isBlank_of_isNamePart hpart) (ne_slash_of_isNamePart hpart)

theorem spells_negative (h : isNumeral ds = true) :
    Spells ('-' :: ds) [.mark '-' false, .integer (Nat.ofDigitChars 10 ds 0)] := by
  refine ⟨⟨'-', ds, rfl, by decide⟩, fun {rest ls} hrest hcuts => ?_⟩
  have hmark : atMark (ds ++ rest) = false := by
    obtain ⟨d, ds', rfl, hd, -, -⟩ := exists_of_isNumeral h
    exact atMark_of_isNamePart (isNamePart_of_isDigit hd)
  have hlexeme : lexeme ('-' :: (ds ++ rest)) = some (.mark '-' false, ds ++ rest) := by
    rw [lexeme_mark (by decide), hmark]
  exact ((spells_numeral h).cuts hrest hcuts).cons hlexeme (Nat.le_refl _) rfl (by decide)

/-! ## Putting texts together -/

section Together

variable {as bs : List Char} {toksA toksB : List Token}

theorem Spells.append (ha : Spells as toksA) (hb : Spells bs toksB) (hstops : Stops bs) :
    Spells (as ++ bs) (toksA ++ toksB) := by
  obtain ⟨c, cs, rfl, hc⟩ := ha.starts
  refine ⟨⟨c, cs ++ bs, rfl, hc⟩, fun {rest ls} hrest hcuts => ?_⟩
  rw [lexemesAll_append, List.append_assoc, List.append_assoc]
  obtain ⟨d, ds, rfl, -⟩ := hb.starts
  exact ha.cuts (stops_cons (hstops d rfl)) (hb.cuts hrest hcuts)

theorem Spells.comma (ha : Spells as toksA) (hb : Spells bs toksB) :
    Spells (as ++ [',', ' '] ++ bs) (toksA ++ [.mark ',' false] ++ toksB) := by
  obtain ⟨c, cs, rfl, hc⟩ := ha.starts
  refine ⟨⟨c, _, rfl, hc⟩, fun {rest ls} hrest hcuts => ?_⟩
  have hcomma : Cuts (',' :: ' ' :: (bs ++ rest)) (.mark ',' false :: (lexemesAll toksB ++ ls)) :=
    (hb.cuts hrest hcuts).blank.cons (lexeme_mark (by decide)) (Nat.le_refl _) rfl (by decide)
  simpa [lexemesAll_append, lexemesAll, Token.lexemes] using ha.cuts (stops_cons rfl) hcomma

theorem Spells.semicolon (ha : Spells as toksA) (hb : Spells bs toksB)
    (hmark : ∀ c ∈ bs.head?, isMark c = false) :
    Spells (as ++ [';'] ++ bs) (toksA ++ [.mark ';' false] ++ toksB) := by
  obtain ⟨c, cs, rfl, hc⟩ := ha.starts
  refine ⟨⟨c, _, rfl, hc⟩, fun {rest ls} hrest hcuts => ?_⟩
  have hlexeme : lexeme (';' :: (bs ++ rest)) = some (.mark ';' false, bs ++ rest) := by
    obtain ⟨d, ds, rfl, -⟩ := hb.starts
    rw [lexeme_mark (by decide), List.cons_append, atMark, hmark d rfl]
    rfl
  have hsemicolon : Cuts (';' :: (bs ++ rest)) (.mark ';' false :: (lexemesAll toksB ++ ls)) :=
    (hb.cuts hrest hcuts).cons hlexeme (Nat.le_refl _) rfl (by decide)
  simpa [lexemesAll_append, lexemesAll, Token.lexemes] using ha.cuts (stops_cons rfl) hsemicolon

theorem Spells.arrow (hb : Spells bs toksB) :
    Spells (" <= ".toList ++ bs) ([.mark '<' true, .mark '=' false] ++ toksB) := by
  refine ⟨⟨' ', _, rfl, by decide⟩, fun {rest ls} hrest hcuts => ?_⟩
  have hequal : Cuts ('=' :: ' ' :: (bs ++ rest)) (.mark '=' false :: (lexemesAll toksB ++ ls)) :=
    (hb.cuts hrest hcuts).blank.cons (lexeme_mark (by decide)) (Nat.le_refl _) rfl (by decide)
  have hless : Cuts ('<' :: '=' :: ' ' :: (bs ++ rest))
      (.mark '<' true :: .mark '=' false :: (lexemesAll toksB ++ ls)) :=
    hequal.cons (lexeme_mark (by decide)) (Nat.le_refl _) rfl (by decide)
  exact hless.blank

/-- Puts commas between the tokens. -/
def separated (parts : List (List Token)) : List Token := [.mark ',' false].intercalate parts

variable {texts : List (List Char)} {parts : List (List Token)}

theorem forall₂_spells {α : Type} {write : α → List Char} {tokens : α → List Token} {xs : List α}
    (h : ∀ x ∈ xs, Spells (write x) (tokens x)) :
    List.Forall₂ Spells (xs.map write) (xs.map tokens) := by
  rw [List.forall₂_map_left_iff, List.forall₂_map_right_iff, List.forall₂_same]
  exact h

theorem spells_commaSeparated (h : List.Forall₂ Spells texts parts) (hne : texts ≠ []) :
    Spells (commaSeparated texts) (separated parts) := by
  induction h with
  | nil => exact absurd rfl hne
  | cons hfirst hrest ih =>
    rw [commaSeparated, separated]
    cases hrest with
    | nil => simpa using hfirst
    | cons hsecond hrest =>
      rw [List.intercalate_cons_cons, List.intercalate_cons_cons]
      exact hfirst.comma (ih (List.cons_ne_nil _ _))

theorem spells_parenthesized (h : List.Forall₂ Spells texts parts) :
    Spells (parenthesized texts) [.group .round (separated parts)] := by
  refine ⟨⟨'(', _, rfl, by decide⟩, fun {rest ls} hrest hcuts => ?_⟩
  have hclosing : Cuts (')' :: rest) (.closing .round :: ls) :=
    hcuts.cons lexeme_closing (Nat.le_refl _) rfl (by decide)
  have hcontent : Cuts (commaSeparated texts ++ ')' :: rest)
      (lexemesAll (separated parts) ++ .closing .round :: ls) ∧
      (commaSeparated texts ++ ')' :: rest).head? ≠ some '/' := by
    cases h with
    | nil => exact ⟨hclosing, by simp [commaSeparated]⟩
    | cons hfirst hrest =>
      have hspells := spells_commaSeparated (.cons hfirst hrest) (List.cons_ne_nil _ _)
      refine ⟨hspells.cuts (stops_cons rfl) hclosing, ?_⟩
      obtain ⟨c, cs, hcs, hc⟩ := hspells.starts
      simpa [hcs] using hc
  have hgroup := hcontent.1.cons (lexeme_opening hcontent.2) (Nat.le_refl _) rfl (by decide)
  simpa [parenthesized, lexemesAll, Token.lexemes] using hgroup

end Together

end Text

/-! ## The tokens of terms, atoms and formulas -/

open Text

/-- The tokens of a constant: its name, or a number with its sign. -/
def constantTokens (c : String) : List Token :=
  if isName c.toList then [.word c]
  else if isNumeral c.toList then [.integer (Nat.ofDigitChars 10 c.toList 0)]
  else [.mark '-' false, .integer (Nat.ofDigitChars 10 c.toList.tail 0)]

theorem spells_constant {c : String} (h : isConstant c.toList = true) :
    Spells c.toList (constantTokens c) := by
  rw [constantTokens]
  split_ifs with hname hnumeral
  · exact spells_word hname
  · exact spells_numeral hnumeral
  · simp only [isConstant, hname, hnumeral, Bool.false_or, Bool.and_eq_true, beq_iff_eq] at h
    rw [← List.cons_head?_tail h.1]
    exact spells_negative h.2

namespace Term

/-- The tokens of a term. -/
def tokens : Term String → List Token :=
  fold constantTokens (fun x => [.mark '\'' true, .word x])
    fun f args => [.word f, .group .round (separated args)]

/-- The names of the term are plain, apart from constants that are integers. -/
def isWritable : Term String → Bool :=
  fold (fun c => isConstant c.toList) (fun x => isName x.toList)
    fun f args => isName f.toList && args.all id

@[simp] theorem write_app (mark : Char) (f : String) (args : List (Term String)) :
    (app f args).write mark = f.toList ++ parenthesized (args.map (write mark)) := by
  simp [write]

@[simp] theorem tokens_app (f : String) (args : List (Term String)) :
    (app f args).tokens = [.word f, .group .round (separated (args.map tokens))] := by
  simp [tokens]

@[simp] theorem isWritable_app (f : String) (args : List (Term String)) :
    (app f args).isWritable = (isName f.toList && args.all isWritable) := by
  rw [isWritable, fold_app, List.all_map]
  rfl

theorem spells (t : Term String) (h : t.isWritable = true) : Spells (t.write '\'') t.tokens := by
  induction t with
  | const c => exact spells_constant h
  | var x => exact spells_variable h
  | app f args ih =>
    rw [isWritable_app, Bool.and_eq_true, List.all_eq_true] at h
    have hargs := forall₂_spells fun t ht => ih t ht (h.2 t ht)
    rw [write_app, tokens_app]
    exact (spells_word h.1).append (spells_parenthesized hargs) (stops_cons rfl)

end Term

namespace Atom

/-- The tokens of an atom. -/
def tokens (a : Atom String) : List Token :=
  .word a.relation :: if a.args.isEmpty then [] else [.group .round (separated (a.args.map Term.tokens))]

/-- The names of the atom are plain, apart from constants that are integers. -/
def isWritable (a : Atom String) : Bool := isName a.relation.toList && a.args.all Term.isWritable

theorem spells (a : Atom String) (h : a.isWritable = true) : Spells (a.write '\'') a.tokens := by
  rw [isWritable, Bool.and_eq_true, List.all_eq_true] at h
  have hargs := forall₂_spells fun t ht => Term.spells t (h.2 t ht)
  rw [write, tokens]
  split_ifs
  · rw [List.append_nil]
    exact spells_word h.1
  · exact (spells_word h.1).append (spells_parenthesized hargs) (stops_cons rfl)

theorem isMark_head_write {a : Atom String} (h : a.isWritable = true) (rest : List Char) :
    ∀ c ∈ (a.write '\'' ++ rest).head?, isMark c = false := by
  rw [isWritable, Bool.and_eq_true] at h
  obtain ⟨c, ns, hname, hc, -, -⟩ := exists_of_isName h.1
  simp [write, hname, isMark_of_isNamePart hc]

end Atom

namespace Formula

/-- The tokens of a formula. -/
def tokens : Formula String → List Token :=
  fold Atom.tokens
    (fun head body => head.tokens ++ ([.mark '<' true, .mark '=' false] ++ separated body))
    (fun φ => [.word "not", .group .round (separated [φ])])
    (fun φs => [.word "or", .group .round (separated φs)])

/-- A condition of a rule with plain names.  An atom with arguments is not read as one if its relation is
`not` or `or`. -/
def isWritableLiteral : Formula String → Bool :=
  fold (fun a => a.isWritable && (a.args.isEmpty || (a.relation != "not" && a.relation != "or")))
    (fun _ _ => false) id (List.all · id)

/-- A fact, or a rule with conditions, whose names are plain. -/
def isWritable : Formula String → Bool
  | .atom a => a.isWritable
  | .rule head body => head.isWritable && !body.isEmpty && body.all isWritableLiteral
  | .neg _ | .disj _ => false

@[simp] theorem write_rule (mark : Char) (head : Atom String) (body : List (Formula String)) :
    (rule head body).write mark =
      head.write mark ++ (" <= ".toList ++ commaSeparated (body.map (write mark))) := by
  simp [write]

@[simp] theorem write_neg (mark : Char) (φ : Formula String) :
    (neg φ).write mark = "not".toList ++ parenthesized [φ.write mark] := rfl

@[simp] theorem write_disj (mark : Char) (φs : List (Formula String)) :
    (disj φs).write mark = "or".toList ++ parenthesized (φs.map (write mark)) := by
  simp [write]

@[simp] theorem tokens_rule (head : Atom String) (body : List (Formula String)) :
    (rule head body).tokens =
      head.tokens ++ ([.mark '<' true, .mark '=' false] ++ separated (body.map tokens)) := by
  simp [tokens]

@[simp] theorem tokens_neg (φ : Formula String) :
    (neg φ).tokens = [.word "not", .group .round (separated [φ.tokens])] := rfl

@[simp] theorem tokens_disj (φs : List (Formula String)) :
    (disj φs).tokens = [.word "or", .group .round (separated (φs.map tokens))] := by
  simp [tokens]

@[simp] theorem isWritableLiteral_disj (φs : List (Formula String)) :
    (disj φs).isWritableLiteral = φs.all isWritableLiteral := by
  rw [isWritableLiteral, fold_disj, List.all_map]
  rfl

theorem spells_literal (φ : Formula String) (h : φ.isWritableLiteral = true) :
    Spells (φ.write '\'') φ.tokens := by
  induction φ with
  | atom a => exact a.spells (Bool.and_eq_true_iff.1 h).1
  | rule head body => simp [isWritableLiteral] at h
  | neg φ ih =>
    have hφ : List.Forall₂ Spells [φ.write '\''] [φ.tokens] := .cons (ih h) .nil
    exact (spells_word rfl).append (spells_parenthesized hφ) (stops_cons rfl)
  | disj φs ih =>
    rw [isWritableLiteral_disj, List.all_eq_true] at h
    have hφs := forall₂_spells fun φ hφ => ih φ hφ (h φ hφ)
    rw [write_disj, tokens_disj]
    exact (spells_word rfl).append (spells_parenthesized hφs) (stops_cons rfl)

theorem spells (φ : Formula String) (h : φ.isWritable = true) : Spells (φ.write '\'') φ.tokens := by
  cases φ with
  | atom a => exact a.spells h
  | rule head body =>
    simp only [isWritable, Bool.and_eq_true, Bool.not_eq_true', List.isEmpty_eq_false_iff,
      List.all_eq_true] at h
    have hbody := forall₂_spells fun φ hφ => spells_literal φ (h.2 φ hφ)
    have hseparated := spells_commaSeparated hbody (by simpa using h.1.2)
    rw [write_rule, tokens_rule]
    exact (head.spells h.1.1).append hseparated.arrow (stops_cons rfl)
  | neg φ => cases h
  | disj φs => cases h

theorem isMark_head_write {φ : Formula String} (h : φ.isWritable = true) (rest : List Char) :
    ∀ c ∈ (φ.write '\'' ++ rest).head?, isMark c = false := by
  cases φ with
  | atom a => exact Atom.isMark_head_write h rest
  | rule head body =>
    rw [write_rule, List.append_assoc]
    simp only [isWritable, Bool.and_eq_true] at h
    exact Atom.isMark_head_write h.1.1 _
  | neg φ => cases h
  | disj φs => cases h

end Formula

theorem spells_intercalate {φ : Formula String} {φs : List (Formula String)} (hφ : φ.isWritable = true)
    (hφs : ∀ φ ∈ φs, φ.isWritable = true) :
    Spells ([';'].intercalate ((φ :: φs).map (Formula.write '\'')))
      ([.mark ';' false].intercalate ((φ :: φs).map Formula.tokens)) := by
  induction φs generalizing φ with
  | nil => simpa using φ.spells hφ
  | cons ψ φs ih =>
    obtain ⟨hψ, hφs⟩ := List.forall_mem_cons.1 hφs
    have hmark : ∀ c ∈ ([';'].intercalate ((ψ :: φs).map (Formula.write '\''))).head?, isMark c = false := by
      cases φs with
      | nil => simpa using Formula.isMark_head_write hψ []
      | cons χ φs =>
        rw [List.map_cons, List.map_cons, List.intercalate_cons_cons, List.append_assoc]
        exact Formula.isMark_head_write hψ _
    simpa [List.intercalate_cons_cons] using (φ.spells hφ).semicolon (ih hψ hφs) hmark

/-- The tokens of written formulas are those of the formulas, with semicolons between them. -/
theorem tokens_intercalate {φs : List (Formula String)} (h : ∀ φ ∈ φs, φ.isWritable = true) :
    Text.tokens ([';'].intercalate (φs.map (Formula.write '\''))) =
      some ([.mark ';' false].intercalate (φs.map Formula.tokens)) := by
  cases φs with
  | nil => rfl
  | cons φ φs =>
    obtain ⟨hφ, hφs⟩ := List.forall_mem_cons.1 h
    have hcuts := (spells_intercalate hφ hφs).cuts stops_nil cuts_nil
    rw [List.append_nil, List.append_nil] at hcuts
    exact tokens_of_cuts hcuts

end GameCircuit
