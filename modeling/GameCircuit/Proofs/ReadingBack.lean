import GameCircuit.Proofs.Lexicons
import GameCircuit.Proofs.Spelling
import GameCircuit.Text.Reader

/-!
# Reading back what is shown

Formulas are shown with `?` in front of variables.  With `'` in its place, and semicolons between them, they
are rule text (`Lexicon.ruleText`), and the text of facts and rules with plain names is read as the formulas
that it was made of, whatever lexicon their names are put in (`Text.readInto_ruleText`).

The reader keeps what it has read of a term or a literal as a state.  Behind the tokens of a term it has
read this term (`Term.readsTerm`), so a comma or the end of the list adds it to the terms, and the same holds
of literals (`Formula.readsLiteral`).
-/

namespace GameCircuit

namespace Text

variable {toks content : List Token}

/-! ## Lists between commas -/

section Between

variable {σ α : Type} {read : σ → List Token → Except ReadError (List α)} {empty : σ} {result? : σ → Option α}

/-- The reader passes the tokens, and behind them it is in a state in which it has read `a`. -/
def Passes (read : σ → List Token → Except ReadError (List α)) (empty : σ) (result? : σ → Option α)
    (toks : List Token) (a : α) : Prop :=
  ∃ s, result? s = some a ∧ ∀ rest, read empty (toks ++ rest) = read s rest

/-- A reader that adds what it has read at the end and at a comma reads all of a list. -/
theorem read_separated {tokens : α → List Token} {a : α} {as : List α}
    (hend : ∀ {s a}, result? s = some a → read s [] = .ok [a])
    (hcomma : ∀ {s a toks}, result? s = some a →
      read s (.mark ',' false :: toks) = (a :: ·) <$> read empty toks)
    (h : ∀ b ∈ a :: as, Passes read empty result? (tokens b) b) :
    read empty (separated ((a :: as).map tokens)) = .ok (a :: as) := by
  induction as generalizing a with
  | nil =>
    obtain ⟨s, hs, hread⟩ := h a List.mem_cons_self
    have hlast := hread []
    rw [List.append_nil, hend hs] at hlast
    simpa [separated] using hlast
  | cons b as ih =>
    obtain ⟨⟨s, hs, hread⟩, has⟩ := List.forall_mem_cons.1 h
    have ih := ih has
    rw [separated, List.map_cons] at ih ⊢
    rw [List.map_cons, List.intercalate_cons_cons, List.append_assoc, hread, List.singleton_append,
      hcomma hs, ih]
    rfl

end Between

/-! ## Terms -/

section Terms

variable {s : TermState} {t : Term String} {ts args : List (Term String)}

/-- The reader of terms passes the tokens, and behind them it has read the term. -/
def ReadsTerm (toks : List Token) (t : Term String) : Prop :=
  Passes readTerms .empty TermState.term? toks t

theorem readTerms_comma (h : s.term? = some t) (joint : Bool) :
    readTerms s (.mark ',' joint :: toks) = (t :: ·) <$> readTerms .empty toks := by
  cases s with
  | word f => cases h; rfl
  | full u => cases h; rfl
  | empty => cases h
  | quote => cases h
  | minus => cases h

theorem readTerms_nil (h : s.term? = some t) : readTerms s [] = .ok [t] := by
  cases s with
  | word f => cases h; rfl
  | full u => cases h; rfl
  | empty => cases h
  | quote => cases h
  | minus => cases h

theorem readTerms_separated (h : ∀ t ∈ ts, ReadsTerm t.tokens t) :
    readTerms .empty (separated (ts.map Term.tokens)) = .ok ts := by
  cases ts with
  | nil => rfl
  | cons t ts => exact read_separated readTerms_nil (readTerms_comma · false) h

theorem readTerms_group (h : readTerms .empty content = .ok args) (f : String) :
    readTerms (.word f) (.group .round content :: toks) = readTerms (.full (.app f args)) toks := by
  have hgroup : readTerms (.word f) (.group .round content :: toks) =
      readTerms .empty content >>= fun args => readTerms (.full (.app f args)) toks := rfl
  rw [hgroup, h]
  rfl

theorem readsTerm_constant {c : String} (h : isConstant c.toList = true) :
    ReadsTerm (constantTokens c) (.const c) := by
  rw [constantTokens]
  split_ifs with hname hnumeral
  · exact ⟨.word c, rfl, fun rest => rfl⟩
  · have hc : toString (Nat.ofDigitChars 10 c.toList 0) = c := by
      rw [toString_ofDigitChars hnumeral, String.ofList_toList]
    exact ⟨.full (.const (toString (Nat.ofDigitChars 10 c.toList 0))), by rw [hc]; rfl, fun rest => rfl⟩
  · simp only [isConstant, hname, hnumeral, Bool.false_or, Bool.and_eq_true, beq_iff_eq] at h
    have hc : "-" ++ toString (Nat.ofDigitChars 10 c.toList.tail 0) = c := by
      apply String.toList_inj.1
      rw [toString_ofDigitChars h.2, String.toList_append, String.toList_ofList, String.toList_ofList]
      exact List.cons_head?_tail h.1
    exact ⟨.full (.const ("-" ++ toString (Nat.ofDigitChars 10 c.toList.tail 0))), by rw [hc]; rfl,
      fun rest => rfl⟩

end Terms

/-! ## Literals -/

section Literals

variable {s : LiteralState} {φ : Formula String} {φs : List (Formula String)} {inBrackets : Bool}

/-- The reader of literals passes the tokens, and behind them it has read the literal. -/
def ReadsLiteral (toks : List Token) (φ : Formula String) : Prop :=
  ∀ inBrackets, Passes (readLiterals inBrackets) .empty LiteralState.literal? toks φ

theorem readLiterals_comma (h : s.literal? = some φ) (joint : Bool) :
    readLiterals inBrackets s (.mark ',' joint :: toks) =
      (φ :: ·) <$> readLiterals inBrackets .empty toks := by
  cases s with
  | word name => cases h; rfl
  | full ψ => cases h; rfl
  | empty => cases h

theorem readLiterals_nil (h : s.literal? = some φ) : readLiterals inBrackets s [] = .ok [φ] := by
  simp [readLiterals, h]

theorem readLiterals_separated (h : ∀ φ ∈ φs, ReadsLiteral φ.tokens φ)
    (hne : φs ≠ [] ∨ inBrackets = true) :
    readLiterals inBrackets .empty (separated (φs.map Formula.tokens)) = .ok φs := by
  cases φs with
  | nil =>
    obtain rfl := hne.resolve_left fun hne => hne rfl
    rfl
  | cons φ φs =>
    exact read_separated readLiterals_nil (readLiterals_comma · false) fun ψ hψ => h ψ hψ inBrackets

theorem readsLiteral_group {name : String} (h : readConnective name (.group .round content) = .ok φ) :
    ReadsLiteral [.word name, .group .round content] φ := by
  refine fun inBrackets => ⟨.full φ, rfl, fun rest => ?_⟩
  have hgroup : readLiterals inBrackets .empty ([.word name, .group .round content] ++ rest) =
      readConnective name (.group .round content) >>= fun φ => readLiterals inBrackets (.full φ) rest := rfl
  rw [hgroup, h]
  rfl

end Literals

end Text

open Text

/-- Behind the tokens of a term the reader has read this term. -/
theorem Term.readsTerm (t : Term String) (h : t.isWritable = true) : ReadsTerm t.tokens t := by
  induction t with
  | const c => exact readsTerm_constant h
  | var x => exact ⟨.full (.var x), rfl, fun rest => rfl⟩
  | app f args ih =>
    rw [isWritable_app, Bool.and_eq_true, List.all_eq_true] at h
    have hargs := readTerms_separated fun t ht => ih t ht (h.2 t ht)
    rw [tokens_app]
    exact ⟨.full (.app f args), rfl, fun rest => readTerms_group hargs f⟩

theorem Atom.readArguments_tokens (a : Atom String) (h : a.isWritable = true) :
    readTerms .empty (separated (a.args.map Term.tokens)) = .ok a.args := by
  rw [isWritable, Bool.and_eq_true, List.all_eq_true] at h
  exact readTerms_separated fun t ht => t.readsTerm (h.2 t ht)

namespace Formula

/-- Behind the tokens of a literal the reader has read this literal. -/
theorem readsLiteral (φ : Formula String) (h : φ.isWritableLiteral = true) : ReadsLiteral φ.tokens φ := by
  induction φ with
  | atom a =>
    obtain ⟨ha, hrelation⟩ := Bool.and_eq_true_iff.1 h
    obtain ⟨relation, args⟩ := a
    cases args with
    -- a word that no bracket follows is an atom, also if it is `not` or `or`
    | nil => exact fun inBrackets => ⟨.word relation, rfl, fun rest => rfl⟩
    | cons t ts =>
      simp only [List.isEmpty_cons, Bool.false_or, Bool.and_eq_true, bne_iff_ne] at hrelation
      refine readsLiteral_group ?_
      rw [readConnective, if_neg hrelation.1, if_neg hrelation.2, readArguments,
        Atom.readArguments_tokens _ ha]
      rfl
  | rule head body => simp [isWritableLiteral] at h
  | neg φ ih =>
    have hread : ∀ ψ ∈ [φ], ReadsLiteral ψ.tokens ψ := by simpa using ih h
    have hφ : readLiterals true .empty (separated [φ.tokens]) = .ok [φ] :=
      readLiterals_separated hread (.inr rfl)
    rw [tokens_neg]
    refine readsLiteral_group ?_
    rw [readConnective, if_pos rfl, hφ]
    rfl
  | disj φs ih =>
    rw [isWritableLiteral_disj, List.all_eq_true] at h
    have hφs := readLiterals_separated (fun φ hφ => ih φ hφ (h φ hφ)) (.inr rfl)
    rw [tokens_disj]
    refine readsLiteral_group ?_
    rw [readConnective, if_neg (by decide), if_pos rfl, hφs]
    rfl

end Formula

/-! ## Sentences -/

namespace Text

variable {φ : Formula String} {φs : List (Formula String)} {toks : List Token}

/-- No token is a semicolon; those in brackets do not count. -/
def SemicolonFree (toks : List Token) : Prop := ∀ joint, Token.mark ';' joint ∉ toks

theorem splitSentences_cons {tok : Token} {rest first : List Token} {others : List (List Token)}
    (htok : ∀ joint, tok ≠ .mark ';' joint) (h : splitSentences rest = first :: others) :
    splitSentences (tok :: rest) = (tok :: first) :: others := by
  rw [splitSentences, h]
  exact htok

/-- Tokens without a semicolon are added to the first sentence. -/
theorem splitSentences_append {rest first : List Token} {others : List (List Token)}
    (htoks : SemicolonFree toks) (h : splitSentences rest = first :: others) :
    splitSentences (toks ++ rest) = (toks ++ first) :: others := by
  induction toks with
  | nil => exact h
  | cons tok toks ih =>
    have htok : ∀ joint, tok ≠ .mark ';' joint := fun joint heq => htoks joint (heq ▸ List.mem_cons_self)
    have ih := ih fun joint hmem => htoks joint (List.mem_cons_of_mem _ hmem)
    exact splitSentences_cons htok ih

theorem splitSentences_intercalate {parts : List (List Token)} (h : ∀ toks ∈ parts, SemicolonFree toks)
    (hne : parts ≠ []) : splitSentences ([.mark ';' false].intercalate parts) = parts := by
  induction parts with
  | nil => exact absurd rfl hne
  | cons toks parts ih =>
    obtain ⟨htoks, hparts⟩ := List.forall_mem_cons.1 h
    cases parts with
    | nil => simpa using splitSentences_append htoks (show splitSentences [] = [[]] from rfl)
    | cons toks' parts =>
      have ih := ih hparts (List.cons_ne_nil _ _)
      have hsplit : splitSentences (.mark ';' false :: [.mark ';' false].intercalate (toks' :: parts)) =
          [] :: toks' :: parts := by rw [splitSentences, ih]
      rw [List.intercalate_cons_cons, List.append_assoc, List.singleton_append,
        splitSentences_append htoks hsplit, List.append_nil]

theorem semicolonFree_separated {parts : List (List Token)} (h : ∀ toks ∈ parts, SemicolonFree toks) :
    SemicolonFree (separated parts) := by
  induction parts with
  | nil => simp [SemicolonFree, separated]
  | cons toks parts ih =>
    obtain ⟨htoks, hparts⟩ := List.forall_mem_cons.1 h
    have ih := ih hparts
    cases parts with
    | nil => simpa [separated] using htoks
    | cons toks' parts =>
      intro joint hmem
      rw [separated, List.intercalate_cons_cons, List.mem_append, List.mem_append] at hmem
      rcases hmem with (hmem | hmem) | hmem
      · exact htoks joint hmem
      · simp at hmem
      · exact ih joint hmem

theorem readSentences_cons {rest : List (List Token)} (h : readSentence toks = .ok φ)
    (hrest : readSentences rest = .ok φs) : readSentences (toks :: rest) = .ok (φ :: φs) := by
  rw [readSentences, h, hrest]
  · rfl
  · rintro rfl
    cases h

end Text

open Text

theorem Atom.readSentence_tokens {a : Atom String} {toks : List Token} (h : a.isWritable = true)
    (htoks : ∀ content, toks.head? ≠ some (.group .round content)) :
    readSentence (a.tokens ++ toks) = readBody a toks := by
  have hread := a.readArguments_tokens h
  obtain ⟨relation, args⟩ := a
  cases args with
  | nil =>
    have hsentence : readSentence (.word relation :: toks) = readBody ⟨relation, []⟩ toks := by
      rw [readSentence]
      rintro content toks' rfl
      exact htoks content rfl
    exact hsentence
  | cons t ts =>
    have hsentence : readSentence ((⟨relation, t :: ts⟩ : Atom String).tokens ++ toks) =
        readTerms .empty (separated ((t :: ts).map Term.tokens)) >>=
          fun args => readBody ⟨relation, args⟩ toks := rfl
    rw [hsentence, hread]
    rfl

namespace Formula

theorem semicolonFree_tokens (φ : Formula String) : SemicolonFree φ.tokens := by
  have hatom (a : Atom String) : SemicolonFree a.tokens := by
    intro joint
    rw [Atom.tokens]
    split <;> simp
  induction φ with
  | atom a => exact hatom a
  | rule head body ih =>
    have hbody := semicolonFree_separated (List.forall_mem_map.2 ih)
    intro joint hmem
    rw [tokens_rule, List.mem_append, List.mem_append] at hmem
    rcases hmem with hmem | hmem | hmem
    · exact hatom head joint hmem
    · simp at hmem
    · exact hbody joint hmem
  | neg φ ih => simp [SemicolonFree]
  | disj φs ih => simp [SemicolonFree]

/-- The head of a sentence is always an atom, so its relation may be `not` or `or` as well. -/
theorem readSentence_tokens {φ : Formula String} (h : φ.isWritable = true) :
    readSentence φ.tokens = .ok φ := by
  cases φ with
  | atom a =>
    have hsentence : readSentence (a.tokens ++ []) = readBody a [] := Atom.readSentence_tokens h (by simp)
    rw [List.append_nil] at hsentence
    exact hsentence
  | rule head body =>
    simp only [isWritable, Bool.and_eq_true, Bool.not_eq_true', List.isEmpty_eq_false_iff,
      List.all_eq_true] at h
    have hbody : readLiterals false .empty (separated (body.map tokens)) = .ok body :=
      readLiterals_separated (fun φ hφ => φ.readsLiteral (h.2 φ hφ)) (.inl h.1.2)
    rw [tokens_rule, Atom.readSentence_tokens h.1.1 (by simp), List.cons_append, List.singleton_append,
      readBody, hbody]
    rfl
  | neg φ => cases h
  | disj φs => cases h

end Formula

theorem readSentences_tokens {φs : List (Formula String)} (h : ∀ φ ∈ φs, φ.isWritable = true) :
    readSentences (φs.map Formula.tokens) = .ok φs := by
  induction φs with
  | nil => rfl
  | cons φ φs ih =>
    obtain ⟨hφ, hφs⟩ := List.forall_mem_cons.1 h
    exact readSentences_cons (Formula.readSentence_tokens hφ) (ih hφs)

/-- What is written of formulas, with semicolons between them, is read as these formulas. -/
theorem read_intercalate {φs : List (Formula String)} (h : ∀ φ ∈ φs, φ.isWritable = true) :
    Text.read ([';'].intercalate (φs.map (Formula.write '\''))) = .ok φs := by
  simp only [Text.read, tokens_intercalate h]
  cases φs with
  | nil => rfl
  | cons φ φs =>
    have hfree : ∀ toks ∈ (φ :: φs).map Formula.tokens, SemicolonFree toks :=
      List.forall_mem_map.2 fun φ _ => φ.semicolonFree_tokens
    rw [splitSentences_intercalate hfree (List.cons_ne_nil _ _), readSentences_tokens h]

/-! ## Names -/

theorem Term.intern_app (f : String) (args : List (Term String)) (k : Lexicon) :
    (Term.app f args).intern k =
      (internAll (args.map intern) (k.intern f).2).map (.app (k.intern f).1) id := by
  simp [intern]

theorem Formula.intern_rule (head : Atom String) (body : List (Formula String)) (k : Lexicon) :
    (Formula.rule head body).intern k =
      (internAll (body.map intern) (head.intern k).2).map (.rule (head.intern k).1) id := by
  simp [intern]

theorem Formula.intern_disj (φs : List (Formula String)) (k : Lexicon) :
    (Formula.disj φs).intern k = (internAll (φs.map intern) k).map .disj id := by
  simp [intern]

namespace Lexicon

variable {α β : Type}

/-- The step adds names only, and in all later lexicons what it gives is seen as `b`. -/
def Restores (step : Lexicon → α × Lexicon) (view : Lexicon → α → β) (b : β) : Prop :=
  ∀ k, k.Grows (step k).2 ∧ ∀ m, (step k).2.Grows m → view m (step k).1 = b

theorem restores_intern (name : String) : Restores (fun k => k.intern name) resolve name := by
  refine fun k => ⟨grows_intern k name, fun m hm => ?_⟩
  rw [(knows_intern k name).resolve_eq_of_grows hm, resolve_intern]

theorem restores_internAll {steps : β → Lexicon → α × Lexicon} {view : Lexicon → α → β} {bs : List β}
    (h : ∀ b ∈ bs, Restores (steps b) view b) :
    Restores (internAll (bs.map steps)) (fun m => List.map (view m)) bs := by
  induction bs with
  | nil => exact fun k => ⟨Grows.refl k, fun m _ => rfl⟩
  | cons b bs ih =>
    obtain ⟨hb, hbs⟩ := List.forall_mem_cons.1 h
    intro k
    obtain ⟨hgrows, hview⟩ := hb k
    obtain ⟨hgrows', hviews⟩ := ih hbs (steps b k).2
    rw [List.map_cons, internAll_cons]
    refine ⟨hgrows.trans hgrows', fun m hm => ?_⟩
    exact congrArg₂ List.cons (hview m (hgrows'.trans hm)) (hviews m hm)

theorem restores_term (t : Term String) : Restores t.intern (fun m => Term.map m.resolve) t := by
  induction t with
  | const c =>
    intro k
    obtain ⟨hgrows, hc⟩ := restores_intern c k
    exact ⟨hgrows, fun m hm => congrArg Term.const (hc m hm)⟩
  | var x =>
    intro k
    obtain ⟨hgrows, hx⟩ := restores_intern x k
    exact ⟨hgrows, fun m hm => congrArg Term.var (hx m hm)⟩
  | app f args ih =>
    intro k
    obtain ⟨hgrows, hf⟩ := restores_intern f k
    obtain ⟨hgrows', hargs⟩ := restores_internAll ih (k.intern f).2
    rw [Term.intern_app]
    refine ⟨hgrows.trans hgrows', fun m hm => ?_⟩
    simp only [Prod.map_fst, Term.map, Term.fold_app]
    exact congrArg₂ Term.app (hf m (hgrows'.trans hm)) (hargs m hm)

theorem restores_atom (a : Atom String) : Restores a.intern (fun m => Atom.map m.resolve) a := by
  intro k
  obtain ⟨hgrows, hrelation⟩ := restores_intern a.relation k
  obtain ⟨hgrows', hargs⟩ := restores_internAll (fun t (_ : t ∈ a.args) => restores_term t)
    (k.intern a.relation).2
  exact ⟨hgrows.trans hgrows', fun m hm =>
    congrArg₂ Atom.mk (hrelation m (hgrows'.trans hm)) (hargs m hm)⟩

theorem restores_formula (φ : Formula String) : Restores φ.intern (fun m => Formula.map m.resolve) φ := by
  induction φ with
  | atom a =>
    intro k
    obtain ⟨hgrows, ha⟩ := restores_atom a k
    exact ⟨hgrows, fun m hm => congrArg Formula.atom (ha m hm)⟩
  | rule head body ih =>
    intro k
    obtain ⟨hgrows, hhead⟩ := restores_atom head k
    obtain ⟨hgrows', hbody⟩ := restores_internAll ih (head.intern k).2
    rw [Formula.intern_rule]
    refine ⟨hgrows.trans hgrows', fun m hm => ?_⟩
    simp only [Prod.map_fst, Formula.map, Formula.fold_rule]
    exact congrArg₂ Formula.rule (hhead m (hgrows'.trans hm)) (hbody m hm)
  | neg φ ih =>
    intro k
    obtain ⟨hgrows, hφ⟩ := ih k
    exact ⟨hgrows, fun m hm => congrArg Formula.neg (hφ m hm)⟩
  | disj φs ih =>
    intro k
    obtain ⟨hgrows, hφs⟩ := restores_internAll ih k
    rw [Formula.intern_disj]
    refine ⟨hgrows, fun m hm => ?_⟩
    simp only [Prod.map_fst, Formula.map, Formula.fold_disj]
    exact congrArg Formula.disj (hφs m hm)

end Lexicon

/-! ## Rule text -/

/-- The mark of a variable in rule text for the one in what is shown, and any other character as it is. -/
def ruleMark (c : Char) : Char := if c = variableMark then '\'' else c

/-- The rule text of formulas: each as it is shown, with the mark that variables have in rule text, and
semicolons between them. -/
def Lexicon.ruleText (l : Lexicon) (φs : List (Formula Symbol)) : String :=
  ";".intercalate (φs.map fun φ => (l.showFormula φ).map ruleMark)

theorem isNamePart_or_of_isConstant {cs : List Char} (h : isConstant cs = true) :
    ∀ c ∈ cs, isNamePart c = true ∨ c = '-' := by
  have hnumeral {ds : List Char} (h : isNumeral ds = true) : ∀ d ∈ ds, isNamePart d = true := by
    rw [isNumeral, Bool.and_eq_true, List.all_eq_true] at h
    exact fun d hd => isNamePart_of_isDigit (h.1 d hd)
  simp only [isConstant, Bool.or_eq_true, Bool.and_eq_true, beq_iff_eq] at h
  rcases h with (h | h) | ⟨hhead, h⟩
  · obtain ⟨c, ns, rfl, hc, -, hns⟩ := exists_of_isName h
    exact List.forall_mem_cons.2 ⟨.inl hc, fun d hd => .inl (hns d hd)⟩
  · exact fun d hd => .inl (hnumeral h d hd)
  · rw [← List.cons_head?_tail hhead]
    exact List.forall_mem_cons.2 ⟨.inr rfl, fun d hd => .inl (hnumeral h d hd)⟩

theorem map_ruleMark_of_isConstant {cs : List Char} (h : isConstant cs = true) : cs.map ruleMark = cs := by
  have hfixed : ∀ c ∈ cs, ruleMark c = c := by
    intro c hc
    refine if_neg ?_
    rintro rfl
    exact absurd (isNamePart_or_of_isConstant h _ hc) (by decide)
  rw [List.map_congr_left hfixed, List.map_id']

theorem map_ruleMark_of_isName {cs : List Char} (h : isName cs = true) : cs.map ruleMark = cs :=
  map_ruleMark_of_isConstant (by simp [isConstant, h])

theorem map_ruleMark_commaSeparated (parts : List (List Char)) :
    (commaSeparated parts).map ruleMark = commaSeparated (parts.map (List.map ruleMark)) := by
  rw [commaSeparated, commaSeparated]
  induction parts with
  | nil => rfl
  | cons part parts ih =>
    cases parts with
    | nil => simp
    | cons part' parts =>
      rw [List.intercalate_cons_cons, List.map_append, List.map_append, ih]
      exact List.intercalate_cons_cons.symm

theorem map_ruleMark_parenthesized (parts : List (List Char)) :
    (parenthesized parts).map ruleMark = parenthesized (parts.map (List.map ruleMark)) := by
  rw [parenthesized, parenthesized, List.map_cons, List.map_append, map_ruleMark_commaSeparated]
  rfl

theorem Term.map_ruleMark_write (t : Term String) (h : t.isWritable = true) :
    (t.write variableMark).map ruleMark = t.write '\'' := by
  induction t with
  | const c => exact map_ruleMark_of_isConstant h
  | var x => exact congrArg (List.cons '\'') (map_ruleMark_of_isName h)
  | app f args ih =>
    rw [isWritable_app, Bool.and_eq_true, List.all_eq_true] at h
    have hargs : args.map (List.map ruleMark ∘ write variableMark) = args.map (write '\'') :=
      List.map_congr_left fun t ht => ih t ht (h.2 t ht)
    rw [write_app, write_app, List.map_append, map_ruleMark_of_isName h.1, map_ruleMark_parenthesized,
      List.map_map, hargs]

theorem Atom.map_ruleMark_write (a : Atom String) (h : a.isWritable = true) :
    (a.write variableMark).map ruleMark = a.write '\'' := by
  rw [isWritable, Bool.and_eq_true, List.all_eq_true] at h
  have hargs : a.args.map (List.map ruleMark ∘ Term.write variableMark) = a.args.map (Term.write '\'') :=
    List.map_congr_left fun t ht => t.map_ruleMark_write (h.2 t ht)
  rw [write, write, List.map_append, map_ruleMark_of_isName h.1]
  split_ifs
  · rfl
  · rw [map_ruleMark_parenthesized, List.map_map, hargs]

namespace Formula

theorem map_ruleMark_write_literal (φ : Formula String) (h : φ.isWritableLiteral = true) :
    (φ.write variableMark).map ruleMark = φ.write '\'' := by
  induction φ with
  | atom a => exact a.map_ruleMark_write (Bool.and_eq_true_iff.1 h).1
  | rule head body => simp [isWritableLiteral] at h
  | neg φ ih =>
    rw [write_neg, write_neg, List.map_append, map_ruleMark_parenthesized, List.map_singleton, ih h]
    rfl
  | disj φs ih =>
    rw [isWritableLiteral_disj, List.all_eq_true] at h
    have hφs : φs.map (List.map ruleMark ∘ write variableMark) = φs.map (write '\'') :=
      List.map_congr_left fun φ hφ => ih φ hφ (h φ hφ)
    rw [write_disj, write_disj, List.map_append, map_ruleMark_parenthesized, List.map_map, hφs]
    rfl

theorem map_ruleMark_write (φ : Formula String) (h : φ.isWritable = true) :
    (φ.write variableMark).map ruleMark = φ.write '\'' := by
  cases φ with
  | atom a => exact a.map_ruleMark_write h
  | rule head body =>
    simp only [isWritable, Bool.and_eq_true, List.all_eq_true] at h
    have hbody : body.map (List.map ruleMark ∘ write variableMark) = body.map (write '\'') :=
      List.map_congr_left fun φ hφ => map_ruleMark_write_literal φ (h.2 φ hφ)
    rw [write_rule, write_rule, List.map_append, List.map_append, head.map_ruleMark_write h.1.1,
      map_ruleMark_commaSeparated, List.map_map, hbody]
    rfl
  | neg φ => cases h
  | disj φs => cases h

end Formula

theorem Lexicon.toList_ruleText (l : Lexicon) {φs : List (Formula Symbol)}
    (h : ∀ φ ∈ φs, (φ.map l.resolve).isWritable = true) : (l.ruleText φs).toList =
      [';'].intercalate ((φs.map (Formula.map l.resolve)).map (Formula.write '\'')) := by
  rw [ruleText, String.toList_intercalate, List.map_map, List.map_map]
  refine congrArg _ (List.map_congr_left fun φ hφ => ?_)
  rw [Function.comp_apply, Function.comp_apply, String.toList_map, showFormula, String.toList_ofList,
    Formula.map_ruleMark_write _ (h φ hφ)]

/-- The rule text of facts and rules with plain names is read without an error, as formulas with the same
names. -/
theorem Text.readInto_ruleText (l k : Lexicon) {φs : List (Formula Symbol)}
    (h : ∀ φ ∈ φs, (φ.map l.resolve).isWritable = true) :
    ∃ ψs m, readInto (l.ruleText φs) k = .ok (ψs, m) ∧ k.Grows m ∧
      ψs.map (Formula.map m.resolve) = φs.map (Formula.map l.resolve) := by
  have hread := read_intercalate (List.forall_mem_map.2 h)
  rw [← l.toList_ruleText h] at hread
  obtain ⟨hgrows, hnames⟩ := Lexicon.restores_internAll (fun φ (_ : φ ∈ φs.map (Formula.map l.resolve)) =>
    Lexicon.restores_formula φ) k
  exact ⟨_, _, by rw [readInto, hread], hgrows, hnames _ (Lexicon.Grows.refl _)⟩

/-- Formulas that could be mistaken: `not` and `or` as relations, a function without arguments beside a
constant of the same name, numbers with a sign, variables with names that begin quoted texts, and a
disjunction of nothing. -/
def oddities : List (Formula String) :=
  [.atom ⟨"or", [.app "nil" [], .const "nil", .const "-7", .const "0"]⟩,
    .rule ⟨"not", [.var "b", .var "r"]⟩
      [.neg (.disj []), .atom ⟨"not", []⟩,
        .disj [.atom ⟨"or", []⟩, .neg (.neg (.atom ⟨"r", [.app "b" [.var "b"], .const "-12"]⟩))]]]

/-- The formulas above over symbols, and the lexicon of their names. -/
def interned : List (Formula Symbol) × Lexicon := internAll (oddities.map Formula.intern) .initial

example : interned.2.ruleText interned.1 =
    "or(nil(), nil, -7, 0);not('b, 'r) <= not(or()), not, or(or, not(not(r(b('b), -12))))" := by
  decide +kernel

theorem Text.readInto_ruleText_oddities :
    (∀ φ ∈ interned.1, (φ.map interned.2.resolve).isWritable = true) ∧
      ∃ ψs m, readInto (interned.2.ruleText interned.1) (.ofNames ["r", "-7"]) = .ok (ψs, m) ∧
        (Lexicon.ofNames ["r", "-7"]).Grows m ∧
        ψs.map (Formula.map m.resolve) = interned.1.map (Formula.map interned.2.resolve) := by
  have hwritable : ∀ φ ∈ interned.1, (φ.map interned.2.resolve).isWritable = true := by decide +kernel
  exact ⟨hwritable, readInto_ruleText _ _ hwritable⟩

end GameCircuit
