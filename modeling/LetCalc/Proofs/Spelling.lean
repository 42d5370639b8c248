import LetCalc.Literal
import LetCalc.Source

/-!
# Spelling

Each kind of token has its **spellings**: the texts that are written for it.  A lexeme is cut off
where the next character cannot make it longer, so a spelling is read back as a token of its kind if
what follows it does not go on with it (`endsBefore`).

Main statements: what is cut off is a spelling of its kind (`lexeme_spells`), and a spelling is cut
off as a whole (`lexeme_of_spells`).  `Source.tokens_of_spells` says the latter of a whole source,
and `Source.tokens_spelled` the former.
-/

namespace LetCalc

/-! ### Spellings -/

/-- Whether a text is a word. -/
def isWord : List Char → Bool
  | [] => false
  | c :: cs => isWordStart c && cs.all isWordChar

/-- Whether a text is an identifier: a word that is no keyword. -/
def isIdentifier (cs : List Char) : Bool :=
  isWord cs && (Token.Kind.keyword? (String.ofList cs)).isNone

/-- Whether a text is written for a kind of token. -/
def Token.Kind.spells (k : Token.Kind) (cs : List Char) : Bool :=
  match k with
  | .intLit => isIntNumeral cs
  | .realLit => isRealNumeral cs
  | .ident => isIdentifier cs
  | k => cs == k.spelling.toList

/-- Whether a token has a text that is written for its kind. -/
def Token.isSpelled (t : Token) : Bool :=
  t.kind.spells t.text.toList

/-- Whether a character cannot stand behind a spelling without being part of a longer one. -/
def Token.Kind.goesOn (k : Token.Kind) (c : Char) : Bool :=
  match k with
  | .intLit => c.isDigit || c == '.'
  | .realLit => c.isDigit
  | .ident => isWordChar c
  | .lt | .gt => c == '='
  | k => k ∈ keywords && isWordChar c

/-- Whether a spelling of a kind ends where a text starts. -/
def Token.Kind.endsBefore (k : Token.Kind) (rest : List Char) : Bool :=
  match rest with
  | [] => true
  | c :: _ => !k.goesOn c

/-- Where a spelling ends, the next character does not go on with it. -/
theorem Token.Kind.goesOn_eq_false {k : Token.Kind} {rest : List Char}
    (h : k.endsBefore rest = true) : ∀ d ∈ rest.head?, k.goesOn d = false := by
  cases rest with
  | nil => simp
  | cons c rest => simpa [endsBefore] using h

/-! ### Cutting a text at the first character outside a class -/

/-- The characters of a class in front are taken off as a whole, if the next one is not of the
class. -/
theorem takeWhile_append_eq {p : Char → Bool} {cs rest : List Char} (hcs : cs.all p)
    (hrest : ∀ c ∈ rest.head?, p c = false) : (cs ++ rest).takeWhile p = cs := by
  rw [List.takeWhile_append_of_pos (List.all_eq_true.mp hcs)]
  cases rest with
  | nil => simp
  | cons c rest => simp [hrest c rfl]

/-- What is left then is all that stands behind them. -/
theorem dropWhile_append_eq {p : Char → Bool} {cs rest : List Char} (hcs : cs.all p)
    (hrest : ∀ c ∈ rest.head?, p c = false) : (cs ++ rest).dropWhile p = rest := by
  rw [List.dropWhile_append_of_pos (List.all_eq_true.mp hcs)]
  cases rest with
  | nil => rfl
  | cons c rest => simp [hrest c rfl]

theorem all_takeWhile (p : Char → Bool) (cs : List Char) : (cs.takeWhile p).all p := by
  induction cs with
  | nil => rfl
  | cons c cs ih => by_cases hc : p c <;> simp_all

/-! ### Classes of characters -/

/-- The digits by their code points. -/
theorem isDigit_iff {c : Char} : c.isDigit = true ↔ 48 ≤ c.toNat ∧ c.toNat ≤ 57 := by
  simp only [Char.isDigit, Bool.and_eq_true, decide_eq_true_eq, ge_iff_le, UInt32.le_iff_toNat_le]
  exact Iff.rfl

/-- The letters and the underscore by their code points. -/
theorem isWordStart_iff {c : Char} :
    isWordStart c = true ↔
      (65 ≤ c.toNat ∧ c.toNat ≤ 90) ∨ (97 ≤ c.toNat ∧ c.toNat ≤ 122) ∨ c.toNat = 95 := by
  show (decide ('A'.val ≤ c.val ∧ c.val ≤ 'Z'.val) ||
    (decide ('a'.val ≤ c.val) && decide (c.val ≤ 'z'.val)) || c == '_') = true ↔ _
  simp only [Bool.or_eq_true, Bool.and_eq_true, decide_eq_true_eq, UInt32.le_iff_toNat_le,
    beq_iff_eq, or_assoc]
  rw [← Char.toNat_inj]
  exact Iff.rfl

/-- The visible characters of ASCII are no blanks. -/
theorem isBlank_eq_false_of_visible {c : Char} (h : 32 < c.toNat ∧ c.toNat < 127) :
    isBlank c = false := by
  simp only [isBlank, blankRanges, List.any_cons, List.any_nil, Bool.or_false,
    Bool.or_eq_false_iff, Bool.and_eq_false_iff, decide_eq_false_iff_not]
  omega

/-- No blank is a digit. -/
theorem isBlank_eq_false_of_isDigit {c : Char} (h : c.isDigit = true) : isBlank c = false := by
  have hc := isDigit_iff.mp h
  exact isBlank_eq_false_of_visible (by omega)

/-- No blank can start a word. -/
theorem isBlank_eq_false_of_isWordStart {c : Char} (h : isWordStart c = true) :
    isBlank c = false := by
  have hc := isWordStart_iff.mp h
  exact isBlank_eq_false_of_visible (by omega)

/-- A word does not start with a digit, so it is never taken for a number. -/
theorem isDigit_eq_false_of_isWordStart {c : Char} (h : isWordStart c = true) :
    c.isDigit = false := by
  have hc := isWordStart_iff.mp h
  rw [Bool.eq_false_iff]
  intro hd
  have hd := isDigit_iff.mp hd
  omega

theorem ne_point_of_isDigit {c : Char} (h : c.isDigit = true) : c ≠ '.' := by
  intro hc
  rw [hc] at h
  exact absurd h (by decide)

theorem ne_point_of_isWordStart {c : Char} (h : isWordStart c = true) : c ≠ '.' := by
  intro hc
  rw [hc] at h
  exact absurd h (by decide)

/-! ### Numerals -/

/-- A numeral for a real is cut at its point. -/
theorem isRealNumeral_iff {cs : List Char} :
    isRealNumeral cs = true ↔ ∃ whole fraction, cs = whole ++ '.' :: fraction ∧
      whole.all Char.isDigit = true ∧ isIntNumeral fraction = true := by
  constructor
  · intro h
    unfold isRealNumeral splitAtPoint? at h
    cases hdrop : cs.dropWhile (· != '.') with
    | nil => simp [hdrop] at h
    | cons c fraction =>
        simp only [hdrop, Bool.and_eq_true] at h
        have hpoint : c = '.' := by
          have hhead := List.head?_dropWhile_not (· != '.') cs
          simpa [hdrop] using hhead
        subst hpoint
        refine ⟨cs.takeWhile (· != '.'), fraction, ?_, h⟩
        rw [← hdrop, List.takeWhile_append_dropWhile]
  · intro h
    obtain ⟨whole, fraction, rfl, hwhole, hfraction⟩ := h
    have hne : whole.all (· != '.') = true := by
      rw [List.all_eq_true] at hwhole ⊢
      intro c hc
      exact bne_iff_ne.mpr (ne_point_of_isDigit (hwhole c hc))
    have hpoint : ∀ c ∈ ('.' :: fraction).head?, (c != '.') = false := by simp
    simp [isRealNumeral, splitAtPoint?, takeWhile_append_eq hne hpoint,
      dropWhile_append_eq hne hpoint, hwhole, hfraction]

/-- A point with digits behind it is a fraction, up to the last of them. -/
theorem fraction?_of_digits {digits rest : List Char} (hdigits : isIntNumeral digits = true)
    (hrest : ∀ c ∈ rest.head?, c.isDigit = false) :
    fraction? ('.' :: (digits ++ rest)) = some ('.' :: digits, rest) := by
  simp only [isIntNumeral, Bool.and_eq_true, Bool.not_eq_true', List.isEmpty_eq_false_iff]
    at hdigits
  obtain ⟨hne, hall⟩ := hdigits
  simp only [fraction?, takeWhile_append_eq hall hrest, dropWhile_append_eq hall hrest]

/-- There is no fraction without a point. -/
theorem fraction?_eq_none {cs : List Char} (h : ∀ c ∈ cs.head?, c ≠ '.') :
    fraction? cs = none := by
  unfold fraction?
  split
  · exact absurd rfl (h '.' rfl)
  · rfl

/-- Digits are cut off as an integer, unless they go on with a digit or a point. -/
theorem numeral?_of_int {cs rest : List Char} (hcs : isIntNumeral cs = true)
    (hrest : Token.Kind.intLit.endsBefore rest = true) :
    numeral? (cs ++ rest) = some ⟨.intLit, cs, rest⟩ := by
  have hdigit : ∀ c ∈ rest.head?, c.isDigit = false := by
    intro c hc
    exact (Bool.or_eq_false_iff.mp (Token.Kind.goesOn_eq_false hrest c hc)).1
  have hpoint : ∀ c ∈ rest.head?, c ≠ '.' := by
    intro c hc
    exact beq_eq_false_iff_ne.mp (Bool.or_eq_false_iff.mp (Token.Kind.goesOn_eq_false hrest c hc)).2
  simp only [isIntNumeral, Bool.and_eq_true, Bool.not_eq_true'] at hcs
  simp [numeral?, takeWhile_append_eq hcs.2 hdigit, dropWhile_append_eq hcs.2 hdigit,
    fraction?_eq_none hpoint, hcs.1]

/-- Digits with a fraction are cut off as a real number. -/
theorem numeral?_of_real {cs rest : List Char} (hcs : isRealNumeral cs = true)
    (hrest : Token.Kind.realLit.endsBefore rest = true) :
    numeral? (cs ++ rest) = some ⟨.realLit, cs, rest⟩ := by
  obtain ⟨whole, fraction, rfl, hwhole, hfraction⟩ := isRealNumeral_iff.mp hcs
  have hdigit : ∀ c ∈ rest.head?, c.isDigit = false := Token.Kind.goesOn_eq_false hrest
  have hpoint : ∀ c ∈ ('.' :: (fraction ++ rest)).head?, c.isDigit = false := by simp
  simp [numeral?, takeWhile_append_eq hwhole hpoint, dropWhile_append_eq hwhole hpoint,
    fraction?_of_digits hfraction hdigit]

/-- A number starts with a digit or a point. -/
theorem numeral?_eq_none {c : Char} {cs : List Char} (hdigit : c.isDigit = false)
    (hpoint : c ≠ '.') : numeral? (c :: cs) = none := by
  have hnone : fraction? (c :: cs) = none := fraction?_eq_none (by simpa using hpoint)
  simp [numeral?, hdigit, hnone]

/-- What is cut off as a numeral is one. -/
theorem numeral?_spells {cs : List Char} {x : Lexeme} (h : numeral? cs = some x) :
    x.kind.spells x.text = true := by
  have hall := all_takeWhile Char.isDigit cs
  unfold numeral? at h
  simp only at h
  split at h
  · rename_i digits after hfraction
    cases h
    unfold fraction? at hfraction
    split at hfraction
    · rename_i rest hrest
      split at hfraction
      · cases hfraction
      · rename_i hne
        cases hfraction
        refine isRealNumeral_iff.mpr ⟨_, _, rfl, hall, ?_⟩
        simpa [isIntNumeral] using hne
    · cases hfraction
  · split at h
    · cases h
    · rename_i hne
      cases h
      simp [Token.Kind.spells, isIntNumeral, hne, hall]

/-! ### Words -/

/-- A word is cut off as a whole, as a keyword or as a name. -/
theorem word?_of_isWord {cs rest : List Char} (hcs : isWord cs = true)
    (hrest : ∀ d ∈ rest.head?, isWordChar d = false) :
    word? (cs ++ rest) =
      some ⟨(Token.Kind.keyword? (String.ofList cs)).getD .ident, cs, rest⟩ := by
  cases cs with
  | nil => cases hcs
  | cons c cs =>
      obtain ⟨hc, hall⟩ := Bool.and_eq_true_iff.mp hcs
      simp [word?, hc, takeWhile_append_eq hall hrest, dropWhile_append_eq hall hrest]

/-- A word is no numeral. -/
theorem numeral?_eq_none_of_isWord {cs rest : List Char} (hcs : isWord cs = true) :
    numeral? (cs ++ rest) = none := by
  cases cs with
  | nil => cases hcs
  | cons c cs =>
      have hc := (Bool.and_eq_true_iff.mp hcs).1
      exact numeral?_eq_none (isDigit_eq_false_of_isWordStart hc) (ne_point_of_isWordStart hc)

/-- Keywords are words. -/
theorem isWord_spelling {k : Token.Kind} (hk : k ∈ Token.Kind.keywords) :
    isWord k.spelling.toList = true := by
  revert k
  decide

/-- A keyword is found by its spelling. -/
theorem keyword?_spelling {k : Token.Kind} (hk : k ∈ Token.Kind.keywords) :
    Token.Kind.keyword? k.spelling = some k := by
  revert k
  decide

/-- Only a keyword is found by its spelling. -/
theorem eq_spelling_of_keyword? {s : String} {k : Token.Kind}
    (h : Token.Kind.keyword? s = some k) : s = k.spelling ∧ k ∈ Token.Kind.keywords := by
  have hspelling := List.find?_some h
  exact ⟨(eq_of_beq hspelling).symm, List.mem_of_find?_eq_some h⟩

/-- A keyword has one spelling. -/
theorem spells_of_mem_keywords {k : Token.Kind} (hk : k ∈ Token.Kind.keywords) (cs : List Char) :
    k.spells cs = (cs == k.spelling.toList) := by
  cases k with
  | intLit | realLit | ident => exact absurd hk (by decide)
  | _ => rfl

/-- What is cut off as a word is a keyword or an identifier. -/
theorem word?_spells {cs : List Char} {x : Lexeme} (h : word? cs = some x) :
    x.kind.spells x.text = true := by
  unfold word? at h
  split at h
  · cases h
  · rename_i c cs
    split at h
    · rename_i hc
      cases h
      have hword : isWord (c :: cs.takeWhile isWordChar) = true := by
        simp [isWord, hc]
      cases hk : Token.Kind.keyword? (String.ofList (c :: cs.takeWhile isWordChar)) with
      | none =>
          show isIdentifier (c :: cs.takeWhile isWordChar) = true
          rw [isIdentifier, hword, hk]
          rfl
      | some k =>
          obtain ⟨hspelling, hmem⟩ := eq_spelling_of_keyword? hk
          simp [spells_of_mem_keywords hmem, ← hspelling]
    · cases h

/-! ### Symbols -/

/-- A word starts with a letter or an underscore. -/
theorem word?_eq_none {c : Char} {cs : List Char} (hc : isWordStart c = false) :
    word? (c :: cs) = none := by
  simp [word?, hc]

/-- What starts neither a numeral nor a word is cut off as a symbol. -/
theorem lexeme_eq_symbol {c : Char} {cs : List Char} (hdigit : c.isDigit = false)
    (hpoint : c ≠ '.') (hword : isWordStart c = false) : lexeme c cs = symbol c cs := by
  rw [lexeme, numeral?_eq_none hdigit hpoint, word?_eq_none hword]
  rfl

/-- A character and an equals sign spell the symbol that they are taken for. -/
theorem spells_withEquals? {c : Char} {k : Token.Kind} (h : withEquals? c = some k) :
    k.spells [c, '='] = true := by
  unfold withEquals? at h
  split at h <;> cases h <;> decide

/-- A character alone spells the symbol that it is taken for. -/
theorem spells_alone {c : Char} {k : Token.Kind} (h : alone c = .ok k) :
    k.spells [c] = true := by
  unfold alone at h
  split at h <;> cases h <;> decide

/-- A symbol with an equals sign is cut off with it. -/
theorem lexeme_of_withEquals? {c : Char} {k : Token.Kind} (h : withEquals? c = some k)
    (rest : List Char) : lexeme c ('=' :: rest) = .ok ⟨k, [c, '='], rest⟩ := by
  have hsymbol : c.isDigit = false ∧ c ≠ '.' ∧ isWordStart c = false := by
    unfold withEquals? at h
    split at h <;> cases h <;> decide
  rw [lexeme_eq_symbol hsymbol.1 hsymbol.2.1 hsymbol.2.2]
  simp [symbol, h]

/-- A symbol of one character is cut off, unless an equals sign makes it longer. -/
theorem lexeme_of_alone {c : Char} {k : Token.Kind} {rest : List Char} (h : alone c = .ok k)
    (hrest : withEquals? c = none ∨ ∀ d ∈ rest.head?, d ≠ '=') :
    lexeme c rest = .ok ⟨k, [c], rest⟩ := by
  have hsymbol : c.isDigit = false ∧ c ≠ '.' ∧ isWordStart c = false := by
    unfold alone at h
    split at h <;> cases h <;> decide
  rw [lexeme_eq_symbol hsymbol.1 hsymbol.2.1 hsymbol.2.2]
  unfold symbol
  split
  · rename_i hk
    rcases hrest with hnone | hne
    · rw [hnone] at hk
      cases hk
    · exact absurd rfl (hne '=' rfl)
  · rw [h]
    rfl

/-- What is cut off as a symbol is one. -/
theorem symbol_spells {c : Char} {cs : List Char} {x : Lexeme} (h : symbol c cs = .ok x) :
    x.kind.spells x.text = true := by
  unfold symbol at h
  split at h
  · rename_i hk
    cases h
    exact spells_withEquals? hk
  · cases hk : alone c with
    | error f => rw [hk] at h; cases h
    | ok k =>
        rw [hk] at h
        cases h
        exact spells_alone hk

/-! ### Lexemes -/

/-- What is cut off is a spelling of its kind. -/
theorem lexeme_spells {c : Char} {cs : List Char} {x : Lexeme} (h : lexeme c cs = .ok x) :
    x.kind.spells x.text = true := by
  unfold lexeme at h
  split at h
  · rename_i y hy
    cases h
    cases hn : numeral? (c :: cs) with
    | some z =>
        rw [hn] at hy
        cases hy
        exact numeral?_spells hn
    | none =>
        rw [hn] at hy
        have hword : word? (c :: cs) = some x := hy
        exact word?_spells hword
  · exact symbol_spells h

/-- A keyword is cut off, unless it is the beginning of a longer word. -/
theorem lexeme_of_keyword {k : Token.Kind} {c : Char} {cs rest : List Char}
    (hk : k ∈ Token.Kind.keywords) (hs : c :: cs = k.spelling.toList)
    (hrest : ∀ d ∈ rest.head?, isWordChar d = false) :
    lexeme c (cs ++ rest) = .ok ⟨k, c :: cs, rest⟩ := by
  have hword : isWord (c :: cs) = true := hs ▸ isWord_spelling hk
  have hkey : Token.Kind.keyword? (String.ofList (c :: cs)) = some k := by
    rw [hs, String.ofList_toList, keyword?_spelling hk]
  rw [lexeme, ← List.cons_append, numeral?_eq_none_of_isWord hword, word?_of_isWord hword hrest,
    hkey]
  rfl

/-- A spelling is cut off as a whole, if what follows does not go on with it. -/
theorem lexeme_of_spells {k : Token.Kind} {c : Char} {cs rest : List Char}
    (hs : k.spells (c :: cs) = true) (he : k.endsBefore rest = true) :
    lexeme c (cs ++ rest) = .ok ⟨k, c :: cs, rest⟩ := by
  have hgoes := Token.Kind.goesOn_eq_false he
  by_cases hk : k ∈ Token.Kind.keywords
  · have hword : ∀ d ∈ rest.head?, isWordChar d = false := by
      intro d hd
      have hd := hgoes d hd
      cases k <;> simp_all [Token.Kind.goesOn, Token.Kind.keywords]
    rw [spells_of_mem_keywords hk] at hs
    exact lexeme_of_keyword hk (eq_of_beq hs) hword
  · cases k with
    | intLit =>
        rw [lexeme, ← List.cons_append, numeral?_of_int hs he]
        rfl
    | realLit =>
        rw [lexeme, ← List.cons_append, numeral?_of_real hs he]
        rfl
    | ident =>
        obtain ⟨hword, hkey⟩ := Bool.and_eq_true_iff.mp hs
        rw [lexeme, ← List.cons_append, numeral?_eq_none_of_isWord hword,
          word?_of_isWord hword hgoes, Option.isNone_iff_eq_none.mp hkey]
        rfl
    | plus | minus | star | slash | eq | lparen | rparen | semicolon =>
        simp only [Token.Kind.spells, Token.Kind.spelling, beq_iff_eq] at hs
        cases hs
        exact lexeme_of_alone rfl (.inl rfl)
    | lt | gt =>
        simp only [Token.Kind.spells, Token.Kind.spelling, beq_iff_eq] at hs
        cases hs
        exact lexeme_of_alone rfl (.inr fun d hd => beq_eq_false_iff_ne.mp (hgoes d hd))
    | le | ge | ne | assign =>
        simp only [Token.Kind.spells, Token.Kind.spelling, beq_iff_eq] at hs
        cases hs
        exact lexeme_of_withEquals? rfl rest
    | endOfInput => cases hs
    | _ => exact absurd (by decide) hk

/-! ### Sources -/

/-- No lexeme starts with a blank. -/
theorem isBlank_eq_false_of_spells {k : Token.Kind} {c : Char} {cs : List Char}
    (hs : k.spells (c :: cs) = true) : isBlank c = false := by
  by_cases hk : k ∈ Token.Kind.keywords
  · rw [spells_of_mem_keywords hk] at hs
    have hword := isWord_spelling hk
    rw [← eq_of_beq hs] at hword
    exact isBlank_eq_false_of_isWordStart (Bool.and_eq_true_iff.mp hword).1
  · cases k with
    | intLit =>
        simp only [Token.Kind.spells, isIntNumeral, List.all_cons, Bool.and_eq_true] at hs
        exact isBlank_eq_false_of_isDigit hs.2.1
    | realLit =>
        obtain ⟨whole, fraction, heq, hwhole, -⟩ := isRealNumeral_iff.mp hs
        cases whole with
        | nil =>
            cases heq
            decide
        | cons d whole =>
            cases heq
            exact isBlank_eq_false_of_isDigit (List.all_eq_true.mp hwhole c List.mem_cons_self)
    | ident =>
        have hword := (Bool.and_eq_true_iff.mp hs).1
        exact isBlank_eq_false_of_isWordStart (Bool.and_eq_true_iff.mp hword).1
    | endOfInput => cases hs
    | plus | minus | star | slash | lt | le | gt | ge | eq | ne | assign | lparen | rparen
    | semicolon =>
        simp only [Token.Kind.spells, Token.Kind.spelling, beq_iff_eq] at hs
        cases hs
        decide
    | _ => exact absurd (by decide) hk

theorem Token.kind_endAt (n : Nat) : (Token.endAt n).kind = .endOfInput := rfl

namespace Source

/-- Puts tokens before those of a result. -/
def prepend (ts : List Token) (r : Except LexError (List Token) × Source) :
    Except LexError (List Token) × Source :=
  (r.1.map (ts ++ ·), r.2)

/-- Tokens that are put in front twice are put there together. -/
theorem prepend_prepend (ts us : List Token) (r : Except LexError (List Token) × Source) :
    prepend ts (prepend us r) = prepend (ts ++ us) r := by
  obtain ⟨r, left⟩ := r
  cases r with
  | error e => rfl
  | ok vs => simp [prepend, Except.map]

/-- At its end a source has the end token only. -/
theorem tokens_nil (line : Nat) : tokens ⟨[], line⟩ = (.ok [Token.endAt line], ⟨[], line⟩) := by
  rw [tokens]

/-- A blank is skipped, and counts as a line if it is a line feed. -/
theorem tokens_of_isBlank {c : Char} (h : isBlank c = true) (cs : List Char) (line : Nat) :
    tokens ⟨c :: cs, line⟩ = tokens ⟨cs, lineAfter c line⟩ := by
  rw [tokens, if_pos h]

/-- What is cut off is a token on the present line, in front of all others. -/
theorem tokens_of_lexeme {c : Char} {cs : List Char} {x : Lexeme} (hc : isBlank c = false)
    (h : lexeme c cs = .ok x) (line : Nat) :
    tokens ⟨c :: cs, line⟩ =
      prepend [⟨x.kind, String.ofList x.text, line⟩] (tokens ⟨x.rest, line⟩) := by
  rw [tokens, if_neg (by simp [hc])]
  split
  · rename_i heq
    rw [h] at heq
    cases heq
  · rename_i y heq
    rw [h] at heq
    cases heq
    rfl

/-- A spelling is read as a token of its kind, if what follows does not go on with it. -/
theorem tokens_of_spells {k : Token.Kind} {cs rest : List Char} (hk : k ≠ .endOfInput)
    (hs : k.spells cs = true) (he : k.endsBefore rest = true) (line : Nat) :
    tokens ⟨cs ++ rest, line⟩ = prepend [⟨k, String.ofList cs, line⟩] (tokens ⟨rest, line⟩) := by
  cases cs with
  | nil =>
      cases k with
      | endOfInput => exact absurd rfl hk
      | _ => cases hs
  | cons c cs =>
      exact tokens_of_lexeme (isBlank_eq_false_of_spells hs) (lexeme_of_spells hs he) line

/-- At a fault the tokens end with an error, and the source stands behind the bad character. -/
theorem tokens_of_fault {c : Char} {cs : List Char} {f : LexFault} (hc : isBlank c = false)
    (h : lexeme c cs = .error f) (line : Nat) :
    tokens ⟨c :: cs, line⟩ = (.error ⟨f, line⟩, ⟨cs, line⟩) := by
  rw [tokens, if_neg (by simp [hc])]
  split
  · rename_i heq
    rw [h] at heq
    cases heq
    rfl
  · rename_i heq
    rw [h] at heq
    cases heq

/-- There are tokens behind others exactly if there are tokens on their own. -/
theorem prepend_eq_ok {us ts : List Token} {r : Except LexError (List Token) × Source} :
    (prepend us r).1 = .ok ts ↔ ∃ vs, r.1 = .ok vs ∧ ts = us ++ vs := by
  obtain ⟨r, left⟩ := r
  cases r with
  | error e => simp [prepend, Except.map]
  | ok vs => simp [prepend, Except.map, eq_comm]

/-- A lexeme makes a spelled token that is no end token. -/
theorem isSpelled_of_lexeme {c : Char} {cs : List Char} {x : Lexeme} (h : lexeme c cs = .ok x)
    (line : Nat) :
    Token.isSpelled ⟨x.kind, String.ofList x.text, line⟩ = true ∧ x.kind ≠ .endOfInput := by
  have hspells := lexeme_spells h
  constructor
  · simpa [Token.isSpelled] using hspells
  · intro hk
    rw [hk] at hspells
    exact (lexeme_append h).2 (by simpa [Token.Kind.spells, Token.Kind.spelling] using hspells)

/-- What is read are spelled tokens, with one end token behind them. -/
theorem tokens_spelled {s : Source} {ts : List Token} (h : s.tokens.1 = .ok ts) :
    ∃ w line, ts = w ++ [Token.endAt line] ∧
      ∀ t ∈ w, t.isSpelled = true ∧ t.kind ≠ .endOfInput := by
  induction s using Source.tokens.induct generalizing ts with
  | case1 line =>
      rw [tokens_nil] at h
      cases h
      exact ⟨[], line, rfl, by simp⟩
  | case2 c cs line hc ih =>
      rw [tokens_of_isBlank hc] at h
      exact ih h
  | case3 c cs line hc f hx =>
      rw [tokens_of_fault (Bool.eq_false_iff.mpr hc) hx] at h
      cases h
  | case4 c cs line hc x hx _ _ _ ih =>
      rw [tokens_of_lexeme (Bool.eq_false_iff.mpr hc) hx] at h
      obtain ⟨vs, hvs, rfl⟩ := prepend_eq_ok.mp h
      obtain ⟨w, last, rfl, hw⟩ := ih hvs
      refine ⟨_ :: w, last, rfl, ?_⟩
      intro t ht
      rcases List.mem_cons.mp ht with rfl | ht
      · exact isSpelled_of_lexeme hx line
      · exact hw t ht

end Source

end LetCalc
