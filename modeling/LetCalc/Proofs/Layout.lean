import LetCalc.Proofs.Reading
import LetCalc.Proofs.Seam

/-!
# The layout of a text

A text that can be cut into tokens is made up of their texts, in order, and of blanks before,
between and behind them: **nothing is lost** and nothing is added.  Of each token the following
holds.

* Its kind is the only one that its text is written for.
* It is as long as it can be: no longer start of what is left there is written for any kind
  (`lexeme_longest`).
* Its line is told by the line feeds before it.

The other way round, spelled tokens can be written out with any blanks around them.  If a blank at
least keeps two neighbours apart, then just these tokens are read back.

Main statements: `tokens_layout` and `tokens_of_standApart`.
-/

namespace LetCalc

/-! ### A lexeme is as long as it can be -/

/-- A text is written for one kind of token at most. -/
theorem Token.Kind.eq_of_spells {k k' : Token.Kind} {cs : List Char} (hne : cs ≠ [])
    (h : k.spells cs = true) (h' : k'.spells cs = true) : k' = k := by
  cases cs with
  | nil => exact absurd rfl hne
  | cons c cs =>
      have hends : ∀ k : Token.Kind, k.endsBefore [] = true := fun _ => rfl
      have hlexeme := lexeme_of_spells h (hends k)
      rw [lexeme_of_spells h' (hends k')] at hlexeme
      cases hlexeme
      rfl

/-- Digits at the front of a text are part of the numeral there. -/
theorem exists_numeral?_of_int {u : List Char} (hu : isIntNumeral u = true) (v : List Char) :
    ∃ x, numeral? (u ++ v) = some x ∧ u <+: x.text := by
  obtain ⟨hne, hall⟩ := (Bool.and_eq_true _ _).mp hu
  have hwhole : (u ++ v).takeWhile Char.isDigit = u ++ v.takeWhile Char.isDigit :=
    List.takeWhile_append_of_pos (List.all_eq_true.mp hall)
  unfold numeral?
  simp only [hwhole]
  split
  · rename_i digits after _
    refine ⟨_, rfl, ?_⟩
    show u <+: u ++ v.takeWhile Char.isDigit ++ digits
    rw [List.append_assoc]
    exact List.prefix_append u _
  · refine ⟨_, if_neg ?_, List.prefix_append u _⟩
    cases u with
    | nil => cases hne
    | cons c u => simp

theorem isIntNumeral_append {u w : List Char} (hu : isIntNumeral u = true)
    (hw : w.all Char.isDigit = true) : isIntNumeral (u ++ w) = true := by
  obtain ⟨hne, hall⟩ := (Bool.and_eq_true _ _).mp hu
  refine (Bool.and_eq_true _ _).mpr ⟨?_, ?_⟩
  · cases u with
    | nil => cases hne
    | cons c u => rfl
  · rw [List.all_append, hall, hw]
    rfl

/-- A numeral for a real at the front of a text is part of the numeral there: with the digits that
follow, it is one still. -/
theorem exists_numeral?_of_real {u : List Char} (hu : isRealNumeral u = true) (v : List Char) :
    ∃ x, numeral? (u ++ v) = some x ∧ u <+: x.text := by
  obtain ⟨whole, fraction, rfl, hwhole, hfraction⟩ := isRealNumeral_iff.mp hu
  have hlonger : isRealNumeral (whole ++ '.' :: fraction ++ v.takeWhile Char.isDigit) = true := by
    refine isRealNumeral_iff.mpr ⟨whole, fraction ++ v.takeWhile Char.isDigit, ?_, hwhole, ?_⟩
    · rw [List.append_assoc, List.cons_append]
    · exact isIntNumeral_append hfraction (all_takeWhile Char.isDigit v)
  have hends : Token.Kind.realLit.endsBefore (v.dropWhile Char.isDigit) = true :=
    Token.Kind.endsBefore_of_head? head?_dropWhile_eq_false
  have hnumeral := numeral?_of_real hlonger hends
  rw [List.append_assoc, List.takeWhile_append_dropWhile] at hnumeral
  exact ⟨_, hnumeral, List.prefix_append _ _⟩

/-- A word at the front of a text is part of the word there. -/
theorem exists_word?_of_isWord {u : List Char} (hu : isWord u = true) (v : List Char) :
    ∃ x, word? (u ++ v) = some x ∧ u <+: x.text := by
  cases u with
  | nil => cases hu
  | cons c u =>
      obtain ⟨hc, hall⟩ := (Bool.and_eq_true _ _).mp hu
      have htake : (u ++ v).takeWhile isWordChar = u ++ v.takeWhile isWordChar :=
        List.takeWhile_append_of_pos (List.all_eq_true.mp hall)
      refine ⟨_, if_pos hc, ?_⟩
      show c :: u <+: c :: (u ++ v).takeWhile isWordChar
      rw [htake]
      exact List.prefix_append (c :: u) _

/-- A numeral or a word at the front of a text is part of the lexeme there. -/
theorem exists_lexeme_of_front {c : Char} {u : List Char}
    (hu : isIntNumeral (c :: u) = true ∨ isRealNumeral (c :: u) = true ∨ isWord (c :: u) = true)
    (v : List Char) : ∃ x, lexeme c (u ++ v) = .ok x ∧ c :: u <+: x.text := by
  unfold lexeme
  rw [← List.cons_append]
  rcases hu with hint | hreal | hword
  · obtain ⟨x, hx, hfront⟩ := exists_numeral?_of_int hint v
    rw [hx]
    exact ⟨x, rfl, hfront⟩
  · obtain ⟨x, hx, hfront⟩ := exists_numeral?_of_real hreal v
    rw [hx]
    exact ⟨x, rfl, hfront⟩
  · obtain ⟨x, hx, hfront⟩ := exists_word?_of_isWord hword v
    rw [numeral?_eq_none_of_isWord hword, hx]
    exact ⟨x, rfl, hfront⟩

/-- A spelling that could go on is a numeral, a word or a single character. -/
theorem Token.Kind.spells_of_goesOn {k : Token.Kind} {u : List Char} {d : Char}
    (hu : k.spells u = true) (hd : k.goesOn d = true) :
    (isIntNumeral u = true ∨ isRealNumeral u = true ∨ isWord u = true) ∨ u.length = 1 := by
  by_cases hk : k ∈ keywords
  · rw [spells_of_mem_keywords hk] at hu
    rw [eq_of_beq hu]
    exact .inl (.inr (.inr (isWord_spelling hk)))
  · cases k with
    | intLit => exact .inl (.inl hu)
    | realLit => exact .inl (.inr (.inl hu))
    | ident => exact .inl (.inr (.inr (Bool.and_eq_true_iff.mp hu).1))
    | lt | gt =>
        rw [eq_of_beq hu]
        exact .inr rfl
    | _ => simp_all [goesOn]

/-- **Longest match.**  Of all that could be cut off the front of a text a lexeme is longest. -/
theorem lexeme_longest {c : Char} {cs : List Char} {x : Lexeme} (h : lexeme c cs = .ok x)
    {k : Token.Kind} {u : List Char} (hu : k.spells u = true) (hfront : u <+: c :: cs) :
    u.length ≤ x.text.length := by
  obtain ⟨v, hv⟩ := hfront
  cases u with
  | nil => exact Nat.zero_le _
  | cons d u =>
      rw [List.cons_append] at hv
      cases hv
      by_cases hends : k.endsBefore v = true
      · rw [lexeme_of_spells hu hends] at h
        cases h
        exact Nat.le_refl _
      · -- the spelling goes on, and then it is a part of the lexeme, or one character long
        obtain ⟨e, hgoes⟩ : ∃ e, k.goesOn e = true := by
          cases v with
          | nil => exact absurd rfl hends
          | cons e v => exact ⟨e, by simpa [Token.Kind.endsBefore] using hends⟩
        rcases Token.Kind.spells_of_goesOn hu hgoes with hpart | hone
        · obtain ⟨y, hy, hfront⟩ := exists_lexeme_of_front hpart v
          rw [hy] at h
          cases h
          exact hfront.length_le
        · rw [hone]
          exact List.length_pos_iff.mpr (lexeme_append h).2

/-! ### Pieces of a text -/

/-- A token with the blanks that stand before it. -/
structure Piece where
  blanks : List Char
  token : Token

/-- The characters of a piece. -/
def Piece.chars (p : Piece) : List Char :=
  p.blanks ++ p.token.text.toList

/-- The characters of pieces, one after the other. -/
def written (ps : List Piece) : List Char :=
  ps.flatMap Piece.chars

theorem written_cons (p : Piece) (ps : List Piece) : written (p :: ps) = p.chars ++ written ps :=
  rfl

/-- `p.Fits before behind`: the piece `p` is rightly cut off, where the characters `before` stand
before it and `behind` behind it in a text. -/
structure Piece.Fits (p : Piece) (before behind : List Char) : Prop where
  /-- Only blanks are skipped. -/
  blank : ∀ c ∈ p.blanks, isBlank c = true
  /-- The token is none that closes a text. -/
  kind_ne : p.token.kind ≠ .endOfInput
  /-- The kind of the token is the one that its text is written for. -/
  kind_iff : ∀ k : Token.Kind, k.spells p.token.text.toList = true ↔ k = p.token.kind
  /-- The line of the token is told by the line feeds before it. -/
  line_eq : p.token.line = 1 + (before ++ p.blanks).count '\n'
  /-- No longer start of what is left is written for any kind. -/
  longest : ∀ (k : Token.Kind) (u : List Char), k.spells u = true →
    u <+: p.token.text.toList ++ behind → u.length ≤ p.token.text.toList.length

/-- A lexeme makes a piece that fits, whatever stands before it. -/
theorem Piece.fits_of_lexeme {c : Char} {cs : List Char} {x : Lexeme} (h : lexeme c cs = .ok x)
    {before blanks : List Char} (hblanks : ∀ c ∈ blanks, isBlank c = true) {line : Nat}
    (hline : line = 1 + (before ++ blanks).count '\n') :
    Piece.Fits ⟨blanks, ⟨x.kind, String.ofList x.text, line⟩⟩ before x.rest := by
  have hspells := lexeme_spells h
  obtain ⟨happend, hne⟩ := lexeme_append h
  refine ⟨hblanks, (Source.isSpelled_of_lexeme h line).2, ?_, hline, ?_⟩
  · intro k
    rw [String.toList_ofList]
    constructor
    · intro hk
      exact Token.Kind.eq_of_spells hne hspells hk
    · rintro rfl
      exact hspells
  · intro k u hu hfront
    rw [String.toList_ofList, happend] at hfront
    rw [String.toList_ofList]
    exact lexeme_longest h hu hfront

/-! ### The pieces of a source -/

theorem Source.lineAfter_eq (c : Char) (line : Nat) :
    lineAfter c line = line + [c].count '\n' := by
  rw [lineAfter, List.count_singleton]
  by_cases hc : c = '\n'
  · simp [hc]
  · simp [hc]

/-- The tokens of a source are cut off as pieces that fit.  The characters `before` stand before the
source in the whole text, and `blanks` behind those have been skipped already. -/
theorem Source.exists_pieces {s : Source} {w : List Token} {n : Nat}
    (h : s.tokens.1 = .ok (w ++ [Token.endAt n])) {before blanks : List Char}
    (hblanks : ∀ c ∈ blanks, isBlank c = true)
    (hline : s.line = 1 + (before ++ blanks).count '\n') :
    ∃ pieces trailing, w = pieces.map Piece.token ∧ blanks ++ s.text = written pieces ++ trailing ∧
      (∀ c ∈ trailing, isBlank c = true) ∧
      ∀ front p back, pieces = front ++ p :: back →
        p.Fits (before ++ written front) (written back ++ trailing) := by
  induction s using Source.tokens.induct generalizing w before blanks with
  | case1 line =>
      rw [tokens_nil] at h
      obtain ⟨rfl, -⟩ := append_endAt_inj (w := []) (Except.ok.inj h)
      refine ⟨[], blanks, rfl, List.append_nil blanks, hblanks, ?_⟩
      intro front p back hsplit
      cases front with
      | nil => cases hsplit
      | cons q front => cases hsplit
  | case2 c cs line hc ih =>
      rw [tokens_of_isBlank hc] at h
      have hmore : ∀ d ∈ blanks ++ [c], isBlank d = true :=
        List.forall_mem_append.mpr ⟨hblanks, List.forall_mem_singleton.mpr hc⟩
      have hnext : lineAfter c line = 1 + (before ++ (blanks ++ [c])).count '\n' := by
        rw [lineAfter_eq, ← List.append_assoc, List.count_append, ← Nat.add_assoc, ← hline]
      obtain ⟨pieces, trailing, hw, htext, hrest⟩ := ih h hmore hnext
      rw [List.append_assoc] at htext
      exact ⟨pieces, trailing, hw, htext, hrest⟩
  | case3 c cs line hc f hx =>
      rw [tokens_of_fault (Bool.eq_false_iff.mpr hc) hx] at h
      cases h
  | case4 c cs line hc x hx _ _ _ ih =>
      obtain ⟨v, rfl, hv⟩ := exists_tokens_rest (Bool.eq_false_iff.mpr hc) hx h
      have happend := (lexeme_append hx).1
      have hnext : line = 1 + (before ++ blanks ++ x.text ++ []).count '\n' := by
        rw [List.append_nil, List.count_append, List.count_eq_zero.mpr (newline_not_mem_lexeme hx)]
        exact hline
      obtain ⟨pieces, trailing, rfl, htext, htrailing, hfits⟩ :=
        ih hv (List.forall_mem_nil _) hnext
      rw [List.nil_append] at htext
      refine ⟨⟨blanks, ⟨x.kind, String.ofList x.text, line⟩⟩ :: pieces, trailing, rfl, ?_,
        htrailing, ?_⟩
      · rw [written_cons, Piece.chars, String.toList_ofList, List.append_assoc, List.append_assoc,
          ← htext, happend]
      · intro front p back hsplit
        cases front with
        | nil =>
            cases hsplit
            rw [← htext]
            show Piece.Fits _ (before ++ []) x.rest
            rw [List.append_nil]
            exact Piece.fits_of_lexeme hx hblanks hline
        | cons q front =>
            cases hsplit
            have hlater := hfits front p back rfl
            rw [written_cons, Piece.chars, String.toList_ofList]
            simpa only [List.append_assoc] using hlater

/-- **Nothing is lost, and every token is as long as it can be.**  A text that can be cut into
tokens is made up of the texts of the tokens, in order, and of blanks before, between and behind
them.  Each token has the one kind that its text is written for and the line on which it stands, and
no longer start of the text from there on is written for any kind.  Only the last token is an end
token; it is empty, and on the last line. -/
theorem tokens_layout {s : String} {ts : List Token} (h : (Source.ofString s).tokens.1 = .ok ts) :
    ∃ pieces trailing,
      ts = pieces.map Piece.token ++ [Token.endAt (1 + s.toList.count '\n')] ∧
      s.toList = written pieces ++ trailing ∧ (∀ c ∈ trailing, isBlank c = true) ∧
      ∀ front p back, pieces = front ++ p :: back →
        p.Fits (written front) (written back ++ trailing) := by
  obtain ⟨w, n, rfl, -⟩ := Source.tokens_spelled h
  have hend : n = 1 + s.toList.count '\n' := Source.tokens_endAt h
  have hstart : (Source.ofString s).line = 1 + (([] : List Char) ++ []).count '\n' := rfl
  obtain ⟨pieces, trailing, rfl, htext, htrailing, hfits⟩ :=
    Source.exists_pieces h (List.forall_mem_nil _) hstart
  exact ⟨pieces, trailing, by rw [hend], htext, htrailing, hfits⟩

/-- Two reals stand side by side, a comparison is not cut in two, and `letx` is no keyword. -/
theorem tokens_layout_side_by_side :
    (Source.ofString " 1.5.3\n<=letx ").tokens.1 =
      .ok ([⟨.realLit, "1.5", 1⟩, ⟨.realLit, ".3", 1⟩, ⟨.le, "<=", 2⟩, ⟨.ident, "letx", 2⟩] ++
        [Token.endAt 2]) ∧
    ∃ pieces trailing,
      [⟨.realLit, "1.5", 1⟩, ⟨.realLit, ".3", 1⟩, ⟨.le, "<=", 2⟩, ⟨.ident, "letx", 2⟩] =
        pieces.map Piece.token ∧
      " 1.5.3\n<=letx ".toList = written pieces ++ trailing ∧
      (∀ c ∈ trailing, isBlank c = true) ∧
      ∀ front p back, pieces = front ++ p :: back →
        p.Fits (written front) (written back ++ trailing) := by
  have htokens : (Source.ofString " 1.5.3\n<=letx ").tokens.1 =
      .ok ([⟨.realLit, "1.5", 1⟩, ⟨.realLit, ".3", 1⟩, ⟨.le, "<=", 2⟩, ⟨.ident, "letx", 2⟩] ++
        [Token.endAt 2]) := by
    decide +kernel
  obtain ⟨pieces, trailing, hts, hlayout⟩ := tokens_layout htokens
  exact ⟨htokens, pieces, trailing, (Source.append_endAt_inj hts).1, hlayout⟩

/-! ### Written out and read back -/

/-- No spelling goes on with a blank. -/
theorem Token.Kind.goesOn_of_isBlank (k : Token.Kind) {c : Char} (hc : isBlank c = true) :
    k.goesOn c = false := by
  have hdigit : c.isDigit = false := by
    rw [Bool.eq_false_iff]
    intro h
    rw [isBlank_eq_false_of_isDigit h] at hc
    cases hc
  have hstart : isWordStart c = false := by
    rw [Bool.eq_false_iff]
    intro h
    rw [isBlank_eq_false_of_isWordStart h] at hc
    cases hc
  have hword : isWordChar c = false := by
    obtain ⟨halpha, hunderscore⟩ := Bool.or_eq_false_iff.mp hstart
    show ((c.isAlpha || c.isDigit) || c == '_') = false
    rw [halpha, hdigit, hunderscore]
    rfl
  have hsign : c ≠ '.' ∧ c ≠ '=' := by
    constructor <;> intro h <;> rw [h] at hc <;> exact absurd hc (by decide)
  cases k <;> simp [goesOn, hdigit, hword, hsign]

/-- Blanks are skipped, and their line feeds counted. -/
theorem Source.tokens_blanks {blanks : List Char} (h : ∀ c ∈ blanks, isBlank c = true)
    (rest : List Char) (line : Nat) :
    tokens ⟨blanks ++ rest, line⟩ = tokens ⟨rest, line + blanks.count '\n'⟩ := by
  induction blanks generalizing line with
  | nil => rfl
  | cons c blanks ih =>
      obtain ⟨hc, hblanks⟩ := List.forall_mem_cons.mp h
      have hcount : ([c] ++ blanks).count '\n' = [c].count '\n' + blanks.count '\n' :=
        List.count_append
      rw [List.cons_append, tokens_of_isBlank hc, ih hblanks, lineAfter_eq, Nat.add_assoc, ← hcount]
      rfl

/-- The tokens of pieces that stand behind the characters `before`, each on the line that is told by
the line feeds written before it. -/
def placed (before : List Char) : List Piece → List Token
  | [] => []
  | p :: ps =>
    ⟨p.token.kind, p.token.text, 1 + (before ++ p.blanks).count '\n'⟩ ::
      placed (before ++ p.chars) ps

/-- Pieces **stand apart** if their tokens are spelled, if only blanks are written around these, and
if there is a blank at least between two of them. -/
structure StandApart (pieces : List Piece) (trailing : List Char) : Prop where
  kind_ne : ∀ p ∈ pieces, p.token.kind ≠ .endOfInput
  spelled : ∀ p ∈ pieces, p.token.isSpelled = true
  blank : ∀ p ∈ pieces, ∀ c ∈ p.blanks, isBlank c = true
  between : ∀ p ∈ pieces.tail, p.blanks ≠ []
  trailing_blank : ∀ c ∈ trailing, isBlank c = true

namespace StandApart

variable {p : Piece} {ps : List Piece} {trailing : List Char}

theorem tail (h : StandApart (p :: ps) trailing) : StandApart ps trailing where
  kind_ne := fun q hq => h.kind_ne q (List.mem_cons_of_mem p hq)
  spelled := fun q hq => h.spelled q (List.mem_cons_of_mem p hq)
  blank := fun q hq => h.blank q (List.mem_cons_of_mem p hq)
  between := fun q hq => h.between q (List.mem_of_mem_tail hq)
  trailing_blank := h.trailing_blank

/-- What is written behind a token starts with a blank, if it starts at all. -/
theorem isBlank_of_mem_head? (h : StandApart (p :: ps) trailing) :
    ∀ c ∈ (written ps ++ trailing).head?, isBlank c = true := by
  intro c hc
  cases ps with
  | nil => exact h.trailing_blank c (List.mem_of_mem_head? hc)
  | cons q qs =>
      have hne := h.between q List.mem_cons_self
      cases hblanks : q.blanks with
      | nil => exact absurd hblanks hne
      | cons d blanks =>
          rw [written_cons, Piece.chars, hblanks] at hc
          obtain rfl : d = c := Option.some.inj hc
          have hq : q ∈ p :: q :: qs := List.mem_cons_of_mem p List.mem_cons_self
          exact h.blank q hq d (hblanks ▸ List.mem_cons_self)

end StandApart

/-- Behind any characters, what is written for pieces that stand apart is cut into their tokens. -/
theorem Source.tokens_written {pieces : List Piece} {trailing : List Char}
    (h : StandApart pieces trailing) (before : List Char) :
    (tokens ⟨written pieces ++ trailing, 1 + before.count '\n'⟩).1 =
      .ok (placed before pieces ++
        [Token.endAt (1 + (before ++ (written pieces ++ trailing)).count '\n')]) := by
  induction pieces generalizing before with
  | nil =>
      have hskip := tokens_blanks h.trailing_blank [] (1 + before.count '\n')
      rw [List.append_nil, tokens_nil, Nat.add_assoc, ← List.count_append] at hskip
      exact congrArg Prod.fst hskip
  | cons p ps ih =>
      have hp : p ∈ p :: ps := List.mem_cons_self
      have hends : p.token.kind.endsBefore (written ps ++ trailing) = true :=
        Token.Kind.endsBefore_of_head? fun c hc =>
          p.token.kind.goesOn_of_isBlank (h.isBlank_of_mem_head? c hc)
      have hfeeds : p.token.text.toList.count '\n' = 0 :=
        List.count_eq_zero.mpr (newline_not_mem_of_spells (h.spelled p hp))
      have hline : (before ++ p.chars).count '\n' = (before ++ p.blanks).count '\n' := by
        rw [Piece.chars, ← List.append_assoc, List.count_append, hfeeds, Nat.add_zero]
      have hrest := ih h.tail (before ++ p.chars)
      rw [hline] at hrest
      rw [written_cons, List.append_assoc, Piece.chars, List.append_assoc,
        tokens_blanks (h.blank p hp), Nat.add_assoc, ← List.count_append,
        tokens_of_spells (h.kind_ne p hp) (h.spelled p hp) hends, String.ofList_toList]
      refine prepend_eq_ok.mpr ⟨_, hrest, ?_⟩
      simp only [placed, Piece.chars, List.append_assoc, List.cons_append, List.nil_append]

/-- **Written out and read back.**  Tokens that are spelled, with any blanks before, between and
behind them and at least one between two neighbours, are read back in order, with their kinds and
texts.  Each is on the line that is told by the line feeds before it, and one end token, on the last
line, is behind them. -/
theorem tokens_of_standApart {pieces : List Piece} {trailing : List Char}
    (h : StandApart pieces trailing) :
    (Source.ofString (String.ofList (written pieces ++ trailing))).tokens.1 =
      .ok (placed [] pieces ++ [Token.endAt (1 + (written pieces ++ trailing).count '\n')]) := by
  rw [Source.ofString, String.toList_ofList]
  exact Source.tokens_written h []

/-- Blanks keep apart what would be read as one token otherwise: `1` and `.5`, `<` and `=`, `let`
and `x`.  A line separator is a blank, but only a line feed ends a line. -/
theorem tokens_of_standApart_neighbours :
    let pieces : List Piece := [⟨[], ⟨.intLit, "1", 0⟩⟩, ⟨['\u2028'], ⟨.realLit, ".5", 0⟩⟩,
      ⟨['\n'], ⟨.lt, "<", 0⟩⟩, ⟨[' ', '\n'], ⟨.eq, "=", 0⟩⟩, ⟨['\t'], ⟨.letWord, "let", 0⟩⟩,
      ⟨['\u2028'], ⟨.ident, "x", 0⟩⟩]
    StandApart pieces ['\n'] ∧
      (Source.ofString "1\u2028.5\n< \n=\tlet\u2028x\n").tokens.1 =
        .ok [⟨.intLit, "1", 1⟩, ⟨.realLit, ".5", 1⟩, ⟨.lt, "<", 2⟩, ⟨.eq, "=", 3⟩,
          ⟨.letWord, "let", 3⟩, ⟨.ident, "x", 3⟩, Token.endAt 4] := by
  intro pieces
  have hblanks : ∀ p ∈ pieces, p.blanks.all isBlank = true := by decide
  have happart : StandApart pieces ['\n'] :=
    ⟨by decide, by decide, fun p hp => List.all_eq_true.mp (hblanks p hp), by decide,
      List.forall_mem_singleton.mpr (by decide)⟩
  have htext : String.ofList (written pieces ++ ['\n']) =
      "1\u2028.5\n< \n=\tlet\u2028x\n" := by
    decide +kernel
  have hplaced : placed [] pieces ++ [Token.endAt (1 + (written pieces ++ ['\n']).count '\n')] =
      [⟨.intLit, "1", 1⟩, ⟨.realLit, ".5", 1⟩, ⟨.lt, "<", 2⟩, ⟨.eq, "=", 3⟩,
        ⟨.letWord, "let", 3⟩, ⟨.ident, "x", 3⟩, Token.endAt 4] := by
    decide +kernel
  rw [← htext, ← hplaced]
  exact ⟨happart, tokens_of_standApart happart⟩

end LetCalc
