import LetCalc.Proofs.Lines
import LetCalc.Proofs.Spelling

/-!
# Texts put together

When a text is put behind another, its tokens come behind those of the other.  Two things could
spoil this.  A token could reach **over the seam**: `1` and `2` make `12`.  And the lines of the
second text are others, since it does not start on line 1.

The first cannot happen where no spelling goes on over the seam.  Within a text that is no question:
a lexeme ends before what follows it (`lexeme_endsBefore`), with one exception, the point behind an
integer; but then the rest of the text cannot be cut into tokens at all.  The second is a shift of all
lines (`Source.tokens_shift`) by the number of line feeds in the first text.

Main statement: `Source.tokens_append`.
-/

namespace LetCalc

/-! ### A lexeme ends before what follows it -/

/-- What is left of a text does not start with a character of the class taken off. -/
theorem head?_dropWhile_eq_false {p : Char → Bool} {cs : List Char} :
    ∀ d ∈ (cs.dropWhile p).head?, p d = false := by
  intro d hd
  have hnot := List.head?_dropWhile_not p cs
  simpa [Option.mem_def.mp hd] using hnot

/-- A spelling ends where the next character does not go on with it. -/
theorem Token.Kind.endsBefore_of_head? {k : Token.Kind} {rest : List Char}
    (h : ∀ d ∈ rest.head?, k.goesOn d = false) : k.endsBefore rest = true := by
  cases rest with
  | nil => rfl
  | cons d rest => simp [endsBefore, h d rfl]

/-- Where a spelling ends is seen from the next character. -/
theorem Token.Kind.endsBefore_append {k : Token.Kind} {rest : List Char} (hne : rest ≠ [])
    (h : k.endsBefore rest = true) (b : List Char) : k.endsBefore (rest ++ b) = true := by
  cases rest with
  | nil => exact absurd rfl hne
  | cons d rest => exact h

/-- A point without a digit behind it starts no token. -/
theorem lexeme_point_of_fraction? {cs : List Char} (h : fraction? ('.' :: cs) = none) :
    lexeme '.' cs = .error (.stray '.') := by
  have hnumeral : numeral? ('.' :: cs) = none := by simp [numeral?, h]
  rw [lexeme, hnumeral, word?_eq_none (by decide)]
  show symbol '.' cs = _
  unfold symbol
  split
  · rename_i hk
    cases hk
  · rfl

namespace Source

/-- A point without a digit behind it is a fault of the source. -/
theorem tokens_point_of_fraction? {cs : List Char} (h : fraction? ('.' :: cs) = none) (line : Nat) :
    tokens ⟨'.' :: cs, line⟩ = (.error ⟨.stray '.', line⟩, ⟨cs, line⟩) :=
  tokens_of_fault (by decide) (lexeme_point_of_fraction? h) line

end Source

/-- A numeral ends before what follows it, if that can be cut into tokens. -/
theorem numeral?_endsBefore {cs : List Char} {x : Lexeme} (h : numeral? cs = some x) {line : Nat}
    {ts : List Token} (hrest : (Source.tokens ⟨x.rest, line⟩).1 = .ok ts) :
    x.kind.endsBefore x.rest = true := by
  have hdigit : ∀ d ∈ (cs.dropWhile Char.isDigit).head?, d.isDigit = false :=
    head?_dropWhile_eq_false
  unfold numeral? at h
  simp only at h
  split at h
  · rename_i digits after hfraction
    cases h
    unfold fraction? at hfraction
    split at hfraction
    · split at hfraction
      · cases hfraction
      · cases hfraction
        exact Token.Kind.endsBefore_of_head? head?_dropWhile_eq_false
    · cases hfraction
  · rename_i hfraction
    split at h
    · cases h
    · cases h
      dsimp only at hrest ⊢
      apply Token.Kind.endsBefore_of_head?
      intro d hd
      have hpoint : d ≠ '.' := by
        rintro rfl
        obtain ⟨r, hr⟩ := List.head?_eq_some_iff.mp hd
        rw [hr] at hfraction hrest
        rw [Source.tokens_point_of_fraction? hfraction] at hrest
        cases hrest
      simp [Token.Kind.goesOn, hdigit d hd, hpoint]

/-- Only the characters of words go on with a keyword or an identifier. -/
theorem Token.Kind.goesOn_keyword? (s : String) {d : Char} (hd : isWordChar d = false) :
    ((keyword? s).getD .ident).goesOn d = false := by
  cases hk : keyword? s with
  | none => exact hd
  | some k =>
      have hmem := (eq_spelling_of_keyword? hk).2
      simp only [keywords, List.mem_cons, List.not_mem_nil, or_false] at hmem
      rcases hmem with rfl | rfl | rfl | rfl | rfl | rfl | rfl | rfl | rfl <;> simp [goesOn, hd]

/-- A word is cut off where it ends. -/
theorem word?_endsBefore {cs : List Char} {x : Lexeme} (h : word? cs = some x) :
    x.kind.endsBefore x.rest = true := by
  unfold word? at h
  split at h
  · cases h
  · split at h
    · cases h
      apply Token.Kind.endsBefore_of_head?
      intro d hd
      exact Token.Kind.goesOn_keyword? _ (head?_dropWhile_eq_false d hd)
    · cases h

/-- Only an equals sign goes on with a symbol, and only where the two make another symbol. -/
theorem Token.Kind.goesOn_alone {c d : Char} {k : Token.Kind} (hk : alone c = .ok k)
    (hd : withEquals? c = none ∨ d ≠ '=') : k.goesOn d = false := by
  unfold alone at hk
  split at hk <;> cases hk <;> simp_all [goesOn, keywords, withEquals?]

/-- A symbol is cut off where it ends. -/
theorem symbol_endsBefore {c : Char} {cs : List Char} {x : Lexeme} (h : symbol c cs = .ok x) :
    x.kind.endsBefore x.rest = true := by
  unfold symbol at h
  split at h
  · rename_i rest k hk
    cases h
    apply Token.Kind.endsBefore_of_head?
    intro d _
    unfold withEquals? at hk
    split at hk <;> cases hk <;> rfl
  · rename_i hne
    cases hk : alone c with
    | error f => rw [hk] at h; cases h
    | ok k =>
        rw [hk] at h
        cases h
        apply Token.Kind.endsBefore_of_head?
        intro d hd
        apply Token.Kind.goesOn_alone hk
        obtain ⟨r, rfl⟩ := List.head?_eq_some_iff.mp hd
        by_cases hequals : d = '='
        · left
          rw [Option.eq_none_iff_forall_ne_some]
          intro k' hk'
          exact hne r k' (by rw [hequals]) hk'
        · exact .inr hequals

/-- A lexeme is a numeral, a word or a symbol. -/
theorem lexeme_cases {c : Char} {cs : List Char} {x : Lexeme} (h : lexeme c cs = .ok x) :
    numeral? (c :: cs) = some x ∨ word? (c :: cs) = some x ∨ symbol c cs = .ok x := by
  unfold lexeme at h
  split at h
  · rename_i y hy
    cases h
    cases hn : numeral? (c :: cs) with
    | some z =>
        rw [hn] at hy
        exact .inl hy
    | none =>
        rw [hn] at hy
        exact .inr (.inl hy)
  · exact .inr (.inr h)

/-- A lexeme ends before what follows it, if that can be cut into tokens. -/
theorem lexeme_endsBefore {c : Char} {cs : List Char} {x : Lexeme} (h : lexeme c cs = .ok x)
    {line : Nat} {ts : List Token} (hrest : (Source.tokens ⟨x.rest, line⟩).1 = .ok ts) :
    x.kind.endsBefore x.rest = true := by
  rcases lexeme_cases h with hnumeral | hword | hsymbol
  · exact numeral?_endsBefore hnumeral hrest
  · exact word?_endsBefore hword
  · exact symbol_endsBefore hsymbol

/-! ### Lines -/

/-- A text of one class has no line feed, unless the class has it. -/
theorem newline_not_mem_of_all {p : Char → Bool} (hp : p '\n' = false) {cs : List Char}
    (h : cs.all p = true) : '\n' ∉ cs := by
  intro hmem
  rw [List.all_eq_true.mp h _ hmem] at hp
  cases hp

/-- No character of a spelling ends a line. -/
theorem newline_not_mem_of_spells {k : Token.Kind} {cs : List Char} (h : k.spells cs = true) :
    '\n' ∉ cs := by
  cases k with
  | intLit => exact newline_not_mem_of_all (by decide) (Bool.and_eq_true_iff.mp h).2
  | realLit =>
      obtain ⟨whole, fraction, rfl, hwhole, hfraction⟩ := isRealNumeral_iff.mp h
      have hfraction := (Bool.and_eq_true_iff.mp hfraction).2
      simp only [List.mem_append, List.mem_cons, not_or]
      exact ⟨newline_not_mem_of_all (by decide) hwhole, by decide,
        newline_not_mem_of_all (by decide) hfraction⟩
  | ident =>
      have hword := (Bool.and_eq_true_iff.mp h).1
      cases cs with
      | nil => cases hword
      | cons c cs =>
          obtain ⟨hc, hcs⟩ := Bool.and_eq_true_iff.mp hword
          simp only [List.mem_cons, not_or]
          refine ⟨?_, newline_not_mem_of_all (by decide) hcs⟩
          rintro rfl
          exact absurd hc (by decide)
  | _ =>
      simp only [Token.Kind.spells, Token.Kind.spelling, beq_iff_eq] at h
      subst h
      decide

/-- What is cut off has no line feed, so it is on one line. -/
theorem newline_not_mem_lexeme {c : Char} {cs : List Char} {x : Lexeme} (h : lexeme c cs = .ok x) :
    '\n' ∉ x.text :=
  newline_not_mem_of_spells (lexeme_spells h)

namespace Source

/-- A result moved down by some lines: its tokens or its error, and the source that is left. -/
def shift (d : Nat) (r : Except LexError (List Token) × Source) :
    Except LexError (List Token) × Source :=
  (match r.1 with
    | .ok ts => .ok (ts.map (Token.mapLine (· + d)))
    | .error e => .error ⟨e.fault, e.line + d⟩,
  ⟨r.2.text, r.2.line + d⟩)

theorem prepend_nil (r : Except LexError (List Token) × Source) : prepend [] r = r := by
  obtain ⟨r, left⟩ := r
  cases r with
  | error e => rfl
  | ok ts => rfl

/-- Lines can be moved before tokens are put in front, or after. -/
theorem shift_prepend (d : Nat) (ts : List Token) (r : Except LexError (List Token) × Source) :
    shift d (prepend ts r) = prepend (ts.map (Token.mapLine (· + d))) (shift d r) := by
  obtain ⟨r, left⟩ := r
  cases r with
  | error e => rfl
  | ok us => simp [prepend, shift, Except.map]

/-- A character counts the same from any line. -/
theorem lineAfter_add (c : Char) (line d : Nat) :
    lineAfter c (line + d) = lineAfter c line + d := by
  unfold lineAfter
  split <;> omega

/-- A text that starts further down has the same tokens further down. -/
theorem tokens_shift (s : Source) (d : Nat) : tokens ⟨s.text, s.line + d⟩ = shift d s.tokens := by
  induction s using Source.tokens.induct with
  | case1 line =>
      rw [tokens_nil, tokens_nil]
      rfl
  | case2 c cs line hc ih =>
      rw [tokens_of_isBlank hc, tokens_of_isBlank hc, ← ih, ← lineAfter_add]
  | case3 c cs line hc f hx =>
      have hc := Bool.eq_false_iff.mpr hc
      rw [tokens_of_fault hc hx, tokens_of_fault hc hx]
      rfl
  | case4 c cs line hc x hx _ _ _ ih =>
      have hc := Bool.eq_false_iff.mpr hc
      rw [tokens_of_lexeme hc hx, tokens_of_lexeme hc hx, shift_prepend, ← ih]
      rfl

/-- Lists with end tokens behind them are equal only if the lists are, and the lines of the end
tokens. -/
theorem append_endAt_inj {w v : List Token} {n m : Nat}
    (h : w ++ [Token.endAt n] = v ++ [Token.endAt m]) : w = v ∧ n = m := by
  obtain ⟨hw, hend⟩ := List.append_inj' h rfl
  exact ⟨hw, congrArg Token.line (List.singleton_inj.mp hend)⟩

/-- The tokens of a text that starts with a lexeme: its own token, then those of the rest. -/
theorem exists_tokens_rest {c : Char} {cs : List Char} {line n : Nat} {x : Lexeme} {w : List Token}
    (hc : isBlank c = false) (hx : lexeme c cs = .ok x)
    (h : (tokens ⟨c :: cs, line⟩).1 = .ok (w ++ [Token.endAt n])) :
    ∃ v, w = ⟨x.kind, String.ofList x.text, line⟩ :: v ∧
      (tokens ⟨x.rest, line⟩).1 = .ok (v ++ [Token.endAt n]) := by
  rw [tokens_of_lexeme hc hx] at h
  obtain ⟨vs, hvs, heq⟩ := prepend_eq_ok.mp h
  obtain ⟨v, m, rfl, -⟩ := tokens_spelled hvs
  rw [← List.append_assoc] at heq
  obtain ⟨rfl, rfl⟩ := append_endAt_inj heq
  exact ⟨v, rfl, hvs⟩

/-- The end token is on the last line of the text. -/
theorem tokens_endAt {s : Source} {w : List Token} {n : Nat}
    (h : s.tokens.1 = .ok (w ++ [Token.endAt n])) : n = s.line + s.text.count '\n' := by
  induction s using Source.tokens.induct generalizing w with
  | case1 line =>
      rw [tokens_nil] at h
      exact (append_endAt_inj (w := []) (Except.ok.inj h)).2.symm
  | case2 c cs line hc ih =>
      rw [tokens_of_isBlank hc] at h
      rw [ih h, List.count_cons]
      by_cases hnewline : c = '\n'
      · simp only [lineAfter, hnewline, if_true, beq_self_eq_true]
        omega
      · simp [lineAfter, hnewline]
  | case3 c cs line hc f hx =>
      rw [tokens_of_fault (Bool.eq_false_iff.mpr hc) hx] at h
      cases h
  | case4 c cs line hc x hx _ _ _ ih =>
      obtain ⟨v, -, hv⟩ := exists_tokens_rest (Bool.eq_false_iff.mpr hc) hx h
      have hcount : x.rest.count '\n' = (c :: cs).count '\n' := by
        rw [← (lexeme_append hx).1, List.count_append,
          List.count_eq_zero.mpr (newline_not_mem_lexeme hx), Nat.zero_add]
      rw [ih hv, hcount]

/-- **Texts put together.**  If a text can be cut into tokens, and the last of them does not go on
with what follows, then what follows is cut as if it stood alone, on the lines where it is. -/
theorem tokens_append {s : Source} {w : List Token} {n : Nat}
    (h : s.tokens.1 = .ok (w ++ [Token.endAt n])) {b : List Char}
    (hlast : ∀ t ∈ w.getLast?, t.kind.endsBefore b = true) :
    tokens ⟨s.text ++ b, s.line⟩ = prepend w (tokens ⟨b, n⟩) := by
  induction s using Source.tokens.induct generalizing w with
  | case1 line =>
      rw [tokens_nil] at h
      obtain ⟨rfl, rfl⟩ := append_endAt_inj (w := []) (Except.ok.inj h)
      rw [prepend_nil, List.nil_append]
  | case2 c cs line hc ih =>
      rw [tokens_of_isBlank hc] at h
      rw [← ih h hlast]
      exact tokens_of_isBlank hc (cs ++ b) line
  | case3 c cs line hc f hx =>
      rw [tokens_of_fault (Bool.eq_false_iff.mpr hc) hx] at h
      cases h
  | case4 c cs line hc x hx _ _ _ ih =>
      obtain ⟨v, rfl, hv⟩ := exists_tokens_rest (Bool.eq_false_iff.mpr hc) hx h
      have hbehind : ∀ t ∈ v.getLast?, t.kind.endsBefore b = true := by
        intro t ht
        apply hlast
        rw [List.getLast?_cons, Option.mem_def.mp ht]
        rfl
      have hends : x.kind.endsBefore (x.rest ++ b) = true := by
        by_cases hrest : x.rest = []
        · -- the lexeme is the last of the first text
          rw [hrest, tokens_nil] at hv
          obtain ⟨rfl, -⟩ := append_endAt_inj (w := []) (Except.ok.inj hv)
          rw [hrest]
          exact hlast _ rfl
        · exact Token.Kind.endsBefore_append hrest (lexeme_endsBefore hx hv) b
      obtain ⟨hspelled, hkind⟩ := isSpelled_of_lexeme hx line
      have htext : c :: cs ++ b = x.text ++ (x.rest ++ b) := by
        rw [← List.append_assoc, (lexeme_append hx).1]
      show tokens ⟨c :: cs ++ b, line⟩ = _
      rw [htext, tokens_of_spells hkind (lexeme_spells hx) hends, ih hv hbehind, prepend_prepend]
      rfl

end Source

end LetCalc
