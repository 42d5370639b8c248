import LetCalc.Proofs.Layout

/-!
# Bad characters

Whether a text can be cut into tokens is seen from each character and the one behind it.  A
character is **bad** if it is a point without a digit behind it, an exclamation mark or a colon
without an equals sign behind it, or a character that no token has in it (`isBad`).  How the reader
comes to a character has no part in this: no bad character is in a lexeme (`clean_of_spells`), and
where no lexeme can be cut off there is one (`isBad_of_lexeme_error`).

A source that is read on after an error starts behind the bad character.  So the calls of
`Source.tokens` on what the one before has left fail once for each bad character, in their order;
then one call gives the tokens behind the last of them, and all later ones find the text at its end.

Main statement: `calls_cases`.
-/

namespace LetCalc

/-! ### Bad characters -/

/-- The symbols that are written with one character. -/
def symbolChars : List Char :=
  ['+', '-', '*', '/', '=', '(', ')', ';', '<', '>']

/-- Whether a character is never bad: it is a blank, a letter or digit of ASCII, an underscore or a
symbol. -/
def isPlain (c : Char) : Bool :=
  isBlank c || c.isAlphanum || c == '_' || symbolChars.contains c

/-- Whether the first character of a text is bad. -/
def isBad : List Char → Bool
  | [] => false
  | c :: rest =>
    if c = '.' then !rest.head?.any Char.isDigit
    else if c = '!' ∨ c = ':' then rest.head? != some '='
    else !isPlain c

/-- What is said of a bad character. -/
def complaint (c : Char) : String :=
  if c = '!' then "expected '!='"
  else if c = ':' then "expected ':='"
  else "unexpected character '" ++ c.toString ++ "'"

/-- A plain character is none of those that depend on the next one. -/
theorem ne_of_isPlain {c : Char} (hc : isPlain c = true) : c ≠ '.' ∧ ¬ (c = '!' ∨ c = ':') := by
  refine ⟨?_, ?_⟩
  · rintro rfl
    exact absurd hc (by decide)
  · rintro (rfl | rfl) <;> exact absurd hc (by decide)

/-- A plain character is never bad. -/
theorem isBad_of_isPlain {c : Char} (hc : isPlain c = true) (rest : List Char) :
    isBad (c :: rest) = false := by
  obtain ⟨hpoint, hmark⟩ := ne_of_isPlain hc
  rw [isBad, if_neg hpoint, if_neg hmark, hc]
  rfl

theorem isPlain_of_isBlank {c : Char} (hc : isBlank c = true) : isPlain c = true := by
  simp [isPlain, hc]

theorem isPlain_of_isWordChar {c : Char} (hc : isWordChar c = true) : isPlain c = true := by
  rw [isWordChar, Bool.or_eq_true] at hc
  rcases hc with hc | hc <;> simp [isPlain, hc]

theorem isPlain_of_isDigit {c : Char} (hc : c.isDigit = true) : isPlain c = true := by
  apply isPlain_of_isWordChar
  show (c.isAlpha || c.isDigit || c == '_') = true
  rw [hc, Bool.or_true, Bool.true_or]

theorem isPlain_of_isWordStart {c : Char} (hc : isWordStart c = true) : isPlain c = true := by
  apply isPlain_of_isWordChar
  show (c.isAlpha || c.isDigit || c == '_') = true
  rw [Bool.or_right_comm, show (c.isAlpha || c == '_') = true from hc, Bool.true_or]

/-- A point before a digit is not bad. -/
theorem isBad_point {d : Char} (hd : d.isDigit = true) (rest : List Char) :
    isBad ('.' :: d :: rest) = false := by
  show (!d.isDigit) = false
  rw [hd]
  rfl

/-! ### Where no character is bad -/

/-- `Clean u v`: no character of `u` is bad, if `v` follows. -/
def Clean : List Char → List Char → Prop
  | [], _ => True
  | c :: u, v => isBad (c :: (u ++ v)) = false ∧ Clean u v

/-- Two texts in a row are clean if each of them is, before what follows it. -/
theorem clean_append {u v w : List Char} : Clean (u ++ v) w ↔ Clean u (v ++ w) ∧ Clean v w := by
  induction u with
  | nil => exact ⟨fun h => ⟨trivial, h⟩, And.right⟩
  | cons c u ih =>
      rw [List.cons_append, Clean, Clean, ih, List.append_assoc, and_assoc]

theorem clean_of_forall {u v : List Char}
    (h : ∀ j, j < u.length → isBad ((u ++ v).drop j) = false) : Clean u v := by
  induction u with
  | nil => trivial
  | cons c u ih =>
      refine ⟨h 0 (Nat.zero_lt_succ _), ih ?_⟩
      intro j hj
      exact h (j + 1) (Nat.succ_lt_succ hj)

/-- Plain characters are clean, whatever follows. -/
theorem clean_of_isPlain {u : List Char} (hu : ∀ c ∈ u, isPlain c = true) (v : List Char) :
    Clean u v := by
  induction u with
  | nil => trivial
  | cons c u ih =>
      obtain ⟨hc, hu⟩ := List.forall_mem_cons.mp hu
      exact ⟨isBad_of_isPlain hc _, ih hu⟩

theorem clean_of_digits {u : List Char} (hu : u.all Char.isDigit = true) (v : List Char) :
    Clean u v := by
  apply clean_of_isPlain
  intro c hc
  exact isPlain_of_isDigit (List.all_eq_true.mp hu c hc)

/-- So are words. -/
theorem clean_of_isWord {u : List Char} (hu : isWord u = true) (v : List Char) : Clean u v := by
  cases u with
  | nil => cases hu
  | cons c u =>
      obtain ⟨hc, hall⟩ := (Bool.and_eq_true _ _).mp hu
      refine clean_of_isPlain (List.forall_mem_cons.mpr ⟨isPlain_of_isWordStart hc, ?_⟩) v
      intro d hd
      exact isPlain_of_isWordChar (List.all_eq_true.mp hall d hd)

/-- No character of a spelling is bad, whatever follows. -/
theorem clean_of_spells {k : Token.Kind} {u : List Char} (hu : k.spells u = true) (v : List Char) :
    Clean u v := by
  by_cases hk : k ∈ Token.Kind.keywords
  · rw [spells_of_mem_keywords hk] at hu
    rw [eq_of_beq hu]
    exact clean_of_isWord (isWord_spelling hk) v
  · cases k with
    | intLit => exact clean_of_digits (Bool.and_eq_true_iff.mp hu).2 v
    | realLit =>
        obtain ⟨whole, fraction, rfl, hwhole, hfraction⟩ := isRealNumeral_iff.mp hu
        obtain ⟨hne, hall⟩ := (Bool.and_eq_true _ _).mp hfraction
        refine clean_append.mpr ⟨clean_of_digits hwhole _, ?_, clean_of_digits hall v⟩
        cases fraction with
        | nil => cases hne
        | cons d fraction => exact isBad_point (Bool.and_eq_true_iff.mp hall).1 _
    | ident => exact clean_of_isWord (Bool.and_eq_true_iff.mp hu).1 v
    | endOfInput =>
        rw [eq_of_beq hu]
        trivial
    | plus | minus | star | slash | lt | gt | eq | lparen | rparen | semicolon =>
        simp only [Token.Kind.spells, Token.Kind.spelling, beq_iff_eq] at hu
        cases hu
        exact ⟨rfl, trivial⟩
    | le | ge | ne | assign =>
        simp only [Token.Kind.spells, Token.Kind.spelling, beq_iff_eq] at hu
        cases hu
        exact ⟨rfl, rfl, trivial⟩
    | _ => exact absurd (by decide) hk

/-! ### Where no lexeme can be cut off -/

/-- A character at which no lexeme can be cut off is no symbol alone, and makes none with an equals
sign behind it. -/
theorem alone_of_lexeme_error {c : Char} {cs : List Char} {f : LexFault}
    (h : lexeme c cs = .error f) :
    alone c = .error f ∧ (withEquals? c = none ∨ cs.head? ≠ some '=') := by
  constructor
  · unfold lexeme at h
    split at h
    · cases h
    · unfold symbol at h
      split at h
      · cases h
      · cases halone : alone c with
        | ok k =>
            rw [halone] at h
            cases h
        | error g =>
            rw [halone] at h
            cases h
            rfl
  · cases hk : withEquals? c with
    | none => exact .inl rfl
    | some k =>
        right
        intro hequals
        obtain ⟨r, rfl⟩ := List.head?_eq_some_iff.mp hequals
        rw [lexeme_of_withEquals? hk] at h
        cases h

/-- A symbol that may stand alone is taken for one. -/
theorem exists_alone_of_mem {c : Char} (hc : c ∈ symbolChars) : ∃ k, alone c = .ok k := by
  simp only [symbolChars, List.mem_cons, List.not_mem_nil, or_false] at hc
  rcases hc with rfl | rfl | rfl | rfl | rfl | rfl | rfl | rfl | rfl | rfl <;> exact ⟨_, rfl⟩

/-- A character that is no symbol alone gets its complaint. -/
theorem message_of_alone {c : Char} {f : LexFault} (h : alone c = .error f) :
    f.message = complaint c := by
  unfold alone at h
  split at h <;> cases h
  · rfl
  · rfl
  · rename_i hbang hcolon
    rw [complaint, if_neg hbang, if_neg hcolon]
    rfl

/-- Neither a numeral nor a word stands where no lexeme can be cut off. -/
theorem not_front_of_lexeme_error {c : Char} {u v : List Char} {f : LexFault}
    (h : lexeme c (u ++ v) = .error f) :
    ¬ (isIntNumeral (c :: u) = true ∨ isRealNumeral (c :: u) = true ∨ isWord (c :: u) = true) := by
  intro hu
  obtain ⟨x, hx, -⟩ := exists_lexeme_of_front hu v
  rw [hx] at h
  cases h

/-- A point at which no lexeme can be cut off has no digit behind it. -/
theorem any_isDigit_of_lexeme_error {cs : List Char} {f : LexFault}
    (h : lexeme '.' cs = .error f) : cs.head?.any Char.isDigit = false := by
  cases cs with
  | nil => rfl
  | cons d cs =>
      show d.isDigit = false
      rw [Bool.eq_false_iff]
      intro hd
      have hreal : isRealNumeral ['.', d] = true :=
        isRealNumeral_iff.mpr ⟨[], [d], rfl, rfl, by simp [isIntNumeral, hd]⟩
      have hnone := not_front_of_lexeme_error (u := [d]) (v := cs) h
      exact hnone (.inr (.inl hreal))

/-- A character at which no lexeme can be cut off is not plain, if it is no blank. -/
theorem isPlain_of_lexeme_error {c : Char} {cs : List Char} {f : LexFault}
    (hc : isBlank c = false) (h : lexeme c cs = .error f) : isPlain c = false := by
  have hnone := not_front_of_lexeme_error (u := []) (v := cs) h
  rw [not_or, not_or] at hnone
  obtain ⟨hdigit, -, hword⟩ := hnone
  have hdigit : c.isDigit = false := by simpa [isIntNumeral] using hdigit
  have hstart : isWordStart c = false := by simpa [isWord] using hword
  obtain ⟨halpha, hline⟩ := Bool.or_eq_false_iff.mp hstart
  have hsymbol : symbolChars.contains c = false := by
    rw [Bool.eq_false_iff, ne_eq, List.contains_iff_mem]
    intro hmem
    obtain ⟨k, hk⟩ := exists_alone_of_mem hmem
    rw [(alone_of_lexeme_error h).1] at hk
    cases hk
  show (isBlank c || (c.isAlpha || c.isDigit) || c == '_' || symbolChars.contains c) = false
  rw [hc, halpha, hdigit, hline, hsymbol]
  rfl

/-- Where no lexeme can be cut off the first character is bad, if it is no blank. -/
theorem isBad_of_lexeme_error {c : Char} {cs : List Char} {f : LexFault} (hc : isBlank c = false)
    (h : lexeme c cs = .error f) : isBad (c :: cs) = true ∧ f.message = complaint c := by
  obtain ⟨halone, hequals⟩ := alone_of_lexeme_error h
  refine ⟨?_, message_of_alone halone⟩
  rw [isBad]
  by_cases hpoint : c = '.'
  · subst hpoint
    rw [if_pos rfl, any_isDigit_of_lexeme_error h]
    rfl
  · rw [if_neg hpoint]
    by_cases hmark : c = '!' ∨ c = ':'
    · rw [if_pos hmark, bne_iff_ne]
      refine hequals.resolve_left ?_
      rcases hmark with rfl | rfl <;> exact Option.some_ne_none _
    · rw [if_neg hmark, isPlain_of_lexeme_error hc h]
      rfl

/-- No lexeme starts with a bad character. -/
theorem lexeme_of_isBad {c : Char} {cs : List Char} (h : isBad (c :: cs) = true) :
    isBlank c = false ∧ ∃ f, lexeme c cs = .error f ∧ f.message = complaint c := by
  have hc : isBlank c = false := by
    rw [Bool.eq_false_iff]
    intro hblank
    rw [isBad_of_isPlain (isPlain_of_isBlank hblank)] at h
    cases h
  refine ⟨hc, ?_⟩
  cases hlexeme : lexeme c cs with
  | error f => exact ⟨f, rfl, (isBad_of_lexeme_error hc hlexeme).2⟩
  | ok x =>
      obtain ⟨happend, hne⟩ := lexeme_append hlexeme
      have hclean := clean_of_spells (lexeme_spells hlexeme) x.rest
      cases htext : x.text with
      | nil => exact absurd htext hne
      | cons d u =>
          rw [htext] at hclean
          rw [htext, List.cons_append] at happend
          cases happend
          rw [hclean.1] at h
          cases h

/-! ### One call -/

/-- A lexeme does not reach over a bad character. -/
theorem exists_rest_of_lexeme {c : Char} {u v : List Char} {x : Lexeme}
    (hv : v = [] ∨ isBad v = true) (hx : lexeme c (u ++ v) = .ok x) :
    ∃ w, c :: u = x.text ++ w ∧ x.rest = w ++ v := by
  have happend : x.text ++ x.rest = (c :: u) ++ v := (lexeme_append hx).1
  rcases List.append_eq_append_iff.mp happend with ⟨w, hw, hrest⟩ | ⟨w, htext, rfl⟩
  · exact ⟨w, hw, hrest⟩
  · have hclean := clean_of_spells (lexeme_spells hx) x.rest
    rw [htext, clean_append] at hclean
    cases w with
    | nil => exact ⟨[], by rw [htext, List.append_nil, List.append_nil], rfl⟩
    | cons d w =>
        have hbad : isBad (d :: (w ++ x.rest)) = true := hv.resolve_left (List.cons_ne_nil _ _)
        rw [hclean.2.1] at hbad
        cases hbad

namespace Source

/-- Where no character is bad the text is cut into tokens, up to its end or to the next bad
character. -/
theorem exists_tokens_of_clean {u v : List Char} (hu : Clean u v) (hv : v = [] ∨ isBad v = true)
    (line : Nat) :
    ∃ w, tokens ⟨u ++ v, line⟩ = prepend w (tokens ⟨v, line + u.count '\n'⟩) := by
  cases u with
  | nil => exact ⟨[], (prepend_nil _).symm⟩
  | cons c u =>
      obtain ⟨hc, hclean⟩ := hu
      by_cases hblank : isBlank c = true
      · obtain ⟨w, hw⟩ := exists_tokens_of_clean hclean hv (lineAfter c line)
        have hcount : lineAfter c line + u.count '\n' = line + (c :: u).count '\n' := by
          rw [lineAfter_eq, Nat.add_assoc, ← List.count_append, List.singleton_append]
        rw [hcount] at hw
        exact ⟨w, (tokens_of_isBlank hblank (u ++ v) line).trans hw⟩
      · have hblank := Bool.eq_false_iff.mpr hblank
        cases hx : lexeme c (u ++ v) with
        | error f =>
            rw [(isBad_of_lexeme_error hblank hx).1] at hc
            cases hc
        | ok x =>
            obtain ⟨r, hr, hrest⟩ := exists_rest_of_lexeme hv hx
            have hlength : r.length < (c :: u).length := by
              have hpos := List.length_pos_iff.mpr (lexeme_append hx).2
              rw [hr, List.length_append]
              omega
            have hclean' : Clean (x.text ++ r) v := hr ▸ ⟨hc, hclean⟩
            obtain ⟨w, hw⟩ := exists_tokens_of_clean (clean_append.mp hclean').2 hv line
            refine ⟨⟨x.kind, String.ofList x.text, line⟩ :: w, ?_⟩
            rw [hr, List.count_append, List.count_eq_zero.mpr (newline_not_mem_lexeme hx),
              Nat.zero_add, ← hr, List.cons_append, tokens_of_lexeme hblank hx, hrest, hw,
              prepend_prepend]
            rfl
termination_by u.length

/-- The source that is left of a text behind its first `q` characters. -/
def behind (cs : List Char) (q : Nat) : Source :=
  ⟨cs.drop q, 1 + (cs.take q).count '\n'⟩

end Source

/-- `e.IsAt cs p`: the error `e` is that of the character at position `p` of the text `cs`. -/
structure LexError.IsAt (e : LexError) (cs : List Char) (p : Nat) : Prop where
  message_eq : ∃ c, cs[p]? = some c ∧ e.fault.message = complaint c
  line_eq : e.line = 1 + (cs.take p).count '\n'

namespace Source

/-- No line ends with a character that is no blank. -/
theorem behind_succ {cs v : List Char} {p : Nat} {c : Char} (h : cs.drop p = c :: v)
    (hc : isBlank c = false) : behind cs (p + 1) = ⟨v, (behind cs p).line⟩ := by
  have hcount : [c].count '\n' = 0 := by
    rw [List.count_eq_zero, List.mem_singleton]
    rintro rfl
    exact absurd hc (by decide)
  rw [behind, ← List.drop_drop, List.take_add, h, List.count_append]
  show Source.mk v (1 + ((cs.take p).count '\n' + [c].count '\n')) = _
  rw [hcount]
  rfl

/-- Behind all characters there is nothing left, on the last line. -/
theorem behind_length (cs : List Char) : behind cs cs.length = ⟨[], 1 + cs.count '\n'⟩ := by
  rw [behind, List.drop_length, List.take_length]

/-- From any place on, a call fails at the first bad character, and stops behind it. -/
theorem tokens_behind_of_isBad {cs : List Char} {q p : Nat} (hq : q ≤ p)
    (hp : isBad (cs.drop p) = true)
    (hclear : ∀ j, q ≤ j → j < p → isBad (cs.drop j) = false) :
    ∃ e, (behind cs q).tokens = (.error e, behind cs (p + 1)) ∧ e.IsAt cs p := by
  obtain ⟨m, rfl⟩ := Nat.le.dest hq
  have hsplit : (cs.drop q).take m ++ cs.drop (q + m) = cs.drop q := by
    rw [← List.drop_drop, List.take_append_drop]
  have hclean : Clean ((cs.drop q).take m) (cs.drop (q + m)) := by
    apply clean_of_forall
    intro j hj
    rw [hsplit, List.drop_drop]
    have hm := List.length_take_le m (cs.drop q)
    exact hclear (q + j) (Nat.le_add_right q j) (by omega)
  have hline : (behind cs q).line + ((cs.drop q).take m).count '\n' = (behind cs (q + m)).line := by
    rw [behind, behind, List.take_add, List.count_append, Nat.add_assoc]
  obtain ⟨w, hw⟩ := exists_tokens_of_clean hclean (.inr hp) (behind cs q).line
  rw [hsplit, hline] at hw
  cases hrest : cs.drop (q + m) with
  | nil =>
      rw [hrest] at hp
      cases hp
  | cons c v =>
      rw [hrest] at hp hw
      obtain ⟨hblank, f, hf, hmessage⟩ := lexeme_of_isBad hp
      have hchar : cs[q + m]? = some c := by
        rw [← List.head?_drop, hrest]
        rfl
      refine ⟨⟨f, (behind cs (q + m)).line⟩, ?_, ⟨c, hchar, hmessage⟩, rfl⟩
      rw [behind_succ hrest hblank]
      rw [tokens_of_fault hblank hf] at hw
      exact hw

/-- Where no bad character is left a call succeeds, and stops at the end. -/
theorem tokens_behind_of_clear {cs : List Char} {q : Nat}
    (hclear : ∀ j, q ≤ j → isBad (cs.drop j) = false) :
    ∃ ts, (behind cs q).tokens = (.ok ts, behind cs cs.length) := by
  have hclean : Clean (cs.drop q) [] := by
    apply clean_of_forall
    intro j _
    rw [List.append_nil, List.drop_drop]
    exact hclear (q + j) (Nat.le_add_right q j)
  have hline : (behind cs q).line + (cs.drop q).count '\n' = 1 + cs.count '\n' := by
    rw [behind, Nat.add_assoc, ← List.count_append, List.take_append_drop]
  obtain ⟨w, hw⟩ := exists_tokens_of_clean hclean (.inl rfl) (behind cs q).line
  rw [List.append_nil, hline, tokens_nil] at hw
  refine ⟨w ++ [Token.endAt (1 + cs.count '\n')], ?_⟩
  rw [behind_length]
  exact hw

end Source

/-! ### All the bad characters of a text -/

/-- The positions of the bad characters of a text, in rising order. -/
def badPositions (cs : List Char) : List Nat :=
  (List.range cs.length).filter fun p => isBad (cs.drop p)

/-- A point behind a number, a lone colon and a character of no token; what stands between is fine.
-/
example : badPositions "1. x:=.5 a<b:\n2.5.3 !=?".toList = [1, 12, 22] := by decide

/-- `BadFrom cs q ps`: from position `q` on, the bad characters of the text `cs` are at the
positions `ps`, in rising order. -/
inductive BadFrom (cs : List Char) : Nat → List Nat → Prop where
  | nil {q : Nat} (hclear : ∀ j, q ≤ j → isBad (cs.drop j) = false) : BadFrom cs q []
  | cons {q p : Nat} {ps : List Nat} (hq : q ≤ p) (hp : isBad (cs.drop p) = true)
      (hclear : ∀ j, q ≤ j → j < p → isBad (cs.drop j) = false) (hs : BadFrom cs (p + 1) ps) :
      BadFrom cs q (p :: ps)

/-- A character that is not bad can be passed over. -/
theorem BadFrom.of_succ {cs : List Char} {q : Nat} {ps : List Nat}
    (hq : isBad (cs.drop q) = false) (h : BadFrom cs (q + 1) ps) : BadFrom cs q ps := by
  cases h with
  | nil hclear =>
      refine .nil fun j hj => ?_
      rcases Nat.eq_or_lt_of_le hj with rfl | hlt
      · exact hq
      · exact hclear j hlt
  | cons hle hp hclear hs =>
      refine .cons (Nat.le_of_succ_le hle) hp (fun j hj hjp => ?_) hs
      rcases Nat.eq_or_lt_of_le hj with rfl | hlt
      · exact hq
      · exact hclear j hlt hjp

theorem badFrom_filter (cs : List Char) {q n : Nat} (h : q + n = cs.length) :
    BadFrom cs q ((List.range' q n).filter fun p => isBad (cs.drop p)) := by
  induction n generalizing q with
  | zero =>
      refine .nil fun j hj => ?_
      rw [List.drop_eq_nil_iff.mpr (by omega)]
      rfl
  | succ n ih =>
      have hlater := ih (q := q + 1) (by omega)
      rw [List.range'_succ, List.filter_cons]
      by_cases hbad : isBad (cs.drop q) = true
      · rw [if_pos hbad]
        exact .cons (Nat.le_refl q) hbad (fun j hj hjq => by omega) hlater
      · rw [if_neg hbad]
        exact .of_succ (Bool.eq_false_iff.mpr hbad) hlater

/-- The bad positions are found one after the other. -/
theorem badFrom_badPositions (cs : List Char) : BadFrom cs 0 (badPositions cs) := by
  rw [badPositions, List.range_eq_range']
  exact badFrom_filter cs (Nat.zero_add _)

/-! ### All calls -/

/-- The source that is left after so many calls. -/
def Source.after : Nat → Source → Source
  | 0, s => s
  | n + 1, s => after n s.tokens.2

/-- The place behind the last of some positions, or `q` if there is none. -/
def behindLast (q : Nat) (ps : List Nat) : Nat :=
  (ps.getLast?.map (· + 1)).getD q

theorem behindLast_cons (q p : Nat) (ps : List Nat) :
    behindLast q (p :: ps) = behindLast (p + 1) ps := by
  rw [behindLast, behindLast, List.getLast?_cons]
  cases ps.getLast? with
  | none => rfl
  | some last => rfl

namespace BadFrom

variable {cs : List Char} {q : Nat} {ps : List Nat}

/-- Each of the first calls fails at one of the bad characters. -/
theorem call_fails (h : BadFrom cs q ps) {i : Nat} (hi : i < ps.length) :
    ∃ e, ((Source.behind cs q).after i).tokens.1 = .error e ∧ e.IsAt cs ps[i] := by
  induction h generalizing i with
  | nil hclear => exact absurd hi (Nat.not_lt_zero i)
  | @cons q p ps hq hp hclear hs ih =>
      obtain ⟨e, htokens, he⟩ := Source.tokens_behind_of_isBad hq hp hclear
      cases i with
      | zero => exact ⟨e, congrArg Prod.fst htokens, he⟩
      | succ i =>
          rw [Source.after, htokens]
          exact ih (Nat.lt_of_succ_lt_succ hi)

/-- After those calls, what is left starts behind the last bad character. -/
theorem after_length (h : BadFrom cs q ps) :
    (Source.behind cs q).after ps.length = Source.behind cs (behindLast q ps) ∧
      ∀ j, behindLast q ps ≤ j → isBad (cs.drop j) = false := by
  induction h with
  | nil hclear => exact ⟨rfl, hclear⟩
  | @cons q p ps hq hp hclear hs ih =>
      obtain ⟨e, htokens, -⟩ := Source.tokens_behind_of_isBad hq hp hclear
      rw [behindLast_cons, List.length_cons, Source.after, htokens]
      exact ih

end BadFrom

namespace Source

/-- Calls can be counted on from where others have led. -/
theorem after_add (s : Source) (m n : Nat) : s.after (m + n) = (s.after m).after n := by
  induction m generalizing s with
  | zero => rw [Nat.zero_add, after]
  | succ m ih => rw [Nat.succ_add, after, after, ih]

/-- What is left of a text has the tokens that it would have as a text of its own, further down. -/
theorem tokens_behind (cs : List Char) (q : Nat) :
    (behind cs q).tokens =
      shift ((cs.take q).count '\n') (ofString (String.ofList (cs.drop q))).tokens := by
  rw [← tokens_shift, ofString, String.toList_ofList]
  rfl

/-- If there are tokens on moved lines, there are tokens. -/
theorem exists_ok_of_shift {d : Nat} {r : Except LexError (List Token) × Source} {us : List Token}
    (h : (shift d r).1 = .ok us) : ∃ ts, r.1 = .ok ts ∧ us = ts.map (Token.mapLine (· + d)) := by
  obtain ⟨result, left⟩ := r
  cases result with
  | error e => cases h
  | ok ts => exact ⟨ts, rfl, (Except.ok.inj h).symm⟩

/-- At its end a source stays as it is. -/
theorem after_nil (n line : Nat) : (Source.mk [] line).after n = ⟨[], line⟩ := by
  induction n with
  | zero => rfl
  | succ n ih => rw [after, tokens_nil, ih]

end Source

/-- **One failure for each bad character.**  Let a text be read by one call after another, each on
what the one before has left.  The first calls fail, one for each bad character and in their order,
with the complaint and the line of that character.  The next call succeeds, with the tokens that the
text behind the last bad character has, on the lines where they are.  Every later call finds the
end. -/
theorem calls_cases (s : String) :
    (∀ i, ∀ hi : i < (badPositions s.toList).length,
      ∃ e, ((Source.ofString s).after i).tokens.1 = .error e ∧
        e.IsAt s.toList (badPositions s.toList)[i]) ∧
    (∃ ts,
      (Source.ofString (String.ofList
        (s.toList.drop (behindLast 0 (badPositions s.toList))))).tokens.1 = .ok ts ∧
      ((Source.ofString s).after (badPositions s.toList).length).tokens.1 =
        .ok (ts.map (Token.mapLine
          (· + (s.toList.take (behindLast 0 (badPositions s.toList))).count '\n')))) ∧
    (∀ i, (badPositions s.toList).length < i →
      ((Source.ofString s).after i).tokens.1 = .ok [Token.endAt (1 + s.toList.count '\n')]) := by
  have hbad := badFrom_badPositions s.toList
  have hstart : Source.ofString s = Source.behind s.toList 0 := rfl
  obtain ⟨hafter, hclear⟩ := hbad.after_length
  obtain ⟨us, htokens⟩ := Source.tokens_behind_of_clear hclear
  rw [hstart]
  refine ⟨fun i hi => hbad.call_fails hi, ?_, ?_⟩
  · have hok := congrArg Prod.fst htokens
    rw [Source.tokens_behind] at hok
    obtain ⟨ts, hts, rfl⟩ := Source.exists_ok_of_shift hok
    exact ⟨ts, hts, by rw [hafter, htokens]⟩
  · intro i hi
    obtain ⟨n, rfl⟩ := Nat.le.dest hi
    have hend : (Source.behind s.toList 0).after ((badPositions s.toList).length + 1 + n) =
        ⟨[], 1 + s.toList.count '\n'⟩ := by
      rw [Nat.add_assoc, Nat.add_comm 1 n, Source.after_add, hafter, Source.after, htokens,
        Source.behind_length, Source.after_nil]
    rw [hend, Source.tokens_nil]

end LetCalc
