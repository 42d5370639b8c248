import LetCalc.Proofs.Lookahead

/-!
# The place of an error

The reader stops at the **earliest** token that it can.  What it has passed until then can still be
made a program, and with the token of the error it cannot be, however it goes on.

The first half says that every phrase that is open at an error can be completed; this is
`Leads.exists_derives`.  The second half speaks of all derivations in the grammar, not only of those
that the reader has in mind.  But the reader accepts all that can be derived (`Recognition`), and it
looks only one token ahead (`Leads.transport`).  So it would stop at the same token of any program
that starts like this, while it has to read that program to its end.

Main statement: `program_error_place`.
-/

namespace LetCalc

/-! ### Sentences and their beginnings -/

/-- Whether these are the kinds of the tokens of a whole program: the grammar derives all but the
last, which is an end token. -/
def IsSentence (ks : List Token.Kind) : Prop :=
  ∃ ls, Derives (.rule .program) ls ∧ ks = ls ++ [.endOfInput]

/-- Whether these kinds can be made those of a whole program by others behind them. -/
def IsViable (ks : List Token.Kind) : Prop :=
  ∃ ls, IsSentence (ks ++ ls)

theorem IsViable.of_derives {ks ls : List Token.Kind} (h : Derives (.rule .program) (ks ++ ls)) :
    IsViable ks :=
  ⟨ls ++ [.endOfInput], ks ++ ls, h, (List.append_assoc ..).symm⟩

/-- Nothing goes on behind an end token. -/
theorem not_isViable_of_endOfInput (ks : List Token.Kind) (k : Token.Kind) :
    ¬ IsViable (ks ++ [.endOfInput, k]) := by
  rintro ⟨ls, ms, hms, heq⟩
  have hmem : Token.Kind.endOfInput ∈ ms := by
    have hinit := congrArg List.dropLast heq
    rw [List.dropLast_concat] at hinit
    rw [← hinit, List.append_assoc, List.dropLast_append_of_ne_nil (by simp)]
    simp
  exact hms.endOfInput_not_mem rfl hmem

/-- A token of each of these kinds. -/
def blankTokens (ks : List Token.Kind) : List Token :=
  ks.map fun k => ⟨k, "", 0⟩

theorem map_kind_blankTokens (ks : List Token.Kind) : (blankTokens ks).map Token.kind = ks := by
  rw [blankTokens, List.map_map]
  exact List.map_id ks

/-- A beginning of a sentence is passed on the way over all of it: there are tokens of the kinds of
a program, and a cursor that gets over the first of them to a token of the next kind. -/
theorem IsViable.exists_cursor {ks : List Token.Kind} {k : Token.Kind} (h : IsViable (ks ++ [k])) :
    ∃ d d' d'' : Cursor, d.Passes (blankTokens ks) d' ∧ d'.peek.kind = k ∧
      Leads (.rule .program) d none d'' := by
  obtain ⟨ls, ms, hms, heq⟩ := h
  rw [List.append_assoc, List.singleton_append] at heq
  obtain ⟨rest, rfl, hrest⟩ : ∃ rest, ms = ks ++ rest ∧ k :: ls = rest ++ [.endOfInput] := by
    rcases List.append_eq_append_iff.mp heq with ⟨rest, hks, hrest⟩ | ⟨rest, hks, hrest⟩
    · exact ⟨rest, hks, hrest⟩
    · cases rest with
      | nil => exact ⟨[], by simpa using hks.symm, by simpa using hrest.symm⟩
      | cons l rest => simp at hrest
  have hkinds := map_kind_blankTokens (ks ++ rest)
  rw [← hkinds] at hms
  obtain ⟨es, hes⟩ := exists_programDerivation_iff.mpr hms
  let start : Cursor := ⟨[], blankTokens (ks ++ rest), Token.endAt 0, rfl⟩
  let finish : Cursor := ⟨(blankTokens (ks ++ rest)).reverse, [], Token.endAt 0, rfl⟩
  have hall : start.Passes (blankTokens (ks ++ rest)) finish := ⟨by simp [start, finish], by
    simp [start, finish], rfl⟩
  have hread := Cursor.statements_ok_of_derivation hes hall rfl
  have hsplit : blankTokens (ks ++ rest) = blankTokens ks ++ blankTokens rest := by
    simp [blankTokens]
  rw [hsplit] at hall
  obtain ⟨middle, p₁, p₂⟩ := hall.split
  refine ⟨start, middle, finish, p₁, ?_, Cursor.exists_statements_ok_iff.mp ⟨es, hread⟩⟩
  cases rest with
  | nil =>
      cases hrest
      obtain rfl := (Cursor.Passes.refl middle).unique p₂
      rfl
  | cons l rest =>
      cases hrest
      rw [p₂.peek_eq]

/-! ### Where the reader stops -/

namespace Leads

open Cursor

variable {c c' : Cursor} {w : List Token} {miss : Option Expectation} {wanted : Expectation}

/-- What the reader has passed is the beginning of a sentence, and has no end token. -/
theorem isViable (h : Leads (.rule .program) c miss c') (hpass : c.Passes w c') :
    IsViable (w.map Token.kind) ∧ ∀ t ∈ w, t.kind ≠ .endOfInput := by
  obtain ⟨ls, hls, -⟩ := h.exists_derives rfl hpass
  refine ⟨.of_derives hls, ?_⟩
  intro t ht hend
  have hmem : t.kind ∈ w.map Token.kind ++ ls :=
    List.mem_append_left ls (List.mem_map_of_mem ht)
  rw [hend] at hmem
  exact hls.endOfInput_not_mem rfl hmem

/-- With the token at which the reader stops it is no such beginning. -/
theorem not_isViable (h : Leads (.rule .program) c (some wanted) c') (hpass : c.Passes w c') :
    ¬ IsViable ((w ++ [c'.peek]).map Token.kind) := by
  intro hviable
  rw [List.map_append] at hviable
  obtain ⟨d, d', d'', hpass', hpeek, hread⟩ := hviable.exists_cursor
  -- the reader would stop within tokens that it reads to the end
  have hstop := h.transport hpass hpass' (map_kind_blankTokens _) hpeek
  cases (hread.unique hstop).1

end Leads

namespace Cursor

/-- Reading a program fails in one of two ways: something is missing at the cursor, or the cursor is
on an end token with another token behind it. -/
theorem program_error_cases {c c' : Cursor} {e : SyntaxError} (h : c.program = (.error e, c')) :
    (∃ wanted, Leads (.rule .program) c (some wanted) c' ∧ e = .expected wanted c'.peek) ∨
      (Leads (.rule .program) c none c' ∧
        ∃ u v, c'.ahead = u :: v ∧ u.kind = .endOfInput ∧ e = .unexpected (v.headD c'.closing)) := by
  unfold program at h
  split at h
  · rename_i stop hstop
    cases h
    exact .inl ⟨stop.wanted, statements_error_iff.mp hstop, rfl⟩
  · rename_i es c₁ hok
    obtain ⟨-, -, -, hend⟩ := derivation_of_statements_ok hok
    split at h
    · rename_i found hfound
      cases h
      refine .inr ⟨exists_statements_ok_iff.mp ⟨es, hok⟩, ?_⟩
      cases hahead : c'.ahead with
      | nil => simp [beyondEnd?, hahead] at hfound
      | cons u v =>
          simp only [beyondEnd?, hahead, Option.some.injEq] at hfound
          simp only [peek, hahead, List.headD_cons] at hend
          exact ⟨u, v, rfl, hend, by rw [hfound]⟩
    · cases h

/-- The cursor that is left when a program has been read `n` times, each time from where the last
reading has ended. -/
def reread : Nat → Cursor → Cursor
  | 0, c => c
  | n + 1, c => reread n c.program.2

/-- Reading a program passes tokens. -/
theorem exists_passes_program (c : Cursor) : ∃ w, c.Passes w c.program.2 := by
  have hobeys := c.statements_obeys
  unfold program
  split
  · rename_i stop hstop
    rw [hstop] at hobeys
    exact Leads.exists_passes hobeys
  · rename_i es c₁ hok
    rw [hok] at hobeys
    split <;> exact Leads.exists_passes hobeys

/-- If no end token is ahead but the closing one, then nothing is ever found behind an end token. -/
theorem program_ne_unexpected {c : Cursor} (hc : ∀ t ∈ c.ahead, t.kind ≠ .endOfInput) (n : Nat)
    (t : Token) : (c.reread n).program.1 ≠ .error (.unexpected t) := by
  induction n generalizing c with
  | zero =>
      intro h
      have hprogram : c.program = (.error (.unexpected t), c.program.2) := Prod.ext h rfl
      rcases program_error_cases hprogram with ⟨wanted, -, he⟩ | ⟨-, u, v, hahead, hu, -⟩
      · cases he
      · obtain ⟨w, hpass⟩ := c.exists_passes_program
        have hmem : u ∈ c.ahead := by simp [hpass.ahead, hahead]
        exact hc u hmem hu
  | succ n ih =>
      obtain ⟨w, hpass⟩ := c.exists_passes_program
      apply ih
      intro u hu
      have hmem : u ∈ c.ahead := by simp [hpass.ahead, hu]
      exact hc u hmem

/-- A source text has no end token but the closing one. -/
theorem kind_ne_endOfInput_of_ofString {s : String} {c : Cursor} (h : ofString s = .ok c) :
    ∀ t ∈ c.ahead, t.kind ≠ .endOfInput := by
  unfold ofString at h
  split at h
  · rename_i ts hts
    obtain ⟨w, n, rfl, hw⟩ := Source.tokens_spelled hts
    rw [ofTokens_append w (Token.kind_endAt n)] at h
    cases h
    intro t ht
    exact (hw t ht).2
  · cases h

/-- Passing tokens keeps the list. -/
theorem Passes.tokens_eq {c c' : Cursor} {w : List Token} (h : c.Passes w c') :
    c'.tokens = c.tokens := by
  simp [tokens, h.ahead, h.passed, h.closing]

end Cursor

/-- The tokens that the reader has passed on its way from the start of a list are those before its
cursor. -/
theorem Leads.exists_before {g : Ebnf} {ts : List Token} {c : Cursor} {miss : Option Expectation}
    (h : Leads g (Cursor.ofTokens ts) miss c) :
    ∃ w, (Cursor.ofTokens ts).Passes w c ∧ c.passed.reverse = w ∧ c.tokens = closed ts := by
  obtain ⟨whole, closing, hclosing, hclosed, hcursor⟩ := Cursor.exists_closed ts
  obtain ⟨w, hpass⟩ := h.exists_passes
  refine ⟨w, hpass, ?_, ?_⟩
  · rw [hpass.passed, hcursor, List.append_nil, List.reverse_reverse]
  · rw [hpass.tokens_eq, hclosed, hcursor]
    rfl

theorem exists_headD_cons (v : List Token) (t : Token) : ∃ rest, v ++ [t] = v.headD t :: rest := by
  cases v with
  | nil => exact ⟨[], rfl⟩
  | cons u v => exact ⟨v ++ [t], rfl⟩

/-- **An error is at the earliest token possible.**  If no program is read from a list of tokens, then
the error names a token `t` of the closed list.  The tokens `w` before it are the beginning of a
sentence, and with `t` they are not.  If the token before `t` is an end token, then `t` is unexpected
and the cursor has stayed on the end token; otherwise something else is expected and the cursor is
on `t`.  From a source text nothing is ever unexpected, however often a program is read. -/
theorem program_error_place :
    (∀ (ts : List Token) (e : SyntaxError) (c : Cursor),
      (Cursor.ofTokens ts).program = (.error e, c) →
      ∃ w t v, closed ts = w ++ t :: v ∧ c.tokens = closed ts ∧
        IsViable (w.map Token.kind) ∧ ¬ IsViable ((w ++ [t]).map Token.kind) ∧
        (((∃ wanted, e = .expected wanted t) ∧ (∀ u ∈ w.getLast?, u.kind ≠ .endOfInput) ∧
            c.passed.reverse = w) ∨
          (e = .unexpected t ∧
            ∃ w' u, w = w' ++ [u] ∧ u.kind = .endOfInput ∧ c.passed.reverse = w'))) ∧
    (∀ (s : String) (c : Cursor), Cursor.ofString s = .ok c →
      ∀ n t, (c.reread n).program.1 ≠ .error (.unexpected t)) := by
  refine ⟨?_, fun s c hc => Cursor.program_ne_unexpected (Cursor.kind_ne_endOfInput_of_ofString hc)⟩
  intro ts e c hprogram
  rcases Cursor.program_error_cases hprogram with ⟨wanted, hway, rfl⟩ | ⟨hway, u, v, hahead, hu, rfl⟩
  · obtain ⟨w, hpass, hpassed, htokens⟩ := hway.exists_before
    obtain ⟨hviable, hends⟩ := hway.isViable hpass
    obtain ⟨rest, hrest⟩ := exists_headD_cons c.ahead c.closing
    refine ⟨w, c.peek, rest, ?_, htokens, hviable, hway.not_isViable hpass, .inl ⟨⟨wanted, rfl⟩, ?_,
      hpassed⟩⟩
    · rw [← htokens, Cursor.tokens, hpassed, List.append_assoc, hrest]
      rfl
    · intro u hu
      exact hends u (List.mem_of_getLast? hu)
  · obtain ⟨w, hpass, hpassed, htokens⟩ := hway.exists_before
    obtain ⟨ls, hls, hnil⟩ := hway.exists_derives rfl hpass
    rw [hnil rfl, List.append_nil] at hls
    obtain ⟨rest, hrest⟩ := exists_headD_cons v c.closing
    have hsentence : IsSentence ((w ++ [u]).map Token.kind) := ⟨_, hls, by simp [hu]⟩
    refine ⟨w ++ [u], v.headD c.closing, rest, ?_, htokens, ⟨[], by rwa [List.append_nil]⟩, ?_,
      .inr ⟨rfl, w, u, rfl, hu, hpassed⟩⟩
    · rw [← htokens, Cursor.tokens, hpassed, hahead, List.append_assoc, List.cons_append, hrest,
        List.append_assoc, List.singleton_append]
    · have hnot := not_isViable_of_endOfInput (w.map Token.kind) (v.headD c.closing).kind
      simpa [hu] using hnot

/-- In `not a < b < c < d` the `not` has room for one comparison and the statement for another.  The
third is one too many, and an error on line 3. -/
theorem program_error_place_comparisons :
    (Cursor.ofTokens [⟨.notWord, "not", 1⟩, ⟨.ident, "a", 1⟩, ⟨.lt, "<", 1⟩, ⟨.ident, "b", 1⟩,
      ⟨.lt, "<", 2⟩, ⟨.ident, "c", 2⟩, ⟨.lt, "<", 3⟩, ⟨.ident, "d", 3⟩]).program =
        (.error (.expected (.token .semicolon) ⟨.lt, "<", 3⟩),
          ⟨[⟨.ident, "c", 2⟩, ⟨.lt, "<", 2⟩, ⟨.ident, "b", 1⟩, ⟨.lt, "<", 1⟩, ⟨.ident, "a", 1⟩,
            ⟨.notWord, "not", 1⟩], [⟨.lt, "<", 3⟩, ⟨.ident, "d", 3⟩], Token.endAt 3, rfl⟩) ∧
      IsViable [.notWord, .ident, .lt, .ident, .lt, .ident] ∧
      ¬ IsViable [.notWord, .ident, .lt, .ident, .lt, .ident, .lt] ∧
      Cursor.ofString "1; 2" = .ok ⟨[], [⟨.intLit, "1", 1⟩, ⟨.semicolon, ";", 1⟩, ⟨.intLit, "2", 1⟩],
        Token.endAt 1, rfl⟩ ∧
      ∀ n t, (Cursor.reread n ⟨[], [⟨.intLit, "1", 1⟩, ⟨.semicolon, ";", 1⟩, ⟨.intLit, "2", 1⟩],
        Token.endAt 1, rfl⟩).program.1 ≠ .error (.unexpected t) := by
  refine (fun hprogram hsource => ⟨hprogram, ?_, ?_, hsource, ?_⟩) (by decide +kernel)
    (by decide +kernel)
  · obtain ⟨w, t, v, -, -, hviable, -, ⟨-, -, rfl⟩ | ⟨he, -⟩⟩ := program_error_place.1 _ _ _ hprogram
    · exact hviable
    · cases he
  · obtain ⟨w, t, v, -, -, -, hnot, ⟨⟨wanted, he⟩, -, rfl⟩ | ⟨he, -⟩⟩ :=
      program_error_place.1 _ _ _ hprogram
    · cases he
      exact hnot
    · cases he
  · exact program_error_place.2 _ _ hsource

end LetCalc
