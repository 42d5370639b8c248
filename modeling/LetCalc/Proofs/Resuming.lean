import LetCalc.Proofs.Concatenation

/-!
# Reading on

A cursor can be read from again where the last reading has left it: behind a program, or in the
middle of one that could not be read.  What it has passed by then has no say in what comes.  The way
of the reader depends on what is **ahead** alone (`Leads.follow`), and so do the statements it
builds: a node is on the line of a token that was passed on its own way.  Only a program without
statements looks back further, since it passes no token and takes its line from before.

Main statement: `reread_program`.
-/

namespace LetCalc

namespace Cursor

/-! ### Cursors with the same tokens ahead -/

/-- The tokens from the one under the cursor on. -/
def unread (c : Cursor) : List Token :=
  c.ahead ++ [c.closing]

/-- Two cursors have the same tokens ahead, whatever they have passed. -/
structure SameAhead (c d : Cursor) : Prop where
  ahead : c.ahead = d.ahead
  closing : c.closing = d.closing

/-- A cursor that starts on what is unread has the same tokens ahead. -/
theorem sameAhead_ofTokens (c : Cursor) : c.SameAhead (ofTokens c.unread) := by
  rw [unread, ofTokens_append c.ahead c.closing_kind]
  exact ⟨rfl, rfl⟩

theorem SameAhead.peek_eq {c d : Cursor} (h : c.SameAhead d) : c.peek = d.peek := by
  rw [peek, peek, h.ahead, h.closing]

/-- What one cursor passes the other passes too, and both still have the same ahead then. -/
theorem Passes.follow {c c' d : Cursor} {w : List Token} (h : c.Passes w c') (hd : c.SameAhead d) :
    ∃ d', d.Passes w d' ∧ c'.SameAhead d' := by
  refine ⟨⟨w.reverse ++ d.passed, c'.ahead, d.closing, d.closing_kind⟩, ⟨?_, rfl, rfl⟩, rfl, ?_⟩
  · rw [← hd.ahead, h.ahead]
  · rw [h.closing, hd.closing]

end Cursor

open Cursor

/-- The reader goes the same way from both, and misses the same. -/
theorem Leads.follow {g : Ebnf} {c c' d : Cursor} {miss : Option Expectation}
    (h : Leads g c miss c') (hd : c.SameAhead d) :
    ∃ d', Leads g d miss d' ∧ c'.SameAhead d' := by
  obtain ⟨w, hpass⟩ := h.exists_passes
  obtain ⟨d', hpass', hsame⟩ := hpass.follow hd
  have hpeek : d'.peek.kind = c'.peek.kind := by rw [hsame.peek_eq]
  exact ⟨d', h.transport hpass hpass' rfl hpeek, hsame⟩

/-! ### Programs read from them -/

/-- Two readings have the same error, or the same statements and, if there are any, the same
line. -/
def ReadAlike : Except SyntaxError Program → Except SyntaxError Program → Prop
  | .ok p, .ok q => p.statements = q.statements ∧ (p.statements ≠ [] → p.line = q.line)
  | .error e, .error f => e = f
  | _, _ => False

theorem ProgramDerivation.ne_nil {w : List Token} {es : List Expr} (h : ProgramDerivation w es)
    (hes : es ≠ []) : w ≠ [] := by
  cases h with
  | nil => exact absurd rfl hes
  | cons hsep first others => simp

namespace Cursor

variable {c c' d : Cursor}

theorem program_of_beyond {t : Token} {v : List Token} (h : Leads (.rule .program) c none c')
    (hahead : c'.ahead = t :: v) :
    c.program = (.error (.unexpected (v.headD c'.closing)), c') := by
  obtain ⟨es, hes⟩ := exists_statements_ok_iff.mpr h
  simp only [program, hes, beyondEnd?, hahead]

/-- A program does not depend on what stands before it. -/
theorem readAlike_of_sameAhead (h : c.SameAhead d) : ReadAlike c.program.1 d.program.1 := by
  cases hresult : c.program.1 with
  | error e =>
      rcases program_error_cases (Prod.ext hresult rfl) with
        ⟨wanted, hway, rfl⟩ | ⟨hway, t, v, hahead, -, rfl⟩
      · obtain ⟨d', hway', hsame⟩ := hway.follow h
        rw [program_of_leads hway', hsame.peek_eq]
        exact rfl
      · obtain ⟨d', hway', hsame⟩ := hway.follow h
        rw [program_of_beyond hway' (hsame.ahead ▸ hahead), hsame.closing]
        exact rfl
  | ok p =>
      have hprogram : c.program = (.ok p, c.program.2) := Prod.ext hresult rfl
      obtain ⟨hpass, hderivation, hline⟩ := program_ok_iff.mp hprogram
      obtain ⟨d', hpass', -⟩ := hpass.follow h
      have hread : d.program = (.ok ⟨p.statements, d'.lastLine⟩, d') :=
        program_ok_iff.mpr ⟨h.ahead ▸ hpass', h.ahead ▸ hderivation, rfl⟩
      rw [hread]
      refine ⟨rfl, ?_⟩
      intro hsome
      have htokens := hderivation.ne_nil hsome
      rw [hline, hpass.lastLine_eq htokens, hpass'.lastLine_eq htokens]

/-- Behind a program nothing is left but the end token, and there is nothing more to read. -/
theorem program_of_program_ok {p : Program} (h : c.program = (.ok p, c')) :
    c'.program = (.ok ⟨[], p.line⟩, c') := by
  obtain ⟨hpass, -, hline⟩ := program_ok_iff.mp h
  have hnone : c'.ahead = [] := List.append_right_eq_self.mp hpass.ahead.symm
  apply program_ok_iff.mpr
  rw [hnone]
  exact ⟨Passes.refl c', .nil, hline⟩

theorem reread_of_program_eq {r : Except SyntaxError Program} (h : c.program = (r, c)) (n : Nat) :
    c.reread n = c := by
  induction n with
  | zero => rfl
  | succ n ih =>
      rw [reread, h]
      exact ih

/-- Reading programs, however often, keeps the list of tokens. -/
theorem tokens_reread (c : Cursor) (n : Nat) : (c.reread n).tokens = c.tokens := by
  induction n generalizing c with
  | zero => rfl
  | succ n ih =>
      obtain ⟨w, hpass⟩ := c.exists_passes_program
      rw [reread, ih, hpass.tokens_eq]

end Cursor

/-- **Reading on is reading the rest.**  Let programs have been read from a list of tokens `n`
times, each time from where the last reading has ended, with a program or with an error.  Then what
is read next is what a new reader finds in the tokens not read yet: the same error, or the same
statements, and the same line unless there are none.  If some token is not the one expected, then
the cursor is left on it.  Once a program has been read, every later one is empty and on the same
line. -/
theorem reread_program (ts : List Token) (n : Nat) :
    let c := (Cursor.ofTokens ts).reread n
    c.passed.reverse ++ c.unread = closed ts ∧
    ReadAlike c.program.1 (Cursor.ofTokens c.unread).program.1 ∧
    (∀ wanted found, c.program.1 = .error (.expected wanted found) → c.program.2.peek = found) ∧
    ∀ p, c.program.1 = .ok p → ∀ m, (c.program.2.reread m).program.1 = .ok ⟨[], p.line⟩ := by
  intro c
  refine ⟨?_, readAlike_of_sameAhead c.sameAhead_ofTokens, ?_, ?_⟩
  · obtain ⟨w, closing, hclosing, hclosed, hcursor⟩ := Cursor.exists_closed ts
    have htokens : c.tokens = w ++ [closing] := by
      rw [tokens_reread, hcursor]
      rfl
    rw [hclosed, ← htokens, Cursor.unread, Cursor.tokens, List.append_assoc]
  · intro wanted found h
    rcases program_error_cases (Prod.ext h rfl) with ⟨_, -, he⟩ | ⟨-, t, v, -, -, he⟩
    · cases he
      rfl
    · cases he
  · intro p h m
    have hend := program_of_program_ok (Prod.ext h rfl)
    rw [reread_of_program_eq hend, hend]

/-- A semicolon is missing before the second numeral.  The next reading starts there and finds a
program; after that there is nothing left to read. -/
theorem reread_program_missing_semicolon :
    let ts : List Token := [⟨.intLit, "1", 1⟩, ⟨.intLit, "2", 2⟩, ⟨.semicolon, ";", 3⟩]
    let c := Cursor.ofTokens ts
    c.program.1 = .error (.expected (.token .semicolon) ⟨.intLit, "2", 2⟩) ∧
      c.program.2.peek = ⟨.intLit, "2", 2⟩ ∧
      (c.reread 1).program.1 = .ok ⟨[.literal ⟨.intLit, "2", 2⟩], 3⟩ ∧
      ReadAlike (.ok ⟨[.literal ⟨.intLit, "2", 2⟩], 3⟩)
        (Cursor.ofTokens [⟨.intLit, "2", 2⟩, ⟨.semicolon, ";", 3⟩, Token.endAt 3]).program.1 ∧
      ∀ m, ((c.reread 1).program.2.reread m).program.1 = .ok ⟨[], 3⟩ := by
  intro ts c
  have hfirst : c.program.1 = .error (.expected (.token .semicolon) ⟨.intLit, "2", 2⟩) := by
    decide +kernel
  have hsecond : (c.reread 1).program.1 = .ok ⟨[.literal ⟨.intLit, "2", 2⟩], 3⟩ := by
    decide +kernel
  have hunread : (c.reread 1).unread =
      [⟨.intLit, "2", 2⟩, ⟨.semicolon, ";", 3⟩, Token.endAt 3] := by
    decide +kernel
  obtain ⟨-, -, hplace, -⟩ := reread_program ts 0
  obtain ⟨-, halike, -, hlater⟩ := reread_program ts 1
  refine ⟨hfirst, hplace _ _ hfirst, hsecond, ?_, hlater _ hsecond⟩
  rw [← hunread, ← hsecond]
  exact halike

end LetCalc
