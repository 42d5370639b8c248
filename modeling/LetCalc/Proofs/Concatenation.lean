import LetCalc.Proofs.ErrorPlace
import LetCalc.Proofs.Reprinting
import LetCalc.Proofs.Seam

/-!
# Programs put together

A program ends with a semicolon, or it is blank.  So a text can be put behind it, and what is read
from both is what is read from each, one after the other.  If the second text is a program, then its
statements follow those of the first; if it is not, then its error is the error of both.  Only the
lines of the second text are moved, by the number of line feeds in the first.

The reader does not notice that something stands before the second text: `Leads.moved` is
`Leads.transport` for a cursor in a longer list.

Main statement: `parse_append`.
-/

namespace LetCalc

open Cursor

/-! ### Moving down -/

/-- A program with all its lines sent through a function. -/
def Program.mapLine (f : Nat → Nat) (p : Program) : Program :=
  ⟨p.statements.map (Expr.mapLine f), f p.line⟩

/-- An error with its line sent through a function. -/
def SyntaxError.mapLine (f : Nat → Nat) : SyntaxError → SyntaxError
  | lexical error => .lexical ⟨error.fault, f error.line⟩
  | expected wanted found => .expected wanted (found.mapLine f)
  | unexpected found => .unexpected (found.mapLine f)

/-- How many lines a text ends. -/
def lineFeeds (s : String) : Nat :=
  s.toList.count '\n'

namespace Cursor

/-- A cursor in a longer list: other tokens stand before its own, which are moved to other lines. -/
def moved (f : Nat → Nat) (before : List Token) (c : Cursor) : Cursor :=
  ⟨c.passed.map (Token.mapLine f) ++ before.reverse, c.ahead.map (Token.mapLine f),
    c.closing.mapLine f, c.closing_kind⟩

/-- A cursor that is moved is on the same token, on its new line. -/
theorem peek_moved (f : Nat → Nat) (before : List Token) (c : Cursor) :
    (c.moved f before).peek = c.peek.mapLine f := by
  cases h : c.ahead with
  | nil => simp [peek, moved, h]
  | cons t ts => simp [peek, moved, h]

/-- It passes the same tokens, on their new lines. -/
theorem Passes.moved {c c' : Cursor} {w : List Token} (h : c.Passes w c') (f : Nat → Nat)
    (before : List Token) :
    (c.moved f before).Passes (w.map (Token.mapLine f)) (c'.moved f before) where
  ahead := by simp [Cursor.moved, h.ahead]
  passed := by simp [Cursor.moved, h.passed]
  closing := by simp [Cursor.moved, h.closing]

end Cursor

/-- Lines have no part in the kinds of tokens. -/
theorem map_kind_mapLine (f : Nat → Nat) (w : List Token) :
    (w.map (Token.mapLine f)).map Token.kind = w.map Token.kind := by
  rw [List.map_map]
  rfl

/-- In a longer list the reader goes the same way. -/
theorem Leads.moved {g : Ebnf} {c c' : Cursor} {miss : Option Expectation} (h : Leads g c miss c')
    (f : Nat → Nat) (before : List Token) : Leads g (c.moved f before) miss (c'.moved f before) := by
  obtain ⟨w, hpass⟩ := h.exists_passes
  have hpeek : (c'.moved f before).peek.kind = c'.peek.kind := by rw [peek_moved, Token.kind_mapLine]
  exact h.transport hpass (hpass.moved f before) (map_kind_mapLine f w) hpeek

/-! ### Derivations put together -/

namespace ProgramDerivation

variable {w v : List Token} {es fs : List Expr}

/-- Programs one after the other are one program. -/
theorem append (h : ProgramDerivation w es) (h' : ProgramDerivation v fs) :
    ProgramDerivation (w ++ v) (es ++ fs) := by
  induction h with
  | nil => exact h'
  | cons hsep first others ih =>
      rw [List.append_assoc, List.cons_append, List.cons_append]
      exact .cons hsep first ih

/-- A program ends with a semicolon. -/
theorem kind_getLast? (h : ProgramDerivation w es) : ∀ t ∈ w.getLast?, t.kind = .semicolon := by
  induction h with
  | nil => exact nofun
  | @cons sep w v e es hsep first others ih =>
      intro t ht
      rw [List.getLast?_append, List.getLast?_cons] at ht
      cases hv : v.getLast? with
      | none =>
          simp only [hv, Option.getD_none, Option.some_or, Option.mem_some_iff] at ht
          exact ht ▸ hsep
      | some u =>
          simp only [hv, Option.getD_some, Option.some_or, Option.mem_some_iff] at ht
          exact ih t (ht ▸ hv)

/-- The reader gets over the statements of a program, whatever follows them. -/
theorem leads_append (h : ProgramDerivation w es) {c c₁ c' : Cursor} {miss : Option Expectation}
    (hpass : c.Passes w c₁) (hway : Leads (.rule .program) c₁ miss c') :
    Leads (.rule .program) c miss c' := by
  induction h generalizing c with
  | nil =>
      obtain rfl := (Passes.refl c).unique hpass
      exact hway
  | @cons sep w v e es hsep first others ih =>
      obtain ⟨c₂, p₀, prest⟩ := hpass.split
      obtain ⟨c₃, p₁, p₂⟩ := Passes.cons_iff.mp prest
      have hend : sep.kind ≠ .endOfInput := by rw [hsep]; decide
      have hne : c.peek.kind ≠ .endOfInput := first.peek_kind_ne p₀ (by decide)
      have hkind : c₂.peek.kind = .semicolon := by rw [p₁.peek_eq, hsep]
      obtain ⟨_, hfirst⟩ := first.reads p₀ hkind (Phrase.expr_closes (by decide))
      have hstatement := c.statement_obeys
      rw [hfirst] at hstatement
      have hsemicolon : Leads (.token .semicolon) c₂ none c₃ := by
        obtain ⟨rfl, rfl⟩ := (Passes.one_iff hend).mp p₁
        exact .pass (List.mem_singleton.mpr hsep) hend
      have hways := (hstatement.seq hsemicolon).seq (ih p₂).body
      exact .of_body (by decide) (.more (decide_eq_true hne) hways)

end ProgramDerivation

/-! ### Errors of a text -/

/-- A text that cannot be cut into tokens is no program. -/
theorem parse_of_lexError {s : String} {e : LexError}
    (h : (Source.ofString s).tokens.1 = .error e) : parse s = .error (.lexical e) := by
  rw [parse, ofString, h]
  rfl

/-- A text is read from its tokens. -/
theorem parse_of_tokens {s : String} {w : List Token} {n : Nat}
    (h : (Source.ofString s).tokens.1 = .ok (w ++ [Token.endAt n])) :
    parse s = (program ⟨[], w, Token.endAt n, rfl⟩).1 := by
  rw [parse, ofString, h]
  show (ofTokens (w ++ [Token.endAt n])).program.1 = _
  rw [ofTokens_append w (Token.kind_endAt n)]

theorem program_of_leads {c c' : Cursor} {wanted : Expectation}
    (h : Leads (.rule .program) c (some wanted) c') :
    c.program = (.error (.expected wanted c'.peek), c') := by
  rw [program, statements_error_iff.mpr h]
  rfl

/-- Reading a text fails in one of two ways: it cannot be cut into tokens, or something is missing
among them. -/
theorem parse_error_cases {s : String} {e : SyntaxError} (h : parse s = .error e) :
    (∃ err, (Source.ofString s).tokens.1 = .error err ∧ e = .lexical err) ∨
      ∃ w n wanted c', (Source.ofString s).tokens.1 = .ok (w ++ [Token.endAt n]) ∧
        Leads (.rule .program) ⟨[], w, Token.endAt n, rfl⟩ (some wanted) c' ∧
        e = .expected wanted c'.peek := by
  cases htokens : (Source.ofString s).tokens.1 with
  | error err =>
      rw [parse_of_lexError htokens] at h
      cases h
      exact .inl ⟨err, rfl, rfl⟩
  | ok ts =>
      obtain ⟨w, n, rfl, hw⟩ := Source.tokens_spelled htokens
      rw [parse_of_tokens htokens] at h
      refine .inr ⟨w, n, ?_⟩
      rcases program_error_cases (Prod.ext h rfl) with
        ⟨wanted, hway, rfl⟩ | ⟨hway, u, v, hahead, hu, -⟩
      · exact ⟨wanted, _, rfl, hway, rfl⟩
      · obtain ⟨x, hpass⟩ := hway.exists_passes
        have hmem : u ∈ w := by
          have hall : w = x ++ u :: v := hahead ▸ hpass.ahead
          simp [hall]
        exact absurd hu (hw u hmem).2

/-! ### Texts put together -/

/-- The tokens of a text that stands behind a program: those of the program, then its own, moved
down. -/
theorem tokens_append_of_parse {s₁ : String} {p₁ : Program} (h : parse s₁ = .ok p₁) (s₂ : String) :
    ∃ w, ProgramDerivation w p₁.statements ∧
      (Source.ofString (s₁ ++ s₂)).tokens =
        Source.prepend w (Source.shift (lineFeeds s₁) (Source.ofString s₂).tokens) := by
  obtain ⟨w, n, htokens, hderivation, -⟩ := parse_ok_iff.mp h
  have hlast : ∀ t ∈ w.getLast?, t.kind.endsBefore s₂.toList = true := by
    intro t ht
    rw [hderivation.kind_getLast? t ht]
    exact Token.Kind.endsBefore_of_head? fun _ _ => rfl
  have hline : n = 1 + lineFeeds s₁ := Source.tokens_endAt htokens
  have hshift : Source.tokens ⟨s₂.toList, n⟩ =
      Source.shift (lineFeeds s₁) (Source.ofString s₂).tokens := by
    rw [hline]
    exact Source.tokens_shift (.ofString s₂) (lineFeeds s₁)
  refine ⟨w, hderivation, ?_⟩
  rw [← hshift, ← Source.tokens_append htokens hlast, Source.ofString, String.toList_append]
  rfl

/-- Tokens that are moved down and put behind others still have their end token last. -/
theorem tokens_append_ok {w v : List Token} {d m : Nat} {r : Except LexError (List Token) × Source}
    (h : r.1 = .ok (v ++ [Token.endAt m])) :
    (Source.prepend w (Source.shift d r)).1 =
      .ok ((w ++ v.map (Token.mapLine (· + d))) ++ [Token.endAt (m + d)]) := by
  simp only [Source.prepend, Source.shift, h, Except.map, List.map_append, List.append_assoc]
  rfl

/-- A program behind a program: the statements follow each other. -/
theorem parse_append_of_ok {s₁ s₂ : String} {p₁ p₂ : Program} (h₁ : parse s₁ = .ok p₁)
    (h₂ : parse s₂ = .ok p₂) :
    ∃ q, parse (s₁ ++ s₂) = .ok q ∧
      q.statements = p₁.statements ++ (p₂.mapLine (· + lineFeeds s₁)).statements := by
  obtain ⟨w, hderivation, htokens⟩ := tokens_append_of_parse h₁ s₂
  obtain ⟨v, m, hv, hderivation₂, -⟩ := parse_ok_iff.mp h₂
  have hboth := hderivation.append (hderivation₂.mapLine (· + lineFeeds s₁))
  have htokens' := (congrArg Prod.fst htokens).trans (tokens_append_ok hv)
  exact ⟨⟨_, _⟩, parse_ok_iff.mpr ⟨_, _, htokens', hboth, rfl⟩, rfl⟩

/-- Another text behind a program: its error stays the same. -/
theorem parse_append_of_error {s₁ s₂ : String} {p₁ : Program} {e : SyntaxError}
    (h₁ : parse s₁ = .ok p₁) (h₂ : parse s₂ = .error e) :
    parse (s₁ ++ s₂) = .error (e.mapLine (· + lineFeeds s₁)) := by
  obtain ⟨w, hderivation, htokens⟩ := tokens_append_of_parse h₁ s₂
  rcases parse_error_cases h₂ with ⟨err, herr, rfl⟩ | ⟨v, m, wanted, c', hv, hway, rfl⟩
  · apply parse_of_lexError
    rw [htokens]
    simp [Source.prepend, Source.shift, herr, Except.map]
  · have htokens' := (congrArg Prod.fst htokens).trans (tokens_append_ok hv)
    rw [parse_of_tokens htokens']
    -- the reader gets over the program, and is then where it would start on the second text
    have hfirst : Cursor.Passes ⟨[], w ++ v.map (Token.mapLine (· + lineFeeds s₁)),
        Token.endAt (m + lineFeeds s₁), rfl⟩ w
        (Cursor.moved (· + lineFeeds s₁) w ⟨[], v, Token.endAt m, rfl⟩) :=
      ⟨rfl, by simp [Cursor.moved], rfl⟩
    have hboth := hderivation.leads_append hfirst (hway.moved (· + lineFeeds s₁) w)
    rw [program_of_leads hboth, peek_moved]
    rfl

/-- What is behind some statements is evaluated when they all have succeeded.  The value of the last
of them is lost then, if anything is behind it. -/
theorem evalAll_append (es fs : List Expr) (last : Option Value) (env : Environment) :
    evalAll (es ++ fs) last env = (evalAll es last env).andThen fun v env' =>
      if fs = [] then ⟨.ok v, env'⟩ else evalAll fs none env' := by
  induction es generalizing last env with
  | nil =>
      cases fs with
      | nil => rfl
      | cons f fs => rfl
  | cons e es ih =>
      obtain ⟨result, env₁, heval⟩ : ∃ result env₁, e.eval env = ⟨result, env₁⟩ := ⟨_, _, rfl⟩
      cases result with
      | error err =>
          rw [List.cons_append, evalAll_cons_of_error heval, evalAll_cons_of_error heval]
          rfl
      | ok v =>
          rw [List.cons_append, evalAll_cons_of_ok heval, evalAll_cons_of_ok heval]
          exact ih (some v) env₁

/-- **Texts put together are programs put together.**  Let the first text be a program.  If the second
is one too, then both together are a program: the statements of the second follow those of the first,
moved down, and it runs like the one and then the other.  If the second is none, then both together
have its error, moved down. -/
theorem parse_append {s₁ : String} {p₁ : Program} (h₁ : parse s₁ = .ok p₁) (s₂ : String) :
    (∀ p₂, parse s₂ = .ok p₂ → ∃ q, parse (s₁ ++ s₂) = .ok q ∧
      q.statements = p₁.statements ++ (p₂.mapLine (· + lineFeeds s₁)).statements ∧
      ∀ env, q.run env = (p₁.run env).andThen fun v env' =>
        if p₂.statements = [] then ⟨.ok v, env'⟩ else (p₂.mapLine (· + lineFeeds s₁)).run env') ∧
    (∀ e, parse s₂ = .error e → parse (s₁ ++ s₂) = .error (e.mapLine (· + lineFeeds s₁))) := by
  refine ⟨?_, fun e => parse_append_of_error h₁⟩
  intro p₂ h₂
  obtain ⟨q, hq, hstatements⟩ := parse_append_of_ok h₁ h₂
  refine ⟨q, hq, hstatements, ?_⟩
  intro env
  have hempty : (p₂.mapLine (· + lineFeeds s₁)).statements = [] ↔ p₂.statements = [] :=
    List.map_eq_nil_iff
  rw [Program.run, hstatements, evalAll_append]
  simp only [hempty]
  rfl

/-- Behind two line feeds, a division by zero and a missing operand on line 2 are on line 4. -/
theorem parse_append_line_feeds :
    (∃ q, parse ("val n := 1;\n\n" ++ "n /\n0;") = .ok q ∧
      (q.run .empty).result = .error ⟨.divisionByZero, 4⟩ ∧
      (q.run .empty).env.lookup "n" = some (.int 1)) ∧
    parse ("val n := 1;\n\n" ++ "n +\n;") = .error (.expected .expression ⟨.semicolon, ";", 4⟩) := by
  have h₁ : parse "val n := 1;\n\n" = .ok ⟨[.val "n" (.literal ⟨.intLit, "1", 1⟩) 1], 1⟩ := by
    decide +kernel
  have h₂ : parse "n /\n0;" = .ok ⟨[.binary (.arith .div) (.ident ⟨.ident, "n", 1⟩)
      (.literal ⟨.intLit, "0", 2⟩) 2], 2⟩ := by
    decide +kernel
  have h₃ : parse "n +\n;" = .error (.expected .expression ⟨.semicolon, ";", 2⟩) := by
    decide +kernel
  obtain ⟨q, hq, -, hrun⟩ := (parse_append h₁ "n /\n0;").1 _ h₂
  refine ⟨⟨q, hq, ?_, ?_⟩, (parse_append h₁ "n +\n;").2 _ h₃⟩
  · rw [hrun]
    rfl
  · rw [hrun]
    rfl

end LetCalc
