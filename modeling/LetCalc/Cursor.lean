import LetCalc.Source

/-!
# Cursors

A **cursor** is a place in a list of tokens: the tokens it has passed, those ahead, and the end token
that closes the list.  No step leads past an end token, so that a cursor on an end token stays
there.

Main statement: a step off any token but an end token leaves fewer tokens ahead
(`advance_remaining`).
-/

namespace LetCalc

/-- A place in a list of tokens that is closed by an end token. -/
structure Cursor where
  /-- The tokens passed, the latest first. -/
  passed : List Token
  /-- The tokens ahead, without the closing one. -/
  ahead : List Token
  /-- The end token that closes the list. -/
  closing : Token
  closing_kind : closing.kind = .endOfInput
  deriving DecidableEq

namespace Cursor

/-- The whole list of tokens. -/
def tokens (c : Cursor) : List Token :=
  c.passed.reverse ++ c.ahead ++ [c.closing]

/-- A cursor on the first token of a list.  If the list does not end with an end token, one is
added on the line of its last token. -/
def ofTokens (ts : List Token) : Cursor :=
  match ts.getLast? with
  | none => ⟨[], [], Token.endAt 1, rfl⟩
  | some t =>
    if h : t.kind = .endOfInput then ⟨[], ts.dropLast, t, h⟩
    else ⟨[], ts, Token.endAt t.line, rfl⟩

/-- The token under the cursor. -/
def peek (c : Cursor) : Token :=
  c.ahead.headD c.closing

/-- The cursor on the next token.  On an end token it stays. -/
def advance (c : Cursor) : Cursor :=
  match c.ahead with
  | [] => c
  | t :: ts =>
    if t.kind = .endOfInput then c else ⟨t :: c.passed, ts, c.closing, c.closing_kind⟩

/-- The token behind the end token that the cursor is on. -/
def beyondEnd? (c : Cursor) : Option Token :=
  match c.ahead with
  | [] => none
  | _ :: ts => some (ts.headD c.closing)

/-- The line of the last token passed, or of the first token if none has been. -/
def lastLine (c : Cursor) : Nat :=
  (c.passed.headD c.peek).line

/-- How many tokens are ahead. -/
def remaining (c : Cursor) : Nat :=
  c.ahead.length

/-- A step off any token but an end token leaves fewer tokens ahead. -/
theorem advance_remaining {c : Cursor} (h : c.peek.kind ≠ .endOfInput) :
    c.advance.remaining < c.remaining := by
  obtain ⟨passed, ahead, closing, hclosing⟩ := c
  cases ahead with
  | nil => exact absurd hclosing h
  | cons t ts =>
    have ht : t.kind ≠ .endOfInput := h
    simp [advance, remaining, ht]

end Cursor

end LetCalc
