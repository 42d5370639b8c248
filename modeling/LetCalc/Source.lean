import LetCalc.Blank
import LetCalc.Token

/-!
# Source text and its tokens

A **source** is the text that is still unread, with the number of the line it starts on.
`Source.tokens` skips blanks and cuts off one **lexeme** after another, always the longest that
fits, until the text ends.  A bad character stops it; the source it hands back then starts behind
that character, so that reading can go on.

Main statements: a lexeme is not empty, and with its rest it makes up the text that was cut
(`lexeme_append`); so the text behind a lexeme is shorter (`lexeme_rest_length`).
-/

namespace LetCalc

/-! ### What can be wrong with a character -/

/-- Why no lexeme starts at a character. -/
inductive LexFault where
  /-- No token starts with this character. -/
  | stray (c : Char)
  /-- An exclamation mark without an equals sign. -/
  | loneBang
  /-- A colon without an equals sign. -/
  | loneColon
  deriving DecidableEq, Repr

/-- The fault in words. -/
def LexFault.message : LexFault → String
  | stray c => "unexpected character '" ++ c.toString ++ "'"
  | loneBang => "expected '!='"
  | loneColon => "expected ':='"

/-- A fault and the line that it is on. -/
structure LexError where
  fault : LexFault
  line : Nat
  deriving DecidableEq, Repr

/-- The error in words. -/
def LexError.message (e : LexError) : String :=
  "lexical error at line " ++ toString e.line ++ ": " ++ e.fault.message

/-! ### Lexemes -/

/-- A lexeme cut off the front of a text, and the text that follows it. -/
structure Lexeme where
  kind : Token.Kind
  text : List Char
  rest : List Char
  deriving DecidableEq, Repr

/-- A point and the digits behind it, of which there is at least one, with the text that follows. -/
def fraction? : List Char → Option (List Char × List Char)
  | '.' :: cs =>
    match cs.takeWhile Char.isDigit with
    | [] => none
    | digits => some ('.' :: digits, cs.dropWhile Char.isDigit)
  | _ => none

/-- A number: digits are an integer, and a fraction behind them, or standing alone, makes it real. -/
def numeral? (cs : List Char) : Option Lexeme :=
  let whole := cs.takeWhile Char.isDigit
  let rest := cs.dropWhile Char.isDigit
  match fraction? rest with
  | some (digits, after) => some ⟨.realLit, whole ++ digits, after⟩
  | none => if whole.isEmpty then none else some ⟨.intLit, whole, rest⟩

/-- The characters that a word starts with: the ASCII letters and the underscore. -/
def isWordStart (c : Char) : Bool :=
  c.isAlpha || c == '_'

/-- The characters that a word goes on with: its ASCII digits too. -/
def isWordChar (c : Char) : Bool :=
  c.isAlphanum || c == '_'

/-- A word: a keyword if it is spelled like one, otherwise an identifier. -/
def word? : List Char → Option Lexeme
  | [] => none
  | c :: cs =>
    if isWordStart c then
      let text := c :: cs.takeWhile isWordChar
      some ⟨(Token.Kind.keyword? (String.ofList text)).getD .ident, text, cs.dropWhile isWordChar⟩
    else
      none

/-- The symbol that a character makes with an equals sign behind it. -/
def withEquals? : Char → Option Token.Kind
  | '<' => some .le
  | '>' => some .ge
  | '!' => some .ne
  | ':' => some .assign
  | _ => none

/-- The symbol that a character makes alone. -/
def alone : Char → Except LexFault Token.Kind
  | '+' => .ok .plus
  | '-' => .ok .minus
  | '*' => .ok .star
  | '/' => .ok .slash
  | '<' => .ok .lt
  | '>' => .ok .gt
  | '=' => .ok .eq
  | '(' => .ok .lparen
  | ')' => .ok .rparen
  | ';' => .ok .semicolon
  | '!' => .error .loneBang
  | ':' => .error .loneColon
  | c => .error (.stray c)

/-- A symbol: with an equals sign where that is possible, otherwise the character alone. -/
def symbol (c : Char) (cs : List Char) : Except LexFault Lexeme :=
  match cs, withEquals? c with
  | '=' :: rest, some k => .ok ⟨k, [c, '='], rest⟩
  | _, _ => (alone c).map fun k => ⟨k, [c], cs⟩

/-- The lexeme at the front of the text `c :: cs`, or the fault of `c`. -/
def lexeme (c : Char) (cs : List Char) : Except LexFault Lexeme :=
  match numeral? (c :: cs) <|> word? (c :: cs) with
  | some x => .ok x
  | none => symbol c cs

/-! ### Nothing is lost -/

theorem fraction?_append {cs digits after : List Char} (h : fraction? cs = some (digits, after)) :
    digits ++ after = cs ∧ digits ≠ [] := by
  unfold fraction? at h
  split at h
  · split at h
    · cases h
    · cases h
      rename_i cs _ _
      exact ⟨by rw [List.cons_append, List.takeWhile_append_dropWhile], by simp⟩
  · cases h

theorem numeral?_append {cs : List Char} {x : Lexeme} (h : numeral? cs = some x) :
    x.text ++ x.rest = cs ∧ x.text ≠ [] := by
  unfold numeral? at h
  simp only at h
  split at h
  · rename_i digits after hf
    obtain ⟨happ, hne⟩ := fraction?_append hf
    cases h
    refine ⟨?_, by simp [hne]⟩
    show cs.takeWhile Char.isDigit ++ digits ++ after = cs
    rw [List.append_assoc, happ, List.takeWhile_append_dropWhile]
  · split at h
    · cases h
    · rename_i hwhole
      cases h
      exact ⟨List.takeWhile_append_dropWhile, by simpa using hwhole⟩

theorem word?_append {cs : List Char} {x : Lexeme} (h : word? cs = some x) :
    x.text ++ x.rest = cs ∧ x.text ≠ [] := by
  unfold word? at h
  split at h
  · cases h
  · split at h
    · cases h
      exact ⟨by rw [List.cons_append, List.takeWhile_append_dropWhile], by simp⟩
    · cases h

theorem symbol_append {c : Char} {cs : List Char} {x : Lexeme} (h : symbol c cs = .ok x) :
    x.text ++ x.rest = c :: cs ∧ x.text ≠ [] := by
  unfold symbol at h
  split at h
  · cases h
    exact ⟨rfl, by simp⟩
  · cases hk : alone c with
    | error f => rw [hk] at h; cases h
    | ok k =>
      rw [hk] at h
      cases h
      exact ⟨rfl, by simp⟩

/-- A lexeme and its rest make up the text it was cut from, and the lexeme is not empty. -/
theorem lexeme_append {c : Char} {cs : List Char} {x : Lexeme} (h : lexeme c cs = .ok x) :
    x.text ++ x.rest = c :: cs ∧ x.text ≠ [] := by
  unfold lexeme at h
  split at h
  · rename_i y hy
    cases h
    cases hn : numeral? (c :: cs) with
    | some z =>
      rw [hn] at hy
      cases hy
      exact numeral?_append hn
    | none =>
      rw [hn] at hy
      exact word?_append hy
  · exact symbol_append h

/-- Behind a lexeme there is less text than before it. -/
theorem lexeme_rest_length {c : Char} {cs : List Char} {x : Lexeme} (h : lexeme c cs = .ok x) :
    x.rest.length ≤ cs.length := by
  obtain ⟨happ, hne⟩ := lexeme_append h
  have hlen := congrArg List.length happ
  have hpos : 0 < x.text.length := List.length_pos_iff.mpr hne
  simp only [List.length_append, List.length_cons] at hlen
  omega

/-! ### All the tokens of a source -/

/-- Unread text and the line that it starts on. -/
structure Source where
  text : List Char
  line : Nat
  deriving DecidableEq, Repr

namespace Source

/-- The whole of a text, which starts on line 1. -/
def ofString (s : String) : Source :=
  ⟨s.toList, 1⟩

/-- The line behind a character: a line feed ends a line, and nothing else does. -/
def lineAfter (c : Char) (line : Nat) : Nat :=
  if c = '\n' then line + 1 else line

/-- The tokens of a source up to its end, or its first error, and the source that is left unread.
After an error that is the text behind the bad character. -/
def tokens : Source → Except LexError (List Token) × Source
  | ⟨[], line⟩ => (.ok [Token.endAt line], ⟨[], line⟩)
  | ⟨c :: cs, line⟩ =>
    if isBlank c then
      tokens ⟨cs, lineAfter c line⟩
    else
      match _h : lexeme c cs with
      | .error fault => (.error ⟨fault, line⟩, ⟨cs, line⟩)
      | .ok x =>
        let (result, left) := tokens ⟨x.rest, line⟩
        (result.map (⟨x.kind, String.ofList x.text, line⟩ :: ·), left)
termination_by s => s.text.length
decreasing_by
  · simp
  · have := lexeme_rest_length _h
    simp only [List.length_cons]
    omega

end Source

end LetCalc
