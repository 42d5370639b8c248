import LetCalc.Cursor
import LetCalc.Expr

/-!
# Reading programs

The grammar, from loose to tight:

    program  = { statement ";" }
    statement = "val" name ":=" expr | expr
    expr     = "let" name ":=" expr "in" expr | relation { ("and" | "or") relation }
    relation = sum [ ("<" | "<=" | ">" | ">=" | "=" | "!=") sum ]
    sum      = term { ("+" | "-") term }
    term     = "not" relation | factor { ("*" | "/" | "mod") factor }
    factor   = "-" factor | "(" expr ")" | literal | name

There is one function for each rule, from a cursor to an expression and the cursor behind it.  The
three repetitions differ only in their operators and operands, so one **level** of binary
operators is read by `tower` and `chain`.  Operators of one level group to the left.

A rule that fails **stops**: it says what it wanted, and where.  A rule that succeeds has passed at
least one token; that fact is part of its result (`Parsed.within`) and is what makes the reading end.
-/

namespace LetCalc

/-! ### Errors -/

/-- What a rule wanted to find. -/
inductive Expectation where
  /-- A token of one kind. -/
  | token (kind : Token.Kind)
  /-- Any token that an expression can start with. -/
  | expression
  deriving DecidableEq, Repr

/-- The expectation in words. -/
def Expectation.describe : Expectation → String
  | token kind => kind.describe
  | expression => "expression"

/-- Why a text is not a program. -/
inductive SyntaxError where
  /-- It cannot be cut into tokens. -/
  | lexical (error : LexError)
  /-- A token is not the one that was wanted. -/
  | expected (wanted : Expectation) (found : Token)
  /-- A token stands behind the end. -/
  | unexpected (found : Token)
  deriving DecidableEq, Repr

namespace SyntaxError

/-- The line of an error. -/
def line : SyntaxError → Nat
  | lexical error => error.line
  | expected _ found => found.line
  | unexpected found => found.line

/-- The error in words. -/
def message : SyntaxError → String
  | lexical error => error.message
  | expected wanted found =>
    "syntax error at line " ++ toString found.line ++ ": expected " ++ wanted.describe ++
      ", found " ++ found.describe
  | unexpected found =>
    "syntax error at line " ++ toString found.line ++ ": unexpected " ++ found.describe

end SyntaxError

/-! ### Results of a rule -/

/-- A failure of a rule: what it wanted, and the cursor on the token found instead. -/
structure Stop where
  wanted : Expectation
  place : Cursor
  deriving DecidableEq

/-- The error that a failure is reported as. -/
def Stop.toError (s : Stop) : SyntaxError :=
  .expected s.wanted s.place.peek

/-- Something read, and the cursor behind it with fewer than `bound` tokens ahead. -/
structure Parsed (α : Type) (bound : Nat) where
  value : α
  next : Cursor
  within : next.remaining < bound

/-! ### Operators -/

/-- The levels of binary operators that group to the left. -/
inductive Level where
  | logical
  | additive
  | multiplicative
  deriving DecidableEq, Repr

/-- The operator of a level that a kind of token stands for. -/
def Level.operator? : Level → Token.Kind → Option BinaryOp
  | logical, .andWord => some (.logic .and)
  | logical, .orWord => some (.logic .or)
  | additive, .plus => some (.arith .add)
  | additive, .minus => some (.arith .sub)
  | multiplicative, .star => some (.arith .mul)
  | multiplicative, .slash => some (.arith .div)
  | multiplicative, .modWord => some (.arith .mod)
  | _, _ => none

/-- The comparison that a kind of token stands for. -/
def Comparison.ofKind? : Token.Kind → Option Comparison
  | .lt => some .lt
  | .le => some .le
  | .gt => some .gt
  | .ge => some .ge
  | .eq => some .eq
  | .ne => some .ne
  | _ => none

theorem Level.ne_endOfInput_of_operator? {l : Level} {k : Token.Kind} {op : BinaryOp}
    (h : l.operator? k = some op) : k ≠ .endOfInput := by
  rintro rfl
  cases l <;> cases h

theorem Comparison.ne_endOfInput_of_ofKind? {k : Token.Kind} {op : Comparison}
    (h : Comparison.ofKind? k = some op) : k ≠ .endOfInput := by
  rintro rfl
  cases h

/-- Orders the rules that start on one token, so that a rule calls only lower ones there. -/
def Level.rank : Level → Nat
  | logical => 7
  | additive => 4
  | multiplicative => 1

@[simp] theorem Level.rank_logical : Level.logical.rank = 7 := rfl

@[simp] theorem Level.rank_additive : Level.additive.rank = 4 := rfl

@[simp] theorem Level.rank_multiplicative : Level.multiplicative.rank = 1 := rfl

theorem Level.rank_le (l : Level) : l.rank ≤ 7 := by
  cases l <;> decide

/-! ### The rules -/

namespace Cursor

/-- Passes a token of a given kind. -/
def expect (c : Cursor) (kind : Token.Kind) (hk : kind ≠ .endOfInput) :
    Except Stop (Parsed Token c.remaining) :=
  if h : c.peek.kind = kind then
    .ok ⟨c.peek, c.advance, advance_remaining (h ▸ hk)⟩
  else
    .error ⟨.token kind, c⟩

mutual

/-- Reads an expression. -/
def expr (c : Cursor) : Except Stop (Parsed Expr c.remaining) :=
  if h : c.peek.kind = .letWord then do
    have h₀ := advance_remaining (c := c) (by rw [h]; decide)
    let ⟨name, c₁, h₁⟩ ← c.advance.expect .ident (by decide)
    let ⟨_, c₂, h₂⟩ ← c₁.expect .assign (by decide)
    let ⟨bound, c₃, h₃⟩ ← expr c₂
    let ⟨_, c₄, h₄⟩ ← c₃.expect .inWord (by decide)
    let ⟨body, c₅, h₅⟩ ← expr c₄
    return ⟨.letIn name.text bound body c₅.lastLine, c₅, by omega⟩
  else
    tower .logical c
termination_by 10 * c.remaining + 9

/-- Reads an operand of a level and the chain of operators and operands behind it. -/
def tower (l : Level) (c : Cursor) : Except Stop (Parsed Expr c.remaining) := do
  let ⟨first, c₁, h₁⟩ ← operand l c
  let ⟨whole, c₂, h₂⟩ ← chain l first c₁
  return ⟨whole, c₂, by omega⟩
termination_by 10 * c.remaining + l.rank + 1

/-- Reads operators of a level with their right operands, as long as there are any, and joins each
to what stands to its left. -/
def chain (l : Level) (left : Expr) (c : Cursor) : Except Stop (Parsed Expr (c.remaining + 1)) :=
  match h : l.operator? c.peek.kind with
  | none => .ok ⟨left, c, by omega⟩
  | some op => do
    have h₀ := advance_remaining (Level.ne_endOfInput_of_operator? h)
    have hl := l.rank_le
    let ⟨right, c₁, h₁⟩ ← operand l c.advance
    let ⟨whole, c₂, h₂⟩ ← chain l (.binary op left right c₁.lastLine) c₁
    return ⟨whole, c₂, by omega⟩
termination_by 10 * c.remaining

/-- Reads what the operators of a level stand between. -/
def operand (l : Level) (c : Cursor) : Except Stop (Parsed Expr c.remaining) :=
  match l with
  | .logical => relation c
  | .additive => term c
  | .multiplicative => factor c
termination_by 10 * c.remaining + l.rank

/-- Reads a sum, or two with a comparison between them. -/
def relation (c : Cursor) : Except Stop (Parsed Expr c.remaining) := do
  let ⟨left, c₁, h₁⟩ ← tower .additive c
  match h : Comparison.ofKind? c₁.peek.kind with
  | none => return ⟨left, c₁, h₁⟩
  | some op =>
    have h₀ := advance_remaining (Comparison.ne_endOfInput_of_ofKind? h)
    let ⟨right, c₂, h₂⟩ ← tower .additive c₁.advance
    return ⟨.binary (.compare op) left right c₂.lastLine, c₂, by omega⟩
termination_by 10 * c.remaining + 6

/-- Reads a negated relation, or a product. -/
def term (c : Cursor) : Except Stop (Parsed Expr c.remaining) :=
  if h : c.peek.kind = .notWord then do
    have h₀ := advance_remaining (c := c) (by rw [h]; decide)
    let ⟨operand, c₁, h₁⟩ ← relation c.advance
    return ⟨.unary .not operand c₁.lastLine, c₁, by omega⟩
  else
    tower .multiplicative c
termination_by 10 * c.remaining + 3

/-- Reads a signed factor, an expression in parentheses, a literal or a name. -/
def factor (c : Cursor) : Except Stop (Parsed Expr c.remaining) :=
  match h : c.peek.kind with
  | .minus => do
    have h₀ := advance_remaining (c := c) (by rw [h]; decide)
    let ⟨operand, c₁, h₁⟩ ← factor c.advance
    return ⟨.unary .neg operand c₁.lastLine, c₁, by omega⟩
  | .lparen => do
    have h₀ := advance_remaining (c := c) (by rw [h]; decide)
    let ⟨inner, c₁, h₁⟩ ← expr c.advance
    let ⟨_, c₂, h₂⟩ ← c₁.expect .rparen (by decide)
    return ⟨inner, c₂, by omega⟩
  | .intLit | .realLit | .trueLit | .falseLit =>
    .ok ⟨.literal c.peek, c.advance, advance_remaining (by rw [h]; decide)⟩
  | .ident =>
    .ok ⟨.ident c.peek, c.advance, advance_remaining (by rw [h]; decide)⟩
  | _ => .error ⟨.expression, c⟩
termination_by 10 * c.remaining

end

/-- Reads a declaration or an expression. -/
def statement (c : Cursor) : Except Stop (Parsed Expr c.remaining) :=
  if h : c.peek.kind = .valWord then do
    have h₀ := advance_remaining (c := c) (by rw [h]; decide)
    let ⟨name, c₁, h₁⟩ ← c.advance.expect .ident (by decide)
    let ⟨_, c₂, h₂⟩ ← c₁.expect .assign (by decide)
    let ⟨value, c₃, h₃⟩ ← c₂.expr
    return ⟨.val name.text value c₃.lastLine, c₃, by omega⟩
  else
    c.expr

/-- Reads statements, each with a semicolon behind it, up to an end token. -/
def statements (c : Cursor) : Except Stop (List Expr × Cursor) :=
  if c.peek.kind = .endOfInput then
    .ok ([], c)
  else do
    let ⟨first, c₁, h₁⟩ ← c.statement
    let ⟨_, c₂, h₂⟩ ← c₁.expect .semicolon (by decide)
    let (others, c₃) ← statements c₂
    return (first :: others, c₃)
termination_by c.remaining

/-- Reads a program, and gives the cursor that it leaves: on the end token, or on the token of the
error.  A token behind the end token is an error on its own, and the cursor stays before it. -/
def program (c : Cursor) : Except SyntaxError Program × Cursor :=
  match c.statements with
  | .error stop => (.error stop.toError, stop.place)
  | .ok (statements, c') =>
    match c'.beyondEnd? with
    | some found => (.error (.unexpected found), c')
    | none => (.ok ⟨statements, c'.lastLine⟩, c')

/-- A cursor on the first token of a source text. -/
def ofString (s : String) : Except SyntaxError Cursor :=
  match (Source.ofString s).tokens.1 with
  | .ok ts => .ok (ofTokens ts)
  | .error e => .error (.lexical e)

end Cursor

/-- The program that a source text writes. -/
def parse (s : String) : Except SyntaxError Program := do
  let c ← Cursor.ofString s
  c.program.1

end LetCalc
