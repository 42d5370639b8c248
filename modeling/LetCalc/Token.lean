/-!
# Tokens

A **token** is a piece of program text with its kind and the line that it stands on.  A kind is
either open (literals and identifiers, whose text varies) or has exactly one spelling (keywords
and symbols).  `Token.Kind.describe` and `Token.describe` name kinds and tokens in messages.
-/

namespace LetCalc

/-- The kinds of token. -/
inductive Token.Kind where
  | intLit
  | realLit
  | trueLit
  | falseLit
  | ident
  | valWord
  | letWord
  | inWord
  | andWord
  | orWord
  | notWord
  | modWord
  | plus
  | minus
  | star
  | slash
  | lt
  | le
  | gt
  | ge
  | eq
  | ne
  | assign
  | lparen
  | rparen
  | semicolon
  | endOfInput
  deriving DecidableEq, Repr

namespace Token.Kind

/-- The one spelling of a keyword or symbol.  The kinds whose text varies, and the end of the
input, have none: theirs is empty. -/
def spelling : Kind → String
  | trueLit => "true"
  | falseLit => "false"
  | valWord => "val"
  | letWord => "let"
  | inWord => "in"
  | andWord => "and"
  | orWord => "or"
  | notWord => "not"
  | modWord => "mod"
  | plus => "+"
  | minus => "-"
  | star => "*"
  | slash => "/"
  | lt => "<"
  | le => "<="
  | gt => ">"
  | ge => ">="
  | eq => "="
  | ne => "!="
  | assign => ":="
  | lparen => "("
  | rparen => ")"
  | semicolon => ";"
  | intLit | realLit | ident | endOfInput => ""

/-- The kinds that are spelled like an identifier. -/
def keywords : List Kind :=
  [valWord, letWord, inWord, andWord, orWord, notWord, modWord, trueLit, falseLit]

/-- The keyword with a given spelling. -/
def keyword? (text : String) : Option Kind :=
  keywords.find? (·.spelling == text)

/-- A kind in words: open kinds by name, the others by their spelling in quotes. -/
def describe : Kind → String
  | intLit => "integer literal"
  | realLit => "real literal"
  | ident => "identifier"
  | endOfInput => "end of file"
  | k => "'" ++ k.spelling ++ "'"

end Token.Kind

/-- A piece of program text, its kind and its line. -/
structure Token where
  kind : Token.Kind
  text : String
  line : Nat
  deriving DecidableEq, Repr

namespace Token

/-- The token that closes the input: it has no text. -/
def endAt (line : Nat) : Token :=
  ⟨.endOfInput, "", line⟩

/-- A token in words: literals and identifiers with their text, the others by their kind. -/
def describe (t : Token) : String :=
  match t.kind with
  | .intLit | .realLit => t.kind.describe ++ " " ++ t.text
  | .ident => "identifier '" ++ t.text ++ "'"
  | k => k.describe

end Token

end LetCalc
