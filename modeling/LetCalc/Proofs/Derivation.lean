import LetCalc.Parse
import LetCalc.Proofs.Lines

/-!
# Derivations

A **derivation** says how tokens make up a phrase, and which tree the phrase stands for.  There is
one rule for each way to write a phrase.  Operators of one level are joined from the left: a tower
grows by an operator and an operand behind it.  An inner node is on the line of its last token.

The rules alone do not settle how far a `not` reaches: `not a + b` could be a negated sum, or a sum
whose first term is negated.  So a derivation also knows the kind of the token that follows it, and
a `not` may end before that token only if its operand could not have taken the token too (`MayEnd`):
a `not` always takes its **longest** operand.

Main statement: a derivation goes along when its tokens move to other lines (`Derivation.mapLine`).
-/

namespace LetCalc

/-! ### Phrases -/

/-- The kinds of phrase.  A relation is told apart by whether it has a comparison of its own. -/
inductive Phrase where
  | statement
  | expr
  | tower (l : Level)
  | relation (compared : Bool)
  | term
  | factor
  deriving DecidableEq, Repr

/-- What the operators of a level stand between. -/
inductive Level.Operand : Level → Phrase → Prop where
  | relation (compared : Bool) : Level.Operand .logical (.relation compared)
  | term : Level.Operand .additive .term
  | factor : Level.Operand .multiplicative .factor

/-- The kinds of literal. -/
def Token.Kind.literals : List Token.Kind :=
  [.intLit, .realLit, .trueLit, .falseLit]

/-- Whether a `not` may end before a token of a kind: the token is no additive operator, and it is a
comparison only if the operand of the `not` has one of its own already. -/
def MayEnd (compared : Bool) (next : Token.Kind) : Prop :=
  Level.additive.operator? next = none ∧ (Comparison.ofKind? next ≠ none → compared = true)

/-! ### Rules -/

/-- `Derivation p w k e`: the tokens `w` make up a phrase `p` with the tree `e`, if a token of kind
`k` follows them. -/
inductive Derivation : Phrase → List Token → Token.Kind → Expr → Prop where
  | val {word name assign : Token} {w : List Token} {k : Token.Kind} {e : Expr}
      (hword : word.kind = .valWord) (hname : name.kind = .ident) (hassign : assign.kind = .assign)
      (value : Derivation .expr w k e) :
      Derivation .statement (word :: name :: assign :: w) k (.val name.text e (lastLine w))
  | bare {w : List Token} {k : Token.Kind} {e : Expr} (whole : Derivation .expr w k e) :
      Derivation .statement w k e
  | letIn {word name assign sep : Token} {w v : List Token} {k : Token.Kind} {e f : Expr}
      (hword : word.kind = .letWord) (hname : name.kind = .ident) (hassign : assign.kind = .assign)
      (hsep : sep.kind = .inWord)
      (bound : Derivation .expr w .inWord e) (body : Derivation .expr v k f) :
      Derivation .expr (word :: name :: assign :: (w ++ sep :: v)) k
        (.letIn name.text e f (lastLine v))
  | logical {w : List Token} {k : Token.Kind} {e : Expr}
      (whole : Derivation (.tower .logical) w k e) : Derivation .expr w k e
  | single {l : Level} {p : Phrase} {w : List Token} {k : Token.Kind} {e : Expr}
      (hp : l.Operand p) (whole : Derivation p w k e) : Derivation (.tower l) w k e
  | grow {l : Level} {p : Phrase} {op : Token} {o : BinaryOp} {w v : List Token}
      {k : Token.Kind} {e f : Expr}
      (hp : l.Operand p) (hop : l.operator? op.kind = some o)
      (left : Derivation (.tower l) w op.kind e) (right : Derivation p v k f) :
      Derivation (.tower l) (w ++ op :: v) k (.binary o e f (lastLine v))
  | sum {w : List Token} {k : Token.Kind} {e : Expr}
      (whole : Derivation (.tower .additive) w k e) : Derivation (.relation false) w k e
  | comparison {op : Token} {o : Comparison} {w v : List Token} {k : Token.Kind} {e f : Expr}
      (hop : Comparison.ofKind? op.kind = some o)
      (left : Derivation (.tower .additive) w op.kind e)
      (right : Derivation (.tower .additive) v k f) :
      Derivation (.relation true) (w ++ op :: v) k (.binary (.compare o) e f (lastLine v))
  | negation {word : Token} {compared : Bool} {w : List Token} {k : Token.Kind} {e : Expr}
      (hword : word.kind = .notWord) (operand : Derivation (.relation compared) w k e)
      (hend : MayEnd compared k) :
      Derivation .term (word :: w) k (.unary .not e (lastLine w))
  | product {w : List Token} {k : Token.Kind} {e : Expr}
      (whole : Derivation (.tower .multiplicative) w k e) : Derivation .term w k e
  | sign {op : Token} {w : List Token} {k : Token.Kind} {e : Expr}
      (hop : op.kind = .minus) (operand : Derivation .factor w k e) :
      Derivation .factor (op :: w) k (.unary .neg e (lastLine w))
  | group {opening closing : Token} {w : List Token} {k : Token.Kind} {e : Expr}
      (hopening : opening.kind = .lparen) (hclosing : closing.kind = .rparen)
      (inner : Derivation .expr w .rparen e) :
      Derivation .factor (opening :: (w ++ [closing])) k e
  | literal {t : Token} {k : Token.Kind} (ht : t.kind ∈ Token.Kind.literals) :
      Derivation .factor [t] k (.literal t)
  | name {t : Token} {k : Token.Kind} (ht : t.kind = .ident) : Derivation .factor [t] k (.ident t)

/-- The tokens `w` make up a program with these statements: each statement has a semicolon behind
it. -/
inductive ProgramDerivation : List Token → List Expr → Prop where
  | nil : ProgramDerivation [] []
  | cons {sep : Token} {w v : List Token} {e : Expr} {es : List Expr}
      (hsep : sep.kind = .semicolon) (first : Derivation .statement w .semicolon e)
      (others : ProgramDerivation v es) : ProgramDerivation (w ++ sep :: v) (e :: es)

/-! ### What all derivations have in common -/

namespace Derivation

variable {p : Phrase} {w : List Token} {k : Token.Kind} {e : Expr}

/-- A phrase has at least one token. -/
theorem ne_nil (h : Derivation p w k e) : w ≠ [] := by
  induction h <;> simp [*]

/-- Moving the tokens of a derivation to other lines moves its tree in the same way. -/
theorem mapLine (f : Nat → Nat) (h : Derivation p w k e) :
    Derivation p (w.map (Token.mapLine f)) k (e.mapLine f) := by
  induction h with
  | val hword hname hassign value ih =>
      rw [Expr.mapLine, ← lastLine_map f value.ne_nil]
      exact .val hword hname hassign ih
  | bare whole ih => exact .bare ih
  | letIn hword hname hassign hsep bound body ihbound ihbody =>
      rw [Expr.mapLine, ← lastLine_map f body.ne_nil]
      simp only [List.map_cons, List.map_append]
      exact .letIn hword hname hassign hsep ihbound ihbody
  | logical whole ih => exact .logical ih
  | single hp whole ih => exact .single hp ih
  | grow hp hop left right ihleft ihright =>
      rw [Expr.mapLine, ← lastLine_map f right.ne_nil, List.map_append, List.map_cons]
      exact .grow hp hop ihleft ihright
  | sum whole ih => exact .sum ih
  | comparison hop left right ihleft ihright =>
      rw [Expr.mapLine, ← lastLine_map f right.ne_nil, List.map_append, List.map_cons]
      exact .comparison hop ihleft ihright
  | negation hword operand hend ih =>
      rw [Expr.mapLine, ← lastLine_map f operand.ne_nil]
      exact .negation hword ih hend
  | product whole ih => exact .product ih
  | sign hop operand ih =>
      rw [Expr.mapLine, ← lastLine_map f operand.ne_nil]
      exact .sign hop ih
  | group hopening hclosing inner ih =>
      rw [List.map_cons, List.map_append]
      exact .group hopening hclosing ih
  | literal ht => exact .literal ht
  | name ht => exact .name ht

/-- A factor alone is an operand of any level, and so an expression. -/
theorem product_of_factor (h : Derivation .factor w k e) :
    Derivation (.tower .multiplicative) w k e :=
  .single .factor h

theorem sum_of_factor (h : Derivation .factor w k e) : Derivation (.tower .additive) w k e :=
  .single .term (.product h.product_of_factor)

theorem relation_of_factor (h : Derivation .factor w k e) :
    Derivation (.relation false) w k e :=
  .sum h.sum_of_factor

theorem expr_of_relation {compared : Bool} (h : Derivation (.relation compared) w k e) :
    Derivation .expr w k e :=
  .logical (.single (.relation compared) h)

theorem expr_of_factor (h : Derivation .factor w k e) : Derivation .expr w k e :=
  expr_of_relation h.relation_of_factor

end Derivation

/-- Moving the tokens of a program to other lines moves its statements in the same way. -/
theorem ProgramDerivation.mapLine (f : Nat → Nat) {w : List Token} {es : List Expr}
    (h : ProgramDerivation w es) :
    ProgramDerivation (w.map (Token.mapLine f)) (es.map (Expr.mapLine f)) := by
  induction h with
  | nil => exact .nil
  | cons hsep first others ih =>
      rw [List.map_append, List.map_cons, List.map_cons]
      exact .cons hsep (first.mapLine f) ih

end LetCalc
