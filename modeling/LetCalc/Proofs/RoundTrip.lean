import LetCalc.Proofs.Reading
import LetCalc.Proofs.Spelling

/-!
# Reading undoes writing

A program that is **well formed** can be written as text and read back.  Its declarations stand only
at the top of a statement, its names are identifiers, and each leaf is a token whose text is written
for its kind.  Nothing is asked of its lines: the text has one statement a line, and that is where
everything is when the text is read.

The proof goes through the tokens that a tree is written with (`Expr.words`).  They are what the
text is cut into (`Expr.tokens_text`), and they have a derivation of the tree
(`Expr.derivation_words`).

Main statement: `parse_text`.
-/

namespace LetCalc

/-! ### Well-formed programs -/

/-- Whether a tree is an expression that can be written: it has no declaration, its names are
identifiers, and its leaves are literals and identifiers with a text to match. -/
def Expr.isPlain : Expr → Bool
  | val .. => false
  | letIn name bound body _ => isIdentifier name.toList && bound.isPlain && body.isPlain
  | binary _ left right _ => left.isPlain && right.isPlain
  | unary _ operand _ => operand.isPlain
  | literal t => t.kind ∈ Token.Kind.literals && t.isSpelled
  | ident t => t.kind == .ident && t.isSpelled

/-- Whether a tree is a statement that can be written: a declaration of an expression, or an
expression. -/
def Expr.isStatement : Expr → Bool
  | val name value _ => isIdentifier name.toList && value.isPlain
  | e => e.isPlain

/-- Whether all statements of a program can be written. -/
def Program.isWellFormed (p : Program) : Bool :=
  p.statements.all Expr.isStatement

/-! ### The tokens that a tree is written with -/

/-- The token of a keyword or symbol on a line. -/
def Token.Kind.on (k : Token.Kind) (n : Nat) : Token :=
  ⟨k, k.spelling, n⟩

/-- The kind of token that an operator is written with. -/
def BinaryOp.kind : BinaryOp → Token.Kind
  | arith .add => .plus
  | arith .sub => .minus
  | arith .mul => .star
  | arith .div => .slash
  | arith .mod => .modWord
  | logic .and => .andWord
  | logic .or => .orWord
  | compare .lt => .lt
  | compare .le => .le
  | compare .gt => .gt
  | compare .ge => .ge
  | compare .eq => .eq
  | compare .ne => .ne

/-- The kind of token that a unary operator is written with. -/
def UnaryOp.kind : UnaryOp → Token.Kind
  | neg => .minus
  | not => .notWord

/-- The tokens that a tree is written with, all on one line. -/
def Expr.words (n : Nat) : Expr → List Token
  | val name value _ =>
    Token.Kind.valWord.on n :: ⟨.ident, name, n⟩ :: Token.Kind.assign.on n :: value.words n
  | letIn name bound body _ =>
    Token.Kind.lparen.on n :: Token.Kind.letWord.on n :: ⟨.ident, name, n⟩ ::
      Token.Kind.assign.on n ::
      (bound.words n ++ Token.Kind.inWord.on n :: (body.words n ++ [Token.Kind.rparen.on n]))
  | binary op left right _ =>
    Token.Kind.lparen.on n ::
      (left.words n ++ op.kind.on n :: (right.words n ++ [Token.Kind.rparen.on n]))
  | unary op operand _ =>
    Token.Kind.lparen.on n :: op.kind.on n :: (operand.words n ++ [Token.Kind.rparen.on n])
  | literal t => [t.onLine n]
  | ident t => [t.onLine n]

/-- A kind with one spelling is no end token, and is written as that spelling. -/
theorem Token.Kind.spells_spelling {k : Token.Kind} (hk : k.spelling ≠ "") :
    k ≠ .endOfInput ∧ k.spells k.spelling.toList = true := by
  cases k with
  | intLit | realLit | ident | endOfInput => exact absurd rfl hk
  | _ => exact ⟨nofun, beq_self_eq_true _⟩

theorem BinaryOp.spelling_kind (op : BinaryOp) : op.kind.spelling = op.symbol := by
  rcases op with op | op | op <;> cases op <;> rfl

/-! ### The text is cut into these tokens -/

/-- Whether a text keeps apart what is written before it: no spelling goes on with it. -/
def Separates (rest : List Char) : Prop :=
  ∀ k : Token.Kind, k.endsBefore rest = true

theorem separates_space (rest : List Char) : Separates (' ' :: rest) := by
  intro k
  cases k <;> rfl

theorem separates_symbol {k : Token.Kind} (hk : k ∈ [.rparen, .semicolon]) (rest : List Char) :
    Separates (k.spelling.toList ++ rest) := by
  intro k'
  simp only [List.mem_cons, List.not_mem_nil, or_false] at hk
  rcases hk with rfl | rfl <;> cases k' <;> rfl

namespace Source

theorem tokens_space (rest : List Char) (n : Nat) : tokens ⟨' ' :: rest, n⟩ = tokens ⟨rest, n⟩ :=
  tokens_of_isBlank (by decide) rest n

theorem tokens_newline (rest : List Char) (n : Nat) :
    tokens ⟨'\n' :: rest, n⟩ = tokens ⟨rest, n + 1⟩ :=
  tokens_of_isBlank (by decide) rest n

/-- A keyword or symbol is cut off as its token. -/
theorem tokens_on {k : Token.Kind} {rest : List Char} (hk : k.spelling ≠ "")
    (he : k.endsBefore rest = true) (n : Nat) :
    tokens ⟨k.spelling.toList ++ rest, n⟩ = prepend [k.on n] (tokens ⟨rest, n⟩) := by
  obtain ⟨hne, hspells⟩ := Token.Kind.spells_spelling hk
  rw [tokens_of_spells hne hspells he, String.ofList_toList]
  rfl

/-- A symbol that no character behind it makes longer is cut off, whatever follows. -/
theorem tokens_symbol {k : Token.Kind} (hk : k ∈ [.lparen, .rparen, .minus, .semicolon])
    (rest : List Char) (n : Nat) :
    tokens ⟨k.spelling.toList ++ rest, n⟩ = prepend [k.on n] (tokens ⟨rest, n⟩) := by
  have hsymbol : k.spelling ≠ "" ∧ ∀ c, k.goesOn c = false := by
    simp only [List.mem_cons, List.not_mem_nil, or_false] at hk
    rcases hk with rfl | rfl | rfl | rfl <;> exact ⟨by decide, fun _ => rfl⟩
  have hends : k.endsBefore rest = true := by
    cases rest with
    | nil => rfl
    | cons c rest => simp [Token.Kind.endsBefore, hsymbol.2 c]
  exact tokens_on hsymbol.1 hends n

/-- A keyword or symbol and a space behind it are cut off as its token. -/
theorem tokens_on_space {k : Token.Kind} (hk : k.spelling ≠ "") (rest : List Char) (n : Nat) :
    tokens ⟨k.spelling.toList ++ ' ' :: rest, n⟩ = prepend [k.on n] (tokens ⟨rest, n⟩) := by
  rw [tokens_on hk (separates_space rest k), tokens_space]

/-- A name is cut off as an identifier. -/
theorem tokens_name {name : String} (h : isIdentifier name.toList = true) (rest : List Char)
    (n : Nat) :
    tokens ⟨name.toList ++ ' ' :: rest, n⟩ = prepend [⟨.ident, name, n⟩] (tokens ⟨rest, n⟩) := by
  rw [tokens_of_spells (k := .ident) (by decide) h (separates_space rest _),
    String.ofList_toList, tokens_space]

/-- A spelled token is cut off as itself. -/
theorem tokens_leaf {t : Token} {rest : List Char} (hk : t.kind ≠ .endOfInput)
    (hs : t.isSpelled = true) (hrest : Separates rest) (n : Nat) :
    tokens ⟨t.text.toList ++ rest, n⟩ = prepend [t.onLine n] (tokens ⟨rest, n⟩) := by
  rw [tokens_of_spells hk hs (hrest t.kind), String.ofList_toList]
  rfl

end Source

open Source in
/-- The text of an expression is cut into its tokens. -/
theorem Expr.tokens_text {e : Expr} (he : e.isPlain = true) {rest : List Char}
    (hrest : Separates rest) (n : Nat) :
    tokens ⟨e.text.toList ++ rest, n⟩ = prepend (e.words n) (tokens ⟨rest, n⟩) := by
  induction e generalizing rest with
  | val name value line => cases he
  | letIn name bound body line ihbound ihbody =>
      simp only [isPlain, Bool.and_eq_true] at he
      obtain ⟨⟨hname, hbound⟩, hbody⟩ := he
      have htext : (letIn name bound body line).text.toList ++ rest =
          Token.Kind.lparen.spelling.toList ++ (Token.Kind.letWord.spelling.toList ++ ' ' ::
            (name.toList ++ ' ' :: (Token.Kind.assign.spelling.toList ++ ' ' ::
              (bound.text.toList ++ ' ' :: (Token.Kind.inWord.spelling.toList ++ ' ' ::
                (body.text.toList ++ (Token.Kind.rparen.spelling.toList ++ rest))))))) := by
        simp [text, Token.Kind.spelling]
      rw [htext, tokens_symbol (by decide), tokens_on_space (by decide),
        tokens_name hname, tokens_on_space (by decide),
        ihbound hbound (separates_space _), tokens_space, tokens_on_space (by decide),
        ihbody hbody (separates_symbol (by decide) _), tokens_symbol (by decide)]
      simp [prepend_prepend, words]
  | binary op left right line ihleft ihright =>
      simp only [isPlain, Bool.and_eq_true] at he
      have hop : op.kind.spelling ≠ "" := by
        rcases op with op | op | op <;> cases op <;> decide
      have htext : (binary op left right line).text.toList ++ rest =
          Token.Kind.lparen.spelling.toList ++ (left.text.toList ++ ' ' ::
            (op.kind.spelling.toList ++ ' ' ::
              (right.text.toList ++ (Token.Kind.rparen.spelling.toList ++ rest)))) := by
        rw [BinaryOp.spelling_kind]
        simp [text, Token.Kind.spelling]
      rw [htext, tokens_symbol (by decide), ihleft he.1 (separates_space _), tokens_space,
        tokens_on_space hop, ihright he.2 (separates_symbol (by decide) _),
        tokens_symbol (by decide)]
      simp [prepend_prepend, words]
  | unary op operand line ih =>
      cases op with
      | neg =>
          have htext : (unary .neg operand line).text.toList ++ rest =
              Token.Kind.lparen.spelling.toList ++ (Token.Kind.minus.spelling.toList ++
                (operand.text.toList ++ (Token.Kind.rparen.spelling.toList ++ rest))) := by
            simp [text, Token.Kind.spelling]
          rw [htext, tokens_symbol (by decide), tokens_symbol (by decide),
            ih he (separates_symbol (by decide) _), tokens_symbol (by decide)]
          simp [prepend_prepend, words, UnaryOp.kind]
      | not =>
          have htext : (unary .not operand line).text.toList ++ rest =
              Token.Kind.lparen.spelling.toList ++ (Token.Kind.notWord.spelling.toList ++ ' ' ::
                (operand.text.toList ++ (Token.Kind.rparen.spelling.toList ++ rest))) := by
            simp [text, Token.Kind.spelling]
          rw [htext, tokens_symbol (by decide), tokens_on_space (by decide),
            ih he (separates_symbol (by decide) _), tokens_symbol (by decide)]
          simp [prepend_prepend, words, UnaryOp.kind]
  | literal t =>
      simp only [isPlain, Bool.and_eq_true, decide_eq_true_eq] at he
      have hk : t.kind ≠ .endOfInput := fun heq => absurd (heq ▸ he.1) (by decide)
      exact tokens_leaf hk he.2 hrest n
  | ident t =>
      simp only [isPlain, Bool.and_eq_true, beq_iff_eq] at he
      have hk : t.kind ≠ .endOfInput := by simp [he.1]
      exact tokens_leaf hk he.2 hrest n

open Source in
/-- The text of a statement is cut into its tokens. -/
theorem Expr.tokens_statement {e : Expr} (he : e.isStatement = true) {rest : List Char}
    (hrest : Separates rest) (n : Nat) :
    tokens ⟨e.text.toList ++ rest, n⟩ = prepend (e.words n) (tokens ⟨rest, n⟩) := by
  cases e with
  | val name value line =>
      simp only [isStatement, Bool.and_eq_true] at he
      have htext : (val name value line).text.toList ++ rest =
          Token.Kind.valWord.spelling.toList ++ ' ' :: (name.toList ++ ' ' ::
            (Token.Kind.assign.spelling.toList ++ ' ' :: (value.text.toList ++ rest))) := by
        simp [text, Token.Kind.spelling]
      rw [htext, tokens_on_space (by decide), tokens_name he.1,
        tokens_on_space (by decide), tokens_text he.2 hrest]
      simp [prepend_prepend, words]
  | letIn | binary | unary | literal | ident => exact tokens_text he hrest n

/-! ### The tokens have a derivation of the tree -/

theorem Expr.line_of_mem_words (e : Expr) (n : Nat) : ∀ t ∈ e.words n, t.line = n := by
  induction e with
  | val name value line ih => grind [words, Token.Kind.on]
  | letIn name bound body line ihbound ihbody => grind [words, Token.Kind.on]
  | binary op left right line ihleft ihright => grind [words, Token.Kind.on]
  | unary op operand line ih => grind [words, Token.Kind.on]
  | literal t => exact List.forall_mem_singleton.mpr rfl
  | ident t => exact List.forall_mem_singleton.mpr rfl

theorem Expr.words_ne_nil (e : Expr) (n : Nat) : e.words n ≠ [] := by
  cases e <;> simp [words]

/-- A tree that is written on a line ends on it. -/
theorem Expr.lastLine_words (e : Expr) (n : Nat) : lastLine (e.words n) = n :=
  lastLine_eq_of_forall (e.words_ne_nil n) (e.line_of_mem_words n)

/-- A binary operator between two factors makes an expression. -/
theorem Derivation.binary_of_factors (op : BinaryOp) {w v : List Token} {k : Token.Kind}
    {e f : Expr} (n : Nat) (left : Derivation .factor w op.kind e)
    (right : Derivation .factor v k f) :
    Derivation .expr (w ++ op.kind.on n :: v) k (.binary op e f (lastLine v)) := by
  rcases op with op | op | op
  · cases op with
    | add | sub =>
        exact expr_of_relation
          (.sum (.grow .term rfl left.sum_of_factor (.product right.product_of_factor)))
    | mul | div | mod =>
        exact expr_of_relation
          (.sum (.single .term (.product (.grow .factor rfl left.product_of_factor right))))
  · cases op with
    | and | or =>
        exact .logical (.grow (.relation false) rfl
          (.single (.relation false) left.relation_of_factor) right.relation_of_factor)
  · cases op with
    | lt | le | gt | ge | eq | ne =>
        exact expr_of_relation (.comparison rfl left.sum_of_factor right.sum_of_factor)

/-- The tokens of an expression have a derivation of it, as a factor, on their line. -/
theorem Expr.derivation_words {e : Expr} (he : e.isPlain = true) (n : Nat) (k : Token.Kind) :
    Derivation .factor (e.words n) k (e.onLine n) := by
  induction e generalizing k with
  | val name value line => cases he
  | letIn name bound body line ihbound ihbody =>
      simp only [isPlain, Bool.and_eq_true] at he
      have hbound := (ihbound he.1.2 .inWord).expr_of_factor
      have hbody := (ihbody he.2 .rparen).expr_of_factor
      have hlet : Derivation .expr (Token.Kind.letWord.on n :: ⟨.ident, name, n⟩ ::
          Token.Kind.assign.on n :: (bound.words n ++ Token.Kind.inWord.on n :: body.words n))
          .rparen (.letIn name (bound.onLine n) (body.onLine n) (lastLine (body.words n))) :=
        .letIn rfl rfl rfl rfl hbound hbody
      have hgroup : Derivation .factor (Token.Kind.lparen.on n :: (_ ++ [Token.Kind.rparen.on n]))
          k _ := .group rfl rfl hlet
      rw [lastLine_words] at hgroup
      simpa [words, onLine, mapLine] using hgroup
  | binary op left right line ihleft ihright =>
      simp only [isPlain, Bool.and_eq_true] at he
      have hright := ihright he.2 .rparen
      have hbinary := Derivation.binary_of_factors op n (ihleft he.1 op.kind) hright
      have hgroup : Derivation .factor (Token.Kind.lparen.on n :: (_ ++ [Token.Kind.rparen.on n]))
          k _ := .group rfl rfl hbinary
      rw [lastLine_words] at hgroup
      simpa [words, onLine, mapLine] using hgroup
  | unary op operand line ih =>
      have hoperand := ih he .rparen
      have hunary : Derivation .expr (op.kind.on n :: operand.words n) .rparen
          (.unary op (operand.onLine n) (lastLine (operand.words n))) := by
        cases op with
        | neg => exact Derivation.expr_of_factor (.sign rfl hoperand)
        | not =>
            have hend : MayEnd false .rparen := .of_separator (by decide)
            exact Derivation.expr_of_relation
              (.sum (.single .term (.negation rfl hoperand.relation_of_factor hend)))
      have hgroup : Derivation .factor (Token.Kind.lparen.on n :: (_ ++ [Token.Kind.rparen.on n]))
          k _ := .group rfl rfl hunary
      rw [lastLine_words] at hgroup
      simpa [words, onLine, mapLine] using hgroup
  | literal t =>
      simp only [isPlain, Bool.and_eq_true, decide_eq_true_eq] at he
      exact .literal he.1
  | ident t =>
      simp only [isPlain, Bool.and_eq_true, beq_iff_eq] at he
      exact .name he.1

/-- The tokens of a statement have a derivation of it on their line. -/
theorem Expr.derivation_statement {e : Expr} (he : e.isStatement = true) (n : Nat)
    (k : Token.Kind) : Derivation .statement (e.words n) k (e.onLine n) := by
  cases e with
  | val name value line =>
      simp only [isStatement, Bool.and_eq_true] at he
      have hvalue := (derivation_words he.2 n k).expr_of_factor
      have hval : Derivation .statement (Token.Kind.valWord.on n :: ⟨.ident, name, n⟩ ::
          Token.Kind.assign.on n :: value.words n) k
          (.val name (value.onLine n) (lastLine (value.words n))) :=
        .val rfl rfl rfl hvalue
      rwa [lastLine_words] at hval
  | letIn | binary | unary | literal | ident => exact .bare (derivation_words he n k).expr_of_factor

/-! ### Programs -/

/-- The tokens that statements are written with: one statement a line, from line `n` on, and a
semicolon behind each. -/
def statementWords (n : Nat) : List Expr → List Token
  | [] => []
  | e :: es => e.words n ++ Token.Kind.semicolon.on n :: statementWords (n + 1) es

/-- Statements on lines of their own, from line `n` on. -/
def numbered (n : Nat) (es : List Expr) : List Expr :=
  es.mapIdx fun k e => e.onLine (k + n)

theorem numbered_cons (n : Nat) (e : Expr) (es : List Expr) :
    numbered n (e :: es) = e.onLine n :: numbered (n + 1) es := by
  simp [numbered, Nat.add_assoc, Nat.add_comm 1]

theorem statementWords_eq_nil {n : Nat} {es : List Expr} : statementWords n es = [] ↔ es = [] := by
  cases es <;> simp [statementWords]

/-- Statements end on the line of the last of them. -/
theorem lastLine_statementWords (n : Nat) (e : Expr) (es : List Expr) :
    lastLine (statementWords n (e :: es)) = n + es.length := by
  induction es generalizing n e with
  | nil => simp [statementWords, lastLine_append, Token.Kind.on]
  | cons f es ih =>
      have hne : statementWords (n + 1) (f :: es) ≠ [] := by simp [statementWords_eq_nil]
      calc
        lastLine (statementWords n (e :: f :: es))
            = lastLine (statementWords (n + 1) (f :: es)) := by
              rw [statementWords, lastLine_append (List.cons_ne_nil _ _), lastLine_cons hne]
        _ = n + 1 + es.length := ih (n + 1) f
        _ = n + (f :: es).length := by simp only [List.length_cons]; omega

/-- The tokens of statements have a derivation of them, each on its line. -/
theorem programDerivation_statementWords {es : List Expr} (hes : ∀ e ∈ es, e.isStatement = true)
    (n : Nat) : ProgramDerivation (statementWords n es) (numbered n es) := by
  induction es generalizing n with
  | nil => exact .nil
  | cons e es ih =>
      obtain ⟨he, hes⟩ := List.forall_mem_cons.mp hes
      rw [numbered_cons]
      exact .cons rfl (e.derivation_statement he n .semicolon) (ih hes (n + 1))

open Source in
/-- The text of statements is cut into their tokens.  No line ends behind the last statement, so the
end token is on its line. -/
theorem tokens_statements {es : List Expr} (hes : ∀ e ∈ es, e.isStatement = true) (n : Nat) :
    (tokens ⟨("\n".intercalate (es.map fun e => e.text ++ ";")).toList, n⟩).1 =
      .ok (statementWords n es ++ [Token.endAt (n + (es.length - 1))]) := by
  induction es generalizing n with
  | nil => simp [tokens_nil, statementWords]
  | cons e es ih =>
      obtain ⟨he, hes⟩ := List.forall_mem_cons.mp hes
      cases es with
      | nil =>
          have htext : ("\n".intercalate ([e].map fun e => e.text ++ ";")).toList =
              e.text.toList ++ (Token.Kind.semicolon.spelling.toList ++ []) := by
            simp [Token.Kind.spelling]
          rw [htext, e.tokens_statement he (separates_symbol (by decide) _),
            tokens_symbol (by decide), tokens_nil, prepend_prepend]
          rfl
      | cons f es =>
          have htext : ("\n".intercalate ((e :: f :: es).map fun e => e.text ++ ";")).toList =
              e.text.toList ++ (Token.Kind.semicolon.spelling.toList ++ '\n' ::
                ("\n".intercalate ((f :: es).map fun e => e.text ++ ";")).toList) := by
            simp [Token.Kind.spelling]
          have hothers := ih hes (n + 1)
          have hend : n + 1 + ((f :: es).length - 1) = n + ((e :: f :: es).length - 1) := by
            simp only [List.length_cons]
            omega
          rw [hend] at hothers
          rw [htext, e.tokens_statement he (separates_symbol (by decide) _),
            tokens_symbol (by decide), tokens_newline, prepend_prepend]
          exact prepend_eq_ok.mpr ⟨_, hothers, by simp [statementWords]⟩

/-- **Reading undoes writing.**  The text of a well-formed program is read as the same statements,
the `k`-th of them on line `k`; the program ends on the line of its last statement, or on line 1 if
it has none. -/
theorem parse_text (p : Program) (hp : p.isWellFormed = true) :
    parse p.text =
      .ok ⟨p.statements.mapIdx fun k e => e.onLine (k + 1), max 1 p.statements.length⟩ := by
  have hes : ∀ e ∈ p.statements, e.isStatement = true := List.all_eq_true.mp hp
  refine parse_ok_iff.mpr ⟨statementWords 1 p.statements, 1 + (p.statements.length - 1),
    tokens_statements hes 1, programDerivation_statementWords hes 1, ?_⟩
  cases p.statements with
  | nil => rfl
  | cons e es =>
      rw [if_neg (by simp [statementWords_eq_nil]), lastLine_statementWords]
      show max 1 (es.length + 1) = 1 + es.length
      omega

/-- A numeral without a whole part behind a sign, a sign behind a sign, and a comparison in the body
of a `let` below a `not`, with lines all over the place. -/
theorem parse_text_nested :
    parse (Program.text
      ⟨[.val "x" (.unary .neg (.literal ⟨.realLit, ".5", 0⟩) 4) 7,
        .unary .not (.letIn "y" (.ident ⟨.ident, "x", 9⟩)
          (.binary (.compare .le) (.unary .neg (.unary .neg (.ident ⟨.ident, "y", 2⟩) 2) 6)
            (.literal ⟨.intLit, "007", 5⟩) 5) 3) 8], 40⟩) =
      .ok ⟨[.val "x" (.unary .neg (.literal ⟨.realLit, ".5", 1⟩) 1) 1,
        .unary .not (.letIn "y" (.ident ⟨.ident, "x", 2⟩)
          (.binary (.compare .le) (.unary .neg (.unary .neg (.ident ⟨.ident, "y", 2⟩) 2) 2)
            (.literal ⟨.intLit, "007", 2⟩) 2) 2) 2], 2⟩ :=
  parse_text _ (by decide)

end LetCalc
