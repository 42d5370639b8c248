import LetCalc.Proofs.RoundTrip

/-!
# Trees as they are written

A tree does not show how it was written: redundant parentheses are lost.  A **writing** is a tree
that still has all its tokens, with a node for each pair of parentheses.  So it says of every node
which tokens are the node's own text.  Parentheses that stand around a node are not part of it;
those around a part of it are.

Main statements: what has a derivation has a writing (`Derivation.exists_writing`), and only one: a
tree can be found in some tokens in one way (`Writing.Agree.unique`).
-/

namespace LetCalc

/-! ### Writings -/

/-- Expressions with all the tokens that they are written with. -/
inductive Writing where
  | val (word name assign : Token) (value : Writing)
  | letIn (word name assign : Token) (bound : Writing) (sep : Token) (body : Writing)
  | binary (op : BinaryOp) (left : Writing) (sign : Token) (right : Writing)
  | unary (op : UnaryOp) (sign : Token) (operand : Writing)
  | literal (token : Token)
  | ident (token : Token)
  /-- A pair of parentheses, and what stands between them. -/
  | group (opening : Token) (inner : Writing) (closing : Token)

namespace Writing

/-- The tokens of a writing in order: the **own text** of its node, unless it is a group. -/
def tokens : Writing → List Token
  | val word name assign value => word :: name :: assign :: value.tokens
  | letIn word name assign bound sep body =>
    word :: name :: assign :: (bound.tokens ++ sep :: body.tokens)
  | binary _ left sign right => left.tokens ++ sign :: right.tokens
  | unary _ sign operand => sign :: operand.tokens
  | literal token => [token]
  | ident token => [token]
  | group opening inner closing => opening :: (inner.tokens ++ [closing])

/-- The tree that is written.  Parentheses leave no node in it, and an inner node is on the line of
the last token of its own text. -/
def tree : Writing → Expr
  | val word name assign value =>
    .val name.text value.tree (lastLine (val word name assign value).tokens)
  | letIn word name assign bound sep body =>
    .letIn name.text bound.tree body.tree
      (lastLine (letIn word name assign bound sep body).tokens)
  | binary op left sign right =>
    .binary op left.tree right.tree (lastLine (binary op left sign right).tokens)
  | unary op sign operand => .unary op operand.tree (lastLine (unary op sign operand).tokens)
  | literal token => .literal token
  | ident token => .ident token
  | group _ inner _ => inner.tree

/-- Each token has the kind that its place asks for. -/
def IsProper : Writing → Prop
  | val word name assign value =>
    word.kind = .valWord ∧ name.kind = .ident ∧ assign.kind = .assign ∧ value.IsProper
  | letIn word name assign bound sep body =>
    word.kind = .letWord ∧ name.kind = .ident ∧ assign.kind = .assign ∧ bound.IsProper ∧
      sep.kind = .inWord ∧ body.IsProper
  | binary op left sign right => left.IsProper ∧ sign.kind = op.kind ∧ right.IsProper
  | unary op sign operand => sign.kind = op.kind ∧ operand.IsProper
  | literal token => token.kind ∈ Token.Kind.literals
  | ident token => token.kind = .ident
  | group opening inner closing =>
    opening.kind = .lparen ∧ inner.IsProper ∧ closing.kind = .rparen

/-- Something is written for every node. -/
theorem tokens_ne_nil (x : Writing) : x.tokens ≠ [] := by
  cases x <;> simp [tokens]

end Writing

/-! ### What has a derivation has a writing -/

/-- The token of an operator is of the operator's kind. -/
theorem Level.kind_eq_of_operator? {l : Level} {k : Token.Kind} {o : BinaryOp}
    (h : l.operator? k = some o) : k = o.kind := by
  cases l <;> cases k <;> cases h <;> rfl

/-- So is the token of a comparison. -/
theorem Comparison.kind_eq_of_ofKind? {k : Token.Kind} {o : Comparison}
    (h : Comparison.ofKind? k = some o) : k = (BinaryOp.compare o).kind := by
  cases k <;> cases h <;> rfl

/-- What stands in front does not change the last line. -/
theorem lastLine_append_cons (w : List Token) (t : Token) {v : List Token} (hv : v ≠ []) :
    lastLine (w ++ t :: v) = lastLine v := by
  rw [lastLine_append (List.cons_ne_nil t v), lastLine_cons hv]

/-- The tokens of a derivation make up a writing of its tree. -/
theorem Derivation.exists_writing {p : Phrase} {w : List Token} {k : Token.Kind} {e : Expr}
    (h : Derivation p w k e) : ∃ x : Writing, x.IsProper ∧ x.tokens = w ∧ x.tree = e := by
  induction h with
  | @val word name assign w k e hword hname hassign value ih =>
      obtain ⟨x, hx, rfl, rfl⟩ := ih
      refine ⟨.val word name assign x, ⟨hword, hname, hassign, hx⟩, rfl, ?_⟩
      rw [Writing.tree, Writing.tokens, ← lastLine_append_cons [word, name] assign x.tokens_ne_nil]
      rfl
  | bare whole ih => exact ih
  | @letIn word name assign sep w v k e f hword hname hassign hsep bound body ihbound ihbody =>
      obtain ⟨x, hx, rfl, rfl⟩ := ihbound
      obtain ⟨y, hy, rfl, rfl⟩ := ihbody
      refine ⟨.letIn word name assign x sep y, ⟨hword, hname, hassign, hx, hsep, hy⟩, rfl, ?_⟩
      rw [Writing.tree, Writing.tokens,
        ← lastLine_append_cons (word :: name :: assign :: x.tokens) sep y.tokens_ne_nil]
      rfl
  | logical whole ih => exact ih
  | single hp whole ih => exact ih
  | @grow l q op o w v k e f hp hop left right ihleft ihright =>
      obtain ⟨x, hx, rfl, rfl⟩ := ihleft
      obtain ⟨y, hy, rfl, rfl⟩ := ihright
      refine ⟨.binary o x op y, ⟨hx, Level.kind_eq_of_operator? hop, hy⟩, rfl, ?_⟩
      rw [Writing.tree, Writing.tokens, lastLine_append_cons x.tokens op y.tokens_ne_nil]
  | sum whole ih => exact ih
  | @comparison op o w v k e f hop left right ihleft ihright =>
      obtain ⟨x, hx, rfl, rfl⟩ := ihleft
      obtain ⟨y, hy, rfl, rfl⟩ := ihright
      refine ⟨.binary (.compare o) x op y, ⟨hx, Comparison.kind_eq_of_ofKind? hop, hy⟩, rfl, ?_⟩
      rw [Writing.tree, Writing.tokens, lastLine_append_cons x.tokens op y.tokens_ne_nil]
  | @negation word compared w k e hword operand hend ih =>
      obtain ⟨x, hx, rfl, rfl⟩ := ih
      refine ⟨.unary .not word x, ⟨hword, hx⟩, rfl, ?_⟩
      rw [Writing.tree, Writing.tokens, lastLine_cons x.tokens_ne_nil]
  | product whole ih => exact ih
  | @sign op w k e hop operand ih =>
      obtain ⟨x, hx, rfl, rfl⟩ := ih
      refine ⟨.unary .neg op x, ⟨hop, hx⟩, rfl, ?_⟩
      rw [Writing.tree, Writing.tokens, lastLine_cons x.tokens_ne_nil]
  | @group opening closing w k e hopening hclosing inner ih =>
      obtain ⟨x, hx, rfl, rfl⟩ := ih
      exact ⟨.group opening x closing, ⟨hopening, hx, hclosing⟩, rfl, rfl⟩
  | @literal t k ht => exact ⟨.literal t, ht, rfl, rfl⟩
  | @name t k ht => exact ⟨.ident t, ht, rfl, rfl⟩

/-! ### Parentheses -/

/-- How many parentheses are open behind some tokens, if `n` are before them.  There is no answer if
one is closed that has not been opened. -/
def parensOpen : Nat → List Token → Option Nat
  | n, [] => some n
  | n, t :: w =>
    if t.kind = .lparen then parensOpen (n + 1) w
    else if t.kind = .rparen then
      if n = 0 then none else parensOpen (n - 1) w
    else parensOpen n w

/-- A parenthesis opens one more. -/
theorem parensOpen_lparen {t : Token} (ht : t.kind = .lparen) (n : Nat) (w : List Token) :
    parensOpen n (t :: w) = parensOpen (n + 1) w := by
  rw [parensOpen, if_pos ht]

/-- A closing parenthesis closes one. -/
theorem parensOpen_rparen {t : Token} (ht : t.kind = .rparen) (n : Nat) (w : List Token) :
    parensOpen (n + 1) (t :: w) = parensOpen n w := by
  rw [parensOpen, if_neg (by rw [ht]; decide), if_pos ht, if_neg (Nat.succ_ne_zero n),
    Nat.add_sub_cancel]

/-- All other tokens leave the count as it is. -/
theorem parensOpen_word {t : Token} (hl : t.kind ≠ .lparen) (hr : t.kind ≠ .rparen) (n : Nat)
    (w : List Token) : parensOpen n (t :: w) = parensOpen n w := by
  rw [parensOpen, if_neg hl, if_neg hr]

/-- Before other tokens, there has to be an answer for the first ones. -/
theorem exists_parensOpen {n m : Nat} {u v : List Token} (h : parensOpen n (u ++ v) = some m) :
    ∃ k, parensOpen n u = some k := by
  induction u generalizing n with
  | nil => exact ⟨n, rfl⟩
  | cons t u ih =>
      rw [List.cons_append] at h
      by_cases hl : t.kind = .lparen
      · rw [parensOpen_lparen hl] at h ⊢
        exact ih h
      · by_cases hr : t.kind = .rparen
        · cases n with
          | zero =>
              rw [parensOpen, if_neg hl, if_pos hr, if_pos rfl] at h
              cases h
          | succ n =>
              rw [parensOpen_rparen hr] at h ⊢
              exact ih h
        · rw [parensOpen_word hl hr] at h ⊢
          exact ih h

/-- One more that is open before is one more that is open behind. -/
theorem parensOpen_succ {n m : Nat} {u : List Token} (h : parensOpen n u = some m) :
    parensOpen (n + 1) u = some (m + 1) := by
  induction u generalizing n with
  | nil =>
      cases h
      rfl
  | cons t u ih =>
      by_cases hl : t.kind = .lparen
      · rw [parensOpen_lparen hl] at h ⊢
        exact ih h
      · by_cases hr : t.kind = .rparen
        · cases n with
          | zero =>
              rw [parensOpen, if_neg hl, if_pos hr, if_pos rfl] at h
              cases h
          | succ n =>
              rw [parensOpen_rparen hr] at h ⊢
              exact ih h
        · rw [parensOpen_word hl hr] at h ⊢
          exact ih h

/-! ### A tree is found in some tokens in one way -/

/-- How many tokens a tree is written with, parentheses not counted. -/
def Expr.wordCount : Expr → Nat
  | val _ value _ => value.wordCount + 3
  | letIn _ bound body _ => bound.wordCount + body.wordCount + 4
  | binary _ left right _ => left.wordCount + right.wordCount + 1
  | unary _ operand _ => operand.wordCount + 1
  | literal _ => 1
  | ident _ => 1

/-- Lines have no part in the number of words. -/
theorem Expr.wordCount_onLine (n : Nat) (e : Expr) : (e.onLine n).wordCount = e.wordCount := by
  unfold onLine
  induction e <;> simp_all [mapLine, wordCount]

/-- Whether a token is no parenthesis. -/
def Token.isWord (t : Token) : Bool :=
  t.kind ≠ .lparen && t.kind ≠ .rparen

/-- The words are the tokens that are no parentheses. -/
theorem Token.isWord_iff {t : Token} :
    t.isWord = true ↔ t.kind ≠ .lparen ∧ t.kind ≠ .rparen := by
  simp [isWord]

/-- Operators are no parentheses. -/
theorem BinaryOp.kind_ne_paren (op : BinaryOp) : op.kind ≠ .lparen ∧ op.kind ≠ .rparen := by
  rcases op with op | op | op <;> cases op <;> decide

theorem UnaryOp.kind_ne_paren (op : UnaryOp) : op.kind ≠ .lparen ∧ op.kind ≠ .rparen := by
  cases op <;> decide

theorem Token.Kind.ne_paren_of_mem_literals {k : Token.Kind} (hk : k ∈ literals) :
    k ≠ .lparen ∧ k ≠ .rparen := by
  revert k
  decide

namespace Writing

/-- A writing closes the parentheses that it opens, and no other. -/
theorem parensOpen_tokens {x : Writing} (hx : x.IsProper) (n : Nat) (rest : List Token) :
    parensOpen n (x.tokens ++ rest) = parensOpen n rest := by
  induction x generalizing n rest with
  | val word name assign value ih =>
      obtain ⟨hword, hname, hassign, hvalue⟩ := hx
      simp [tokens, parensOpen, hword, hname, hassign, ih hvalue]
  | letIn word name assign bound sep body ihbound ihbody =>
      obtain ⟨hword, hname, hassign, hbound, hsep, hbody⟩ := hx
      simp [tokens, parensOpen, hword, hname, hassign, hsep, ihbound hbound, ihbody hbody]
  | binary op left sign right ihleft ihright =>
      obtain ⟨hleft, hsign, hright⟩ := hx
      obtain ⟨hl, hr⟩ := op.kind_ne_paren
      simp [tokens, parensOpen, hsign, hl, hr, ihleft hleft, ihright hright]
  | unary op sign operand ih =>
      obtain ⟨hsign, hoperand⟩ := hx
      obtain ⟨hl, hr⟩ := op.kind_ne_paren
      simp [tokens, parensOpen, hsign, hl, hr, ih hoperand]
  | literal token =>
      obtain ⟨hl, hr⟩ := Token.Kind.ne_paren_of_mem_literals hx
      exact parensOpen_word hl hr n rest
  | ident token =>
      have hkind : token.kind = .ident := hx
      exact parensOpen_word (by rw [hkind]; decide) (by rw [hkind]; decide) n rest
  | group opening inner closing ih =>
      obtain ⟨hopening, hinner, hclosing⟩ := hx
      rw [tokens, List.cons_append, List.append_assoc, parensOpen_lparen hopening, ih hinner]
      exact parensOpen_rparen hclosing n rest

/-- A writing has as many tokens, parentheses not counted, as its tree. -/
theorem countP_tokens {x : Writing} (hx : x.IsProper) :
    x.tokens.countP Token.isWord = x.tree.wordCount := by
  induction x with
  | val word name assign value ih =>
      obtain ⟨hword, hname, hassign, hvalue⟩ := hx
      simp [tokens, tree, Expr.wordCount, Token.isWord, hword, hname, hassign, ← ih hvalue]
  | letIn word name assign bound sep body ihbound ihbody =>
      obtain ⟨hword, hname, hassign, hbound, hsep, hbody⟩ := hx
      simp [tokens, tree, Expr.wordCount, Token.isWord, hword, hname, hassign, hsep,
        ← ihbound hbound, ← ihbody hbody]
      omega
  | binary op left sign right ihleft ihright =>
      obtain ⟨hleft, hsign, hright⟩ := hx
      have hword : sign.isWord = true := Token.isWord_iff.mpr (hsign ▸ op.kind_ne_paren)
      rw [tokens, tree, Expr.wordCount, List.countP_append, List.countP_cons_of_pos hword,
        ihleft hleft, ihright hright, Nat.add_assoc]
  | unary op sign operand ih =>
      obtain ⟨hsign, hoperand⟩ := hx
      have hword : sign.isWord = true := Token.isWord_iff.mpr (hsign ▸ op.kind_ne_paren)
      rw [tokens, tree, Expr.wordCount, List.countP_cons_of_pos hword, ih hoperand]
  | literal token =>
      have hword : token.isWord = true :=
        Token.isWord_iff.mpr (Token.Kind.ne_paren_of_mem_literals hx)
      simp [tokens, tree, Expr.wordCount, hword]
  | ident token =>
      have hkind : token.kind = .ident := hx
      simp [tokens, tree, Expr.wordCount, Token.isWord, hkind]
  | group opening inner closing ih =>
      obtain ⟨hopening, hinner, hclosing⟩ := hx
      simp [tokens, tree, Token.isWord, hopening, hclosing, ← ih hinner]

/-- Two writings stand at the start of the same tokens, and their trees are the same, lines
apart. -/
structure Agree (x y : Writing) (rest rest' : List Token) : Prop where
  left_proper : x.IsProper
  right_proper : y.IsProper
  tokens_eq : x.tokens ++ rest = y.tokens ++ rest'
  tree_eq : x.tree.onLine 0 = y.tree.onLine 0

namespace Agree

variable {x y : Writing} {rest rest' : List Token}

theorem symm (h : Agree x y rest rest') : Agree y x rest' rest :=
  ⟨h.right_proper, h.left_proper, h.tokens_eq.symm, h.tree_eq.symm⟩

/-- Writings that agree have as many words. -/
theorem wordCount_eq (h : Agree x y rest rest') : x.tree.wordCount = y.tree.wordCount := by
  rw [← Expr.wordCount_onLine 0, h.tree_eq, Expr.wordCount_onLine]

end Agree

/-- The tokens of one writing are no start of those of a group, unless they are all of them: the
first parenthesis of the group is open until its last token. -/
theorem eq_nil_of_group {x inner : Writing} {opening closing : Token} {rest : List Token}
    (hx : x.IsProper) (hgroup : (group opening inner closing).IsProper)
    (h : (group opening inner closing).tokens = x.tokens ++ rest) : rest = [] := by
  obtain ⟨hopening, hinner, -⟩ := hgroup
  rcases List.eq_nil_or_concat rest with hnil | ⟨before, last, hrest⟩
  · exact hnil
  · obtain ⟨t, u, hu⟩ := List.exists_cons_of_ne_nil x.tokens_ne_nil
    rw [hrest, List.concat_eq_append, hu, tokens, List.cons_append] at h
    obtain ⟨rfl, htail⟩ := List.cons.inj h
    rw [← List.append_assoc] at htail
    obtain ⟨hbetween, -⟩ := List.append_inj' htail rfl
    -- what lies between the parentheses starts with `u`, so it is balanced up to the end of `u`
    have hall : parensOpen 0 (u ++ before) = some 0 := by
      rw [← hbetween, ← List.append_nil inner.tokens, parensOpen_tokens hinner]
      rfl
    obtain ⟨k, hk⟩ := exists_parensOpen hall
    have hopen : parensOpen 0 x.tokens = some (k + 1) := by
      rw [hu, parensOpen_lparen hopening, parensOpen_succ hk]
    have hclosed : parensOpen 0 x.tokens = some 0 := by
      rw [← List.append_nil x.tokens, parensOpen_tokens hx]
      rfl
    rw [hclosed] at hopen
    cases hopen

/-- Where a group is written no binary node with the same tree is.  The left part of the node has
fewer words than the group, and so it would end within it. -/
theorem not_agree_binary {opening closing sign : Token} {inner left right : Writing} {op : BinaryOp}
    {rest rest' : List Token} :
    ¬ Agree (group opening inner closing) (binary op left sign right) rest rest' := by
  intro h
  have hwords : (group opening inner closing).tree.wordCount =
      left.tree.wordCount + right.tree.wordCount + 1 := h.wordCount_eq
  have hleft : left.IsProper := h.right_proper.1
  have htokens : (group opening inner closing).tokens ++ rest =
      left.tokens ++ (sign :: right.tokens ++ rest') := by
    rw [← List.append_assoc]
    exact h.tokens_eq
  have hle : (group opening inner closing).tree.wordCount ≤ left.tree.wordCount := by
    rw [← countP_tokens h.left_proper, ← countP_tokens hleft]
    rcases List.append_eq_append_iff.mp htokens with ⟨more, hmore, -⟩ | ⟨more, hmore, -⟩
    · rw [hmore, List.countP_append]
      exact Nat.le_add_right _ _
    · rw [eq_nil_of_group hleft h.left_proper hmore, List.append_nil] at hmore
      exact Nat.le_of_eq (congrArg (List.countP Token.isWord) hmore)
  omega

/-- Whether a writing is in parentheses. -/
def isGroup : Writing → Bool
  | group _ _ _ => true
  | _ => false

namespace Agree

variable {x y inner : Writing} {opening closing : Token} {rest rest' : List Token}

/-- If one of two writings that agree is a group, the other one starts with a parenthesis too. -/
theorem kind_head {t : Token} {w : List Token}
    (h : Agree (group opening inner closing) y rest rest')
    (hy : y.tokens = t :: w) : t.kind = .lparen := by
  have htokens := h.tokens_eq
  rw [hy] at htokens
  obtain ⟨rfl, -⟩ := List.cons.inj htokens
  exact h.left_proper.1

/-- Where a group is written only a group is: what else starts with a parenthesis is binary. -/
theorem isGroup_right (h : Agree (group opening inner closing) y rest rest') :
    y.isGroup = true := by
  cases y with
  | group => rfl
  | binary => exact absurd h not_agree_binary
  | val word name assign value =>
      have hkind := h.kind_head rfl
      rw [h.right_proper.1] at hkind
      cases hkind
  | letIn word name assign bound sep body =>
      have hkind := h.kind_head rfl
      rw [h.right_proper.1] at hkind
      cases hkind
  | unary op sign operand =>
      have hkind := h.kind_head rfl
      rw [h.right_proper.1] at hkind
      exact absurd hkind op.kind_ne_paren.1
  | literal token =>
      exact absurd (h.kind_head rfl) (Token.Kind.ne_paren_of_mem_literals h.right_proper).1
  | ident token =>
      have hkind : token.kind = .ident := h.right_proper
      rw [h.kind_head rfl] at hkind
      cases hkind

/-- If one of two writings that agree is a group, so is the other. -/
theorem isGroup_eq (h : Agree x y rest rest') : x.isGroup = y.isGroup := by
  rw [Bool.eq_iff_iff]
  constructor
  · intro hx
    cases x with
    | group opening inner closing => exact h.isGroup_right
    | _ => cases hx
  · intro hy
    cases y with
    | group opening inner closing => exact h.symm.isGroup_right
    | _ => cases hy

/-- **A tree is found in one way.**  In given tokens there is one writing of a tree, lines apart. -/
theorem unique (h : Agree x y rest rest') : x = y ∧ rest = rest' := by
  -- in each case `y` is a group if `x` is one, and otherwise it has a node of the same kind
  induction x generalizing y rest rest' with
  | val word name assign value ih =>
      cases y with
      | val word' name' assign' value' =>
          obtain ⟨⟨-, -, -, hx⟩, ⟨-, -, -, hy⟩, htokens, htree⟩ := h
          simp only [tokens, List.cons_append, List.cons.injEq] at htokens
          obtain ⟨rfl, rfl, rfl, hvalue⟩ := htokens
          obtain ⟨rfl, rfl⟩ := ih ⟨hx, hy, hvalue, (Expr.val.inj htree).2.1⟩
          exact ⟨rfl, rfl⟩
      | group => cases h.isGroup_eq
      | _ => cases h.tree_eq
  | letIn word name assign bound sep body ihbound ihbody =>
      cases y with
      | letIn word' name' assign' bound' sep' body' =>
          obtain ⟨⟨-, -, -, hx, -, hx'⟩, ⟨-, -, -, hy, -, hy'⟩, htokens, htree⟩ := h
          obtain ⟨-, hbounds, hbodies, -⟩ := Expr.letIn.inj htree
          simp only [tokens, List.cons_append, List.append_assoc, List.cons.injEq] at htokens
          obtain ⟨rfl, rfl, rfl, hbound⟩ := htokens
          obtain ⟨rfl, hsep⟩ := ihbound ⟨hx, hy, hbound, hbounds⟩
          obtain ⟨rfl, hbody⟩ := List.cons.inj hsep
          obtain ⟨rfl, rfl⟩ := ihbody ⟨hx', hy', hbody, hbodies⟩
          exact ⟨rfl, rfl⟩
      | group => cases h.isGroup_eq
      | _ => cases h.tree_eq
  | binary op left sign right ihleft ihright =>
      cases y with
      | binary op' left' sign' right' =>
          obtain ⟨⟨hx, -, hx'⟩, ⟨hy, -, hy'⟩, htokens, htree⟩ := h
          obtain ⟨rfl, hlefts, hrights, -⟩ := Expr.binary.inj htree
          simp only [tokens, List.append_assoc] at htokens
          obtain ⟨rfl, hsign⟩ := ihleft ⟨hx, hy, htokens, hlefts⟩
          obtain ⟨rfl, hright⟩ := List.cons.inj hsign
          obtain ⟨rfl, rfl⟩ := ihright ⟨hx', hy', hright, hrights⟩
          exact ⟨rfl, rfl⟩
      | group => cases h.isGroup_eq
      | _ => cases h.tree_eq
  | unary op sign operand ih =>
      cases y with
      | unary op' sign' operand' =>
          obtain ⟨⟨-, hx⟩, ⟨-, hy⟩, htokens, htree⟩ := h
          obtain ⟨rfl, hoperands, -⟩ := Expr.unary.inj htree
          obtain ⟨rfl, hoperand⟩ := List.cons.inj htokens
          obtain ⟨rfl, rfl⟩ := ih ⟨hx, hy, hoperand, hoperands⟩
          exact ⟨rfl, rfl⟩
      | group => cases h.isGroup_eq
      | _ => cases h.tree_eq
  | literal token =>
      cases y with
      | literal token' =>
          obtain ⟨rfl, rfl⟩ := List.cons.inj h.tokens_eq
          exact ⟨rfl, rfl⟩
      | group => cases h.isGroup_eq
      | _ => cases h.tree_eq
  | ident token =>
      cases y with
      | ident token' =>
          obtain ⟨rfl, rfl⟩ := List.cons.inj h.tokens_eq
          exact ⟨rfl, rfl⟩
      | group => cases h.isGroup_eq
      | _ => cases h.tree_eq
  | group opening inner closing ih =>
      cases y with
      | group opening' inner' closing' =>
          obtain ⟨⟨-, hx, -⟩, ⟨-, hy, -⟩, htokens, htree⟩ := h
          simp only [tokens, List.cons_append, List.append_assoc] at htokens
          obtain ⟨rfl, hinner⟩ := List.cons.inj htokens
          obtain ⟨rfl, hclosing⟩ := ih ⟨hx, hy, hinner, htree⟩
          obtain ⟨rfl, rfl⟩ := List.cons.inj hclosing
          exact ⟨rfl, rfl⟩
      | _ => cases h.isGroup_eq

end Agree

end Writing

end LetCalc
