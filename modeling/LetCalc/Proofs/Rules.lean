import LetCalc.Proofs.Derivation

/-!
# The rules of the reader, one by one

A cursor **passes** tokens on its way to another place, and a rule **yields** a tree and a cursor if
it succeeds with them.  For each rule one lemma says exactly when it does (`yields_expr`,
`yields_tower`, and so on), in terms of the tokens passed and of what the rules called yield.
Nothing later unfolds a rule.
-/

namespace LetCalc

namespace Cursor

/-! ### Moving over tokens -/

/-- A cursor gets from one place to another over the tokens `w`. -/
structure Passes (c : Cursor) (w : List Token) (c' : Cursor) : Prop where
  ahead : c.ahead = w ++ c'.ahead
  passed : c'.passed = w.reverse ++ c.passed
  closing : c'.closing = c.closing

/-- Cursors are equal if their tokens are. -/
theorem ext_tokens {c c' : Cursor} (hpassed : c.passed = c'.passed) (hahead : c.ahead = c'.ahead)
    (hclosing : c.closing = c'.closing) : c = c' := by
  cases c
  cases c'
  simp_all

namespace Passes

variable {c c₁ c₂ : Cursor} {w v : List Token} {t : Token}

theorem refl (c : Cursor) : c.Passes [] c :=
  ⟨rfl, rfl, rfl⟩

/-- Tokens passed one after the other are passed together. -/
theorem trans (h₁ : c.Passes w c₁) (h₂ : c₁.Passes v c₂) : c.Passes (w ++ v) c₂ where
  ahead := by rw [h₁.ahead, h₂.ahead, List.append_assoc]
  passed := by rw [h₂.passed, h₁.passed, List.reverse_append, List.append_assoc]
  closing := h₂.closing.trans h₁.closing

/-- The tokens passed settle where a cursor gets to. -/
theorem unique (h₁ : c.Passes w c₁) (h₂ : c.Passes w c₂) : c₁ = c₂ := by
  apply ext_tokens
  · rw [h₁.passed, h₂.passed]
  · exact List.append_cancel_left (h₁.ahead.symm.trans h₂.ahead)
  · rw [h₁.closing, h₂.closing]

/-- Halfway over some tokens there is a place too. -/
theorem split (h : c.Passes (w ++ v) c₂) : ∃ c₁, c.Passes w c₁ ∧ c₁.Passes v c₂ := by
  refine ⟨⟨w.reverse ++ c.passed, v ++ c₂.ahead, c.closing, c.closing_kind⟩, ?_, ?_⟩
  · exact ⟨by rw [h.ahead, List.append_assoc], rfl, rfl⟩
  · exact ⟨rfl, by rw [h.passed, List.reverse_append, List.append_assoc], h.closing⟩

/-- A step off a token that is no end token passes that token. -/
theorem advance (h : c.peek.kind ≠ .endOfInput) : c.Passes [c.peek] c.advance := by
  obtain ⟨passed, ahead, closing, hclosing⟩ := c
  cases ahead with
  | nil => exact absurd hclosing h
  | cons t ts =>
      have ht : t.kind ≠ .endOfInput := h
      simp only [Cursor.advance, ht, if_false]
      exact ⟨rfl, rfl, rfl⟩

/-- Passing some tokens starts with a step off the first one. -/
theorem uncons (h : c.Passes (t :: w) c₂) (ht : t.kind ≠ .endOfInput) :
    c.peek = t ∧ c.advance.Passes w c₂ := by
  have hpeek : c.peek = t := by simp [peek, h.ahead]
  refine ⟨hpeek, ?_⟩
  obtain ⟨c₁, hfirst, hrest⟩ := Passes.split (w := [t]) h
  have hstep : c.Passes [t] c.advance := by
    rw [← hpeek]
    exact Passes.advance (hpeek ▸ ht)
  rwa [hstep.unique hfirst]

/-- A step off a token is the same as passing it. -/
theorem one_iff (ht : t.kind ≠ .endOfInput) : c.Passes [t] c₁ ↔ c.peek = t ∧ c.advance = c₁ := by
  constructor
  · intro h
    obtain ⟨hpeek, hrest⟩ := h.uncons ht
    exact ⟨hpeek, (refl c.advance).unique hrest⟩
  · intro hy
    obtain ⟨rfl, rfl⟩ := hy
    exact advance ht

/-- Passing tokens one by one. -/
theorem cons_iff : c.Passes (t :: w) c₂ ↔ ∃ c₁, c.Passes [t] c₁ ∧ c₁.Passes w c₂ := by
  constructor
  · exact fun h => split (w := [t]) h
  · intro hy
    obtain ⟨c₁, hfirst, hrest⟩ := hy
    exact hfirst.trans hrest

/-- The first token passed is the one under the cursor. -/
theorem peek_eq (h : c.Passes (t :: w) c₂) : c.peek = t := by
  simp [peek, h.ahead]

/-- Passing tokens leaves fewer ahead. -/
theorem remaining_lt (h : c.Passes (t :: w) c₂) : c₂.remaining < c.remaining := by
  have hlen := congrArg List.length h.ahead
  simp only [List.length_append, List.length_cons] at hlen
  simp only [remaining]
  omega

/-- Behind some tokens, the last line is theirs. -/
theorem lastLine_eq (h : c.Passes w c₂) (hw : w ≠ []) : c₂.lastLine = LetCalc.lastLine w := by
  rw [Cursor.lastLine, h.passed, LetCalc.lastLine, List.headD_eq_head?_getD, List.head?_append,
    List.head?_reverse, List.getLast?_eq_some_getLast hw]
  rfl

end Passes

/-! ### When a rule succeeds -/

/-- A rule succeeds with a value, and with a cursor behind it. -/
def Yields {α : Type} {n : Nat} (r : Except Stop (Parsed α n)) (a : α) (c : Cursor) : Prop :=
  ∃ h : c.remaining < n, r = .ok ⟨a, c, h⟩

section Yields

variable {α β : Type} {m n : Nat} {a a' : α} {b : β} {c c' : Cursor}

/-- A rule that succeeds has come closer to the end. -/
theorem Yields.within {r : Except Stop (Parsed α n)} (h : Yields r a c) : c.remaining < n :=
  h.1

/-- A rule that has read something yields that, and nothing else. -/
theorem yields_ok {h : c'.remaining < n} :
    Yields (.ok ⟨a, c', h⟩ : Except Stop (Parsed α n)) a' c ↔ a = a' ∧ c' = c := by
  constructor
  · intro hy
    obtain ⟨_, h⟩ := hy
    cases h
    exact ⟨rfl, rfl⟩
  · intro hy
    obtain ⟨rfl, rfl⟩ := hy
    exact ⟨h, rfl⟩

/-- The same for what a rule returns at its end. -/
theorem yields_pure {h : c'.remaining < n} :
    Yields (pure ⟨a, c', h⟩ : Except Stop (Parsed α n)) a' c ↔ a = a' ∧ c' = c :=
  yields_ok

/-- A rule that has failed yields nothing. -/
theorem not_yields_error {s : Stop} : ¬ Yields (.error s : Except Stop (Parsed α n)) a c := by
  intro hy
  obtain ⟨_, h⟩ := hy
  cases h

/-- Two rules in a row succeed if the first one does and the second one then does. -/
theorem yields_bind {r : Except Stop (Parsed α m)} {f : Parsed α m → Except Stop (Parsed β n)} :
    Yields (r >>= f) b c' ↔
      ∃ a c, ∃ h : Yields r a c, Yields (f ⟨a, c, h.within⟩) b c' := by
  constructor
  · intro h
    cases r with
    | error s => exact absurd h not_yields_error
    | ok x => exact ⟨x.value, x.next, ⟨x.within, rfl⟩, h⟩
  · intro hy
    obtain ⟨a, c, ⟨_, rfl⟩, hf⟩ := hy
    exact hf

end Yields

variable {c c' : Cursor} {e : Expr}

/-- One token is asked for: it is there, and it is passed. -/
theorem yields_expect {t : Token} {kind : Token.Kind} {hk : kind ≠ .endOfInput} :
    Yields (c.expect kind hk) t c' ↔ t.kind = kind ∧ c.Passes [t] c' := by
  unfold expect
  split
  · rename_i h
    rw [yields_ok]
    constructor
    · intro hy
      obtain ⟨rfl, rfl⟩ := hy
      exact ⟨h, Passes.advance (h ▸ hk)⟩
    · intro hy
      obtain ⟨ht, hpass⟩ := hy
      exact (Passes.one_iff (ht ▸ hk)).mp hpass
  · rename_i h
    constructor
    · exact fun hy => absurd hy not_yields_error
    · intro hy
      obtain ⟨ht, hpass⟩ := hy
      exact absurd (hpass.peek_eq ▸ ht) h

/-- An expression is a `let` with its two parts, or else operands joined by `and` and `or`. -/
theorem yields_expr :
    Yields c.expr e c' ↔
      (∃ word name assign c₁ bound c₂ sep c₃ body,
        word.kind = .letWord ∧ name.kind = .ident ∧ assign.kind = .assign ∧ sep.kind = .inWord ∧
        c.Passes [word, name, assign] c₁ ∧ Yields c₁.expr bound c₂ ∧ c₂.Passes [sep] c₃ ∧
        Yields c₃.expr body c' ∧ e = .letIn name.text bound body c'.lastLine) ∨
      (c.peek.kind ≠ .letWord ∧ Yields (c.tower .logical) e c') := by
  rw [expr]
  split
  · rename_i h
    simp only [yields_bind, yields_expect, yields_pure, exists_prop]
    constructor
    · intro hy
      obtain ⟨name, c₁, ⟨hname, p₁⟩, assign, c₂, ⟨hassign, p₂⟩, bound, c₃, hbound, sep, c₄, ⟨hsep,
        p₃⟩, body, c₅, hbody, rfl, rfl⟩ := hy
      have p₀ := Passes.advance (c := c) (by rw [h]; decide)
      exact .inl ⟨c.peek, name, assign, c₂, bound, c₃, sep, c₄, body, h, hname, hassign, hsep,
        (p₀.trans p₁).trans p₂, hbound, p₃, hbody, rfl⟩
    · intro hy
      rcases hy with ⟨word, name, assign, c₁, bound, c₂, sep, c₃, body, hword, hname, hassign,
        hsep, p₀, hbound, p₁, hbody, rfl⟩ | ⟨hne, -⟩
      · obtain ⟨-, p⟩ := p₀.uncons (by rw [hword]; decide)
        obtain ⟨d, p₂, p₃⟩ := Passes.cons_iff.mp p
        exact ⟨name, d, ⟨hname, p₂⟩, assign, c₁, ⟨hassign, p₃⟩, bound, c₂, hbound, sep, c₃,
          ⟨hsep, p₁⟩, body, c', hbody, rfl, rfl⟩
      · exact absurd h hne
  · rename_i h
    constructor
    · exact fun hy => .inr ⟨h, hy⟩
    · intro hy
      rcases hy with ⟨word, _, _, _, _, _, _, _, _, hword, _, _, _, p₀, _⟩ | ⟨-, hy⟩
      · exact absurd (p₀.peek_eq ▸ hword) h
      · exact hy

/-- A level is read as one operand, and then as the chain that goes on from it. -/
theorem yields_tower {l : Level} :
    Yields (c.tower l) e c' ↔
      ∃ first c₁, Yields (c.operand l) first c₁ ∧ Yields (c₁.chain l first) e c' := by
  rw [tower]
  simp only [yields_bind, yields_pure, exists_prop]
  constructor
  · intro hy
    obtain ⟨first, c₁, hfirst, whole, c₂, hwhole, rfl, rfl⟩ := hy
    exact ⟨first, c₁, hfirst, hwhole⟩
  · intro hy
    obtain ⟨first, c₁, hfirst, hwhole⟩ := hy
    exact ⟨first, c₁, hfirst, e, c', hwhole, rfl, rfl⟩

/-- A chain ends where no operator of the level stands, or goes on with the operator, an operand and
the rest of the chain.  What has been read so far becomes the left side. -/
theorem yields_chain {l : Level} {left : Expr} :
    Yields (c.chain l left) e c' ↔
      (l.operator? c.peek.kind = none ∧ left = e ∧ c = c') ∨
      (∃ op o c₁ right c₂, l.operator? op.kind = some o ∧ c.Passes [op] c₁ ∧
        Yields (c₁.operand l) right c₂ ∧
        Yields (c₂.chain l (.binary o left right c₂.lastLine)) e c') := by
  rw [chain]
  split
  · rename_i h
    rw [yields_ok]
    constructor
    · exact fun hy => .inl ⟨h, hy⟩
    · intro hy
      rcases hy with ⟨-, hy⟩ | ⟨op, o, c₁, _, _, hop, p, _⟩
      · exact hy
      · rw [p.peek_eq, hop] at h
        cases h
  · rename_i o h
    simp only [yields_bind, yields_pure, exists_prop]
    constructor
    · intro hy
      obtain ⟨right, c₁, hright, whole, c₂, hwhole, rfl, rfl⟩ := hy
      have p := Passes.advance (Level.ne_endOfInput_of_operator? h)
      exact .inr ⟨c.peek, o, c.advance, right, c₁, h, p, hright, hwhole⟩
    · intro hy
      rcases hy with ⟨hnone, -⟩ | ⟨op, o', c₁, right, c₂, hop, p, hright, hwhole⟩
      · rw [h] at hnone
        cases hnone
      · obtain ⟨rfl, rfl⟩ := (Passes.one_iff (Level.ne_endOfInput_of_operator? hop)).mp p
        cases h.symm.trans hop
        exact ⟨right, c₂, hright, e, c', hwhole, rfl, rfl⟩

/-- A relation is a sum alone, or two of them with a comparison in between. -/
theorem yields_relation :
    Yields c.relation e c' ↔
      ∃ left c₁, Yields (c.tower .additive) left c₁ ∧
        ((Comparison.ofKind? c₁.peek.kind = none ∧ left = e ∧ c₁ = c') ∨
          ∃ op o c₂ right, Comparison.ofKind? op.kind = some o ∧ c₁.Passes [op] c₂ ∧
            Yields (c₂.tower .additive) right c' ∧
            e = .binary (.compare o) left right c'.lastLine) := by
  rw [relation]
  simp only [yields_bind]
  constructor
  · intro hy
    obtain ⟨left, c₁, hleft, hrest⟩ := hy
    refine ⟨left, c₁, hleft, ?_⟩
    split at hrest
    · rename_i h
      exact .inl ⟨h, yields_pure.mp hrest⟩
    · rename_i o h
      simp only [yields_bind, yields_pure, exists_prop] at hrest
      obtain ⟨right, c₂, hright, rfl, rfl⟩ := hrest
      have p := Passes.advance (Comparison.ne_endOfInput_of_ofKind? h)
      exact .inr ⟨c₁.peek, o, c₁.advance, right, h, p, hright, rfl⟩
  · intro hy
    obtain ⟨left, c₁, hleft, hrest⟩ := hy
    refine ⟨left, c₁, hleft, ?_⟩
    rcases hrest with ⟨hnone, rfl, rfl⟩ | ⟨op, o, c₂, right, hop, p, hright, rfl⟩
    · split
      · exact yields_pure.mpr ⟨rfl, rfl⟩
      · rename_i o h
        rw [h] at hnone
        cases hnone
    · obtain ⟨rfl, rfl⟩ := (Passes.one_iff (Comparison.ne_endOfInput_of_ofKind? hop)).mp p
      split
      · rename_i h
        rw [hop] at h
        cases h
      · rename_i o' h
        cases hop.symm.trans h
        simp only [yields_bind, yields_pure, exists_prop]
        exact ⟨right, c', hright, rfl, rfl⟩

/-- A term is a `not` with a whole relation behind it, or else a product. -/
theorem yields_term :
    Yields c.term e c' ↔
      (∃ word c₁ operand, word.kind = .notWord ∧ c.Passes [word] c₁ ∧
        Yields c₁.relation operand c' ∧ e = .unary .not operand c'.lastLine) ∨
      (c.peek.kind ≠ .notWord ∧ Yields (c.tower .multiplicative) e c') := by
  rw [term]
  split
  · rename_i h
    simp only [yields_bind, yields_pure, exists_prop]
    constructor
    · intro hy
      obtain ⟨operand, c₁, hoperand, rfl, rfl⟩ := hy
      have p := Passes.advance (c := c) (by rw [h]; decide)
      exact .inl ⟨c.peek, c.advance, operand, h, p, hoperand, rfl⟩
    · intro hy
      rcases hy with ⟨word, c₁, operand, hword, p, hoperand, rfl⟩ | ⟨hne, -⟩
      · obtain ⟨rfl, rfl⟩ := (Passes.one_iff (by rw [hword]; decide)).mp p
        exact ⟨operand, c', hoperand, rfl, rfl⟩
      · exact absurd h hne
  · rename_i h
    constructor
    · exact fun hy => .inr ⟨h, hy⟩
    · intro hy
      rcases hy with ⟨word, _, _, hword, p, _⟩ | ⟨-, hy⟩
      · exact absurd (p.peek_eq ▸ hword) h
      · exact hy

/-- A statement is a `val` with the expression behind it, or else an expression. -/
theorem yields_statement :
    Yields c.statement e c' ↔
      (∃ word name assign c₁ value,
        word.kind = .valWord ∧ name.kind = .ident ∧ assign.kind = .assign ∧
        c.Passes [word, name, assign] c₁ ∧ Yields c₁.expr value c' ∧
        e = .val name.text value c'.lastLine) ∨
      (c.peek.kind ≠ .valWord ∧ Yields c.expr e c') := by
  rw [statement]
  split
  · rename_i h
    simp only [yields_bind, yields_expect, yields_pure, exists_prop]
    constructor
    · intro hy
      obtain ⟨name, c₁, ⟨hname, p₁⟩, assign, c₂, ⟨hassign, p₂⟩, value, c₃, hvalue, rfl, rfl⟩ := hy
      have p₀ := Passes.advance (c := c) (by rw [h]; decide)
      exact .inl ⟨c.peek, name, assign, c₂, value, h, hname, hassign, (p₀.trans p₁).trans p₂,
        hvalue, rfl⟩
    · intro hy
      rcases hy with ⟨word, name, assign, c₁, value, hword, hname, hassign, p₀, hvalue, rfl⟩ |
        ⟨hne, -⟩
      · obtain ⟨-, p⟩ := p₀.uncons (by rw [hword]; decide)
        obtain ⟨d, p₁, p₂⟩ := Passes.cons_iff.mp p
        exact ⟨name, d, ⟨hname, p₁⟩, assign, c₁, ⟨hassign, p₂⟩, value, c', hvalue, rfl, rfl⟩
      · exact absurd h hne
  · rename_i h
    constructor
    · exact fun hy => .inr ⟨h, hy⟩
    · intro hy
      rcases hy with ⟨word, _, _, _, _, hword, _, _, p, _⟩ | ⟨-, hy⟩
      · exact absurd (p.peek_eq ▸ hword) h
      · exact hy

/-- A minus takes the next factor as its operand. -/
theorem yields_factor_minus (h : c.peek.kind = .minus) :
    Yields c.factor e c' ↔
      ∃ operand, Yields c.advance.factor operand c' ∧ e = .unary .neg operand c'.lastLine := by
  rw [factor]
  split
  case h_1 =>
    simp only [yields_bind, yields_pure, exists_prop]
    constructor
    · intro hy
      obtain ⟨operand, c₁, hoperand, rfl, rfl⟩ := hy
      exact ⟨operand, hoperand, rfl⟩
    · intro hy
      obtain ⟨operand, hoperand, rfl⟩ := hy
      exact ⟨operand, c', hoperand, rfl, rfl⟩
  all_goals simp_all

/-- Parentheses leave no trace but that they have been passed. -/
theorem yields_factor_lparen (h : c.peek.kind = .lparen) :
    Yields c.factor e c' ↔
      ∃ c₁ closing, Yields c.advance.expr e c₁ ∧ closing.kind = .rparen ∧
        c₁.Passes [closing] c' := by
  rw [factor]
  split
  case h_2 =>
    simp only [yields_bind, yields_expect, yields_pure, exists_prop]
    constructor
    · intro hy
      obtain ⟨inner, c₁, hinner, closing, c₂, ⟨hclosing, p⟩, rfl, rfl⟩ := hy
      exact ⟨c₁, closing, hinner, hclosing, p⟩
    · intro hy
      obtain ⟨c₁, closing, hinner, hclosing, p⟩ := hy
      exact ⟨e, c₁, hinner, closing, c', ⟨hclosing, p⟩, rfl, rfl⟩
  all_goals simp_all

/-- A literal is a factor on its own. -/
theorem yields_factor_literal (h : c.peek.kind ∈ Token.Kind.literals) :
    Yields c.factor e c' ↔ .literal c.peek = e ∧ c.advance = c' := by
  rw [factor]
  split
  all_goals simp_all [yields_ok, Token.Kind.literals]

/-- So is a name. -/
theorem yields_factor_ident (h : c.peek.kind = .ident) :
    Yields c.factor e c' ↔ .ident c.peek = e ∧ c.advance = c' := by
  rw [factor]
  split
  all_goals simp_all [yields_ok]

/-- The kinds of token that a factor starts with. -/
theorem kind_of_yields_factor (h : Yields c.factor e c') :
    c.peek.kind = .minus ∨ c.peek.kind = .lparen ∨ c.peek.kind ∈ Token.Kind.literals ∨
      c.peek.kind = .ident := by
  rw [factor] at h
  split at h
  all_goals simp_all [not_yields_error, Token.Kind.literals]

end Cursor

end LetCalc
