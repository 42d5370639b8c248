import LetCalc.Proofs.Rules
import LetCalc.Proofs.Spelling

/-!
# Reading follows the derivations

Main statements: what a rule yields has a derivation from the tokens that the rule passed
(`derivation_of_yields_expr` and its companions), and every derivation is read with just its tree
(`Derivation.reads`).  For programs the two make an equivalence, `program_ok_iff`, and
`parse_ok_iff` says the same of a source text.
-/

namespace LetCalc

namespace Cursor

/-! ### What is read has a derivation

The theorems below call each other as the rules do, and end for the same reason.
-/

mutual

/-- An expression that is read has a derivation from the tokens passed. -/
theorem derivation_of_yields_expr {c c' : Cursor} {e : Expr} (h : Yields c.expr e c') :
    ∃ w, c.Passes w c' ∧ Derivation .expr w c'.peek.kind e := by
  rcases yields_expr.mp h with ⟨word, name, assign, c₁, bound, c₂, sep, c₃, body, hword, hname,
    hassign, hsep, p₀, hbound, p₁, hbody, rfl⟩ | ⟨-, htower⟩
  · have hstart := p₀.remaining_lt
    have hbetween := hbound.within
    have hbehind := p₁.remaining_lt
    obtain ⟨w, pw, dw⟩ := derivation_of_yields_expr hbound
    obtain ⟨v, pv, dv⟩ := derivation_of_yields_expr hbody
    rw [p₁.peek_eq, hsep] at dw
    rw [pv.lastLine_eq dv.ne_nil]
    refine ⟨word :: name :: assign :: (w ++ sep :: v), ?_, .letIn hword hname hassign hsep dw dv⟩
    exact p₀.trans (pw.trans (p₁.trans pv))
  · obtain ⟨w, pw, dw, -⟩ := derivation_of_yields_tower htower
    exact ⟨w, pw, .logical dw⟩
termination_by 10 * c.remaining + 9

/-- A tower that is read has a derivation, and no operator of its level follows it. -/
theorem derivation_of_yields_tower {l : Level} {c c' : Cursor} {e : Expr}
    (h : Yields (c.tower l) e c') :
    ∃ w, c.Passes w c' ∧ Derivation (.tower l) w c'.peek.kind e ∧
      l.operator? c'.peek.kind = none := by
  obtain ⟨first, c₁, hfirst, hchain⟩ := yields_tower.mp h
  have hlt := hfirst.within
  obtain ⟨p, w, hp, pw, dw⟩ := derivation_of_yields_operand hfirst
  obtain ⟨v, pv, dv, hnone⟩ := derivation_of_yields_chain (.single hp dw) hchain
  exact ⟨w ++ v, pw.trans pv, dv, hnone⟩
termination_by 10 * c.remaining + l.rank + 1

/-- A chain goes on with the derivation of what stands to its left. -/
theorem derivation_of_yields_chain {l : Level} {left : Expr} {w : List Token} {c c' : Cursor}
    {e : Expr} (hleft : Derivation (.tower l) w c.peek.kind left)
    (h : Yields (c.chain l left) e c') :
    ∃ v, c.Passes v c' ∧ Derivation (.tower l) (w ++ v) c'.peek.kind e ∧
      l.operator? c'.peek.kind = none := by
  rcases yields_chain.mp h with ⟨hnone, rfl, rfl⟩ | ⟨op, o, c₁, right, c₂, hop, p, hright, hchain⟩
  · exact ⟨[], Passes.refl c, by rwa [List.append_nil], hnone⟩
  · have hstep := p.remaining_lt
    have hlt := hright.within
    have hl := l.rank_le
    obtain ⟨q, v, hq, pv, dv⟩ := derivation_of_yields_operand hright
    rw [p.peek_eq] at hleft
    rw [pv.lastLine_eq dv.ne_nil] at hchain
    obtain ⟨u, pu, du, hnone⟩ := derivation_of_yields_chain (.grow hq hop hleft dv) hchain
    refine ⟨op :: (v ++ u), p.trans (pv.trans pu), ?_, hnone⟩
    rwa [List.append_assoc] at du
termination_by 10 * c.remaining

/-- An operand that is read has a derivation. -/
theorem derivation_of_yields_operand {l : Level} {c c' : Cursor} {e : Expr}
    (h : Yields (c.operand l) e c') :
    ∃ p w, l.Operand p ∧ c.Passes w c' ∧ Derivation p w c'.peek.kind e := by
  cases l with
  | logical =>
      rw [operand] at h
      obtain ⟨compared, w, pw, dw, -⟩ := derivation_of_yields_relation h
      exact ⟨_, w, .relation compared, pw, dw⟩
  | additive =>
      rw [operand] at h
      obtain ⟨w, pw, dw⟩ := derivation_of_yields_term h
      exact ⟨_, w, .term, pw, dw⟩
  | multiplicative =>
      rw [operand] at h
      obtain ⟨w, pw, dw⟩ := derivation_of_yields_factor h
      exact ⟨_, w, .factor, pw, dw⟩
termination_by 10 * c.remaining + l.rank

/-- A relation that is read has a derivation, and a `not` before it may end where it ends. -/
theorem derivation_of_yields_relation {c c' : Cursor} {e : Expr} (h : Yields c.relation e c') :
    ∃ compared w, c.Passes w c' ∧ Derivation (.relation compared) w c'.peek.kind e ∧
      MayEnd compared c'.peek.kind := by
  obtain ⟨left, c₁, hleft, hrest⟩ := yields_relation.mp h
  have hlt := hleft.within
  obtain ⟨w, pw, dw, hnone⟩ := derivation_of_yields_tower hleft
  rcases hrest with ⟨hcompare, rfl, rfl⟩ | ⟨op, o, c₂, right, hop, p, hright, rfl⟩
  · exact ⟨false, w, pw, .sum dw, hnone, fun hsome => absurd hcompare hsome⟩
  · have hstep := p.remaining_lt
    obtain ⟨v, pv, dv, hnone'⟩ := derivation_of_yields_tower hright
    rw [p.peek_eq] at dw
    rw [pv.lastLine_eq dv.ne_nil]
    exact ⟨true, w ++ op :: v, pw.trans (p.trans pv), .comparison hop dw dv, hnone', fun _ => rfl⟩
termination_by 10 * c.remaining + 6

/-- A term that is read has a derivation. -/
theorem derivation_of_yields_term {c c' : Cursor} {e : Expr} (h : Yields c.term e c') :
    ∃ w, c.Passes w c' ∧ Derivation .term w c'.peek.kind e := by
  rcases yields_term.mp h with ⟨word, c₁, operand, hword, p, hoperand, rfl⟩ | ⟨-, htower⟩
  · have hstep := p.remaining_lt
    obtain ⟨compared, w, pw, dw, hend⟩ := derivation_of_yields_relation hoperand
    rw [pw.lastLine_eq dw.ne_nil]
    exact ⟨word :: w, p.trans pw, .negation hword dw hend⟩
  · obtain ⟨w, pw, dw, -⟩ := derivation_of_yields_tower htower
    exact ⟨w, pw, .product dw⟩
termination_by 10 * c.remaining + 3

/-- A factor that is read has a derivation. -/
theorem derivation_of_yields_factor {c c' : Cursor} {e : Expr} (h : Yields c.factor e c') :
    ∃ w, c.Passes w c' ∧ Derivation .factor w c'.peek.kind e := by
  have hkind := kind_of_yields_factor h
  have hne : c.peek.kind ≠ .endOfInput := by
    rcases hkind with hk | hk | hk | hk <;> intro hend <;> rw [hend] at hk <;> revert hk <;> decide
  have p := Passes.advance hne
  have hstep := advance_remaining hne
  rcases hkind with hk | hk | hk | hk
  · obtain ⟨operand, hoperand, rfl⟩ := (yields_factor_minus hk).mp h
    obtain ⟨w, pw, dw⟩ := derivation_of_yields_factor hoperand
    rw [pw.lastLine_eq dw.ne_nil]
    exact ⟨c.peek :: w, p.trans pw, .sign hk dw⟩
  · obtain ⟨c₁, closing, hinner, hclosing, p₁⟩ := (yields_factor_lparen hk).mp h
    obtain ⟨w, pw, dw⟩ := derivation_of_yields_expr hinner
    rw [p₁.peek_eq, hclosing] at dw
    exact ⟨c.peek :: (w ++ [closing]), p.trans (pw.trans p₁), .group hk hclosing dw⟩
  · obtain ⟨rfl, rfl⟩ := (yields_factor_literal hk).mp h
    exact ⟨[c.peek], p, .literal hk⟩
  · obtain ⟨rfl, rfl⟩ := (yields_factor_ident hk).mp h
    exact ⟨[c.peek], p, .name hk⟩
termination_by 10 * c.remaining

end

/-- A statement that is read has a derivation. -/
theorem derivation_of_yields_statement {c c' : Cursor} {e : Expr} (h : Yields c.statement e c') :
    ∃ w, c.Passes w c' ∧ Derivation .statement w c'.peek.kind e := by
  rcases yields_statement.mp h with ⟨word, name, assign, c₁, value, hword, hname, hassign, p₀,
    hvalue, rfl⟩ | ⟨-, hwhole⟩
  · obtain ⟨w, pw, dw⟩ := derivation_of_yields_expr hvalue
    rw [pw.lastLine_eq dw.ne_nil]
    exact ⟨word :: name :: assign :: w, p₀.trans pw, .val hword hname hassign dw⟩
  · obtain ⟨w, pw, dw⟩ := derivation_of_yields_expr hwhole
    exact ⟨w, pw, .bare dw⟩

end Cursor

open Cursor

/-! ### What has a derivation is read -/

/-- The kinds of token that a factor can start with. -/
def Token.Kind.factorFirsts : List Token.Kind :=
  .minus :: .lparen :: .ident :: literals

namespace Phrase

/-- The kinds of token that a phrase can start with. -/
def firsts : Phrase → List Token.Kind
  | factor | tower .multiplicative => Token.Kind.factorFirsts
  | term | tower .additive | relation _ | tower .logical => .notWord :: Token.Kind.factorFirsts
  | expr => .letWord :: .notWord :: Token.Kind.factorFirsts
  | statement => .valWord :: .letWord :: .notWord :: Token.Kind.factorFirsts

/-- Whether a phrase ends before a token of a kind: a rule that has read the phrase does not go on
with that token.  A tower is taken as what it is so far, so operators of its own level do not
count. -/
def Closes : Phrase → Token.Kind → Prop
  | factor, _ => True
  | tower .multiplicative, _ => True
  | term, k => Level.multiplicative.operator? k = none
  | tower .additive, k => Level.multiplicative.operator? k = none
  | relation compared, k => Level.multiplicative.operator? k = none ∧ MayEnd compared k
  | tower .logical, k => Level.multiplicative.operator? k = none ∧ MayEnd false k
  | expr, k =>
    Level.multiplicative.operator? k = none ∧ MayEnd false k ∧ Level.logical.operator? k = none
  | statement, k =>
    Level.multiplicative.operator? k = none ∧ MayEnd false k ∧ Level.logical.operator? k = none

end Phrase

theorem MayEnd.of_false {compared : Bool} {k : Token.Kind} (h : MayEnd false k) :
    MayEnd compared k :=
  ⟨h.1, fun hsome => absurd (h.2 hsome) Bool.false_ne_true⟩

theorem MayEnd.ofKind?_eq_none {k : Token.Kind} (h : MayEnd false k) :
    Comparison.ofKind? k = none :=
  Decidable.byContradiction fun hsome => Bool.false_ne_true (h.2 hsome)

/-- An operator closes the tower to its left. -/
theorem Level.closes_of_operator? {l : Level} {k : Token.Kind} {o : BinaryOp}
    (h : l.operator? k = some o) : (Phrase.tower l).Closes k := by
  cases l <;> cases k <;> simp_all [Level.operator?, Phrase.Closes, MayEnd, Comparison.ofKind?]

/-- A comparison closes the sum to its left. -/
theorem Comparison.closes_of_ofKind? {k : Token.Kind} {o : Comparison}
    (h : Comparison.ofKind? k = some o) :
    (Phrase.tower .additive).Closes k ∧ Level.additive.operator? k = none := by
  cases k <;> simp_all [Level.operator?, Phrase.Closes, Comparison.ofKind?]

/-- The kinds of token that stand behind an expression. -/
def Token.Kind.separators : List Token.Kind :=
  [.inWord, .rparen, .semicolon]

/-- What stands behind an expression closes it. -/
theorem Phrase.expr_closes {k : Token.Kind} (hk : k ∈ Token.Kind.separators) :
    Phrase.expr.Closes k := by
  simp only [Token.Kind.separators, List.mem_cons, List.not_mem_nil, or_false] at hk
  rcases hk with rfl | rfl | rfl <;> exact ⟨rfl, ⟨rfl, fun hsome => absurd rfl hsome⟩, rfl⟩

/-- A `not` may end before what stands behind an expression. -/
theorem MayEnd.of_separator {compared : Bool} {k : Token.Kind} (hk : k ∈ Token.Kind.separators) :
    MayEnd compared k :=
  (Phrase.expr_closes hk).2.1.of_false

/-- What closes a tower closes its last operand. -/
theorem Level.Operand.closes {l : Level} {p : Phrase} {k : Token.Kind} (hp : l.Operand p)
    (h : (Phrase.tower l).Closes k) : p.Closes k := by
  cases hp with
  | relation compared => exact ⟨h.1, h.2.of_false⟩
  | term => exact h
  | factor => trivial

namespace Derivation

variable {p : Phrase} {w : List Token} {k : Token.Kind} {e : Expr}

/-- The first token of a phrase has one of the kinds that the phrase can start with. -/
theorem exists_first (h : Derivation p w k e) : ∃ t v, w = t :: v ∧ t.kind ∈ p.firsts := by
  induction h with
  | val hword => exact ⟨_, _, rfl, by simp [hword, Phrase.firsts]⟩
  | bare whole ih =>
      obtain ⟨t, v, rfl, ht⟩ := ih
      exact ⟨t, v, rfl, List.mem_cons_of_mem _ ht⟩
  | letIn hword => exact ⟨_, _, rfl, by simp [hword, Phrase.firsts]⟩
  | logical whole ih =>
      obtain ⟨t, v, rfl, ht⟩ := ih
      exact ⟨t, v, rfl, List.mem_cons_of_mem _ ht⟩
  | single hp whole ih => cases hp <;> exact ih
  | grow hp hop left right ihleft ihright =>
      obtain ⟨t, v, rfl, ht⟩ := ihleft
      exact ⟨t, _, rfl, ht⟩
  | sum whole ih => exact ih
  | comparison hop left right ihleft ihright =>
      obtain ⟨t, v, rfl, ht⟩ := ihleft
      exact ⟨t, _, rfl, ht⟩
  | negation hword => exact ⟨_, _, rfl, by simp [hword, Phrase.firsts]⟩
  | product whole ih =>
      obtain ⟨t, v, rfl, ht⟩ := ih
      exact ⟨t, v, rfl, List.mem_cons_of_mem _ ht⟩
  | sign hop => exact ⟨_, _, rfl, by simp [hop, Phrase.firsts, Token.Kind.factorFirsts]⟩
  | group hopening => exact ⟨_, _, rfl, by simp [hopening, Phrase.firsts, Token.Kind.factorFirsts]⟩
  | literal ht => exact ⟨_, _, rfl, by simp [ht, Phrase.firsts, Token.Kind.factorFirsts]⟩
  | name ht => exact ⟨_, _, rfl, by simp [ht, Phrase.firsts, Token.Kind.factorFirsts]⟩

/-- A cursor before a phrase is on no token that the phrase cannot start with. -/
theorem peek_kind_ne {c c' : Cursor} {k' : Token.Kind} (h : Derivation p w k e)
    (hpass : c.Passes w c') (hk' : k' ∉ p.firsts) : c.peek.kind ≠ k' := by
  obtain ⟨t, v, rfl, ht⟩ := h.exists_first
  rintro rfl
  exact hk' (hpass.peek_eq ▸ ht)

end Derivation

namespace Phrase

/-- What the reader does with a phrase that has a derivation.  For a tower this is: to go on with
the chain behind it. -/
def Reads : Phrase → Cursor → Expr → Cursor → Prop
  | statement, c, e, c' => Cursor.Yields c.statement e c'
  | expr, c, e, c' => Cursor.Yields c.expr e c'
  | tower l, c, e, c' =>
    ∀ f c'', Cursor.Yields (c'.chain l e) f c'' → Cursor.Yields (c.tower l) f c''
  | relation _, c, e, c' => Cursor.Yields c.relation e c'
  | term, c, e, c' => Cursor.Yields c.term e c'
  | factor, c, e, c' => Cursor.Yields c.factor e c'

end Phrase

/-- An operand is read by the operand rule of its level. -/
theorem Level.Operand.yields {l : Level} {p : Phrase} {c c' : Cursor} {e : Expr}
    (hp : l.Operand p) (h : p.Reads c e c') : Yields (c.operand l) e c' := by
  cases hp <;> rw [Cursor.operand] <;> exact h

/-- A tower that no operator of its level follows is read as a whole. -/
theorem yields_tower_of_reads {l : Level} {c c' : Cursor} {e : Expr}
    (h : (Phrase.tower l).Reads c e c') (hnone : l.operator? c'.peek.kind = none) :
    Yields (c.tower l) e c' :=
  h e c' (yields_chain.mpr (.inl ⟨hnone, rfl, rfl⟩))

/-- Every derivation is read: on its tokens, with a token behind them that closes the phrase, the
rule for the phrase gives its tree and gets to the end of the tokens. -/
theorem Derivation.reads {p : Phrase} {w : List Token} {k : Token.Kind} {e : Expr}
    (h : Derivation p w k e) {c c' : Cursor} (hpass : c.Passes w c') (hk : c'.peek.kind = k)
    (hclose : p.Closes k) : p.Reads c e c' := by
  induction h generalizing c c' with
  | @val word name assign w k e hword hname hassign value ih =>
      obtain ⟨c₁, p₀, p₁⟩ := Passes.split (w := [word, name, assign]) hpass
      rw [← p₁.lastLine_eq value.ne_nil]
      exact yields_statement.mpr
        (.inl ⟨word, name, assign, c₁, e, hword, hname, hassign, p₀, ih p₁ hk hclose, rfl⟩)
  | bare whole ih =>
      have hne : c.peek.kind ≠ .valWord := whole.peek_kind_ne hpass (by decide)
      exact yields_statement.mpr (.inr ⟨hne, ih hpass hk hclose⟩)
  | @letIn word name assign sep w v k e f hword hname hassign hsep bound body ihbound ihbody =>
      obtain ⟨c₁, p₀, prest⟩ := Passes.split (w := [word, name, assign]) hpass
      obtain ⟨c₂, p₁, prest⟩ := prest.split
      obtain ⟨c₃, p₂, p₃⟩ := Passes.cons_iff.mp prest
      have hin : c₂.peek.kind = .inWord := by rw [p₂.peek_eq, hsep]
      have hbound := ihbound p₁ hin (Phrase.expr_closes (by decide))
      have hbody := ihbody p₃ hk hclose
      rw [← p₃.lastLine_eq body.ne_nil]
      exact yields_expr.mpr (.inl ⟨word, name, assign, c₁, e, c₂, sep, c₃, f, hword, hname, hassign,
        hsep, p₀, hbound, p₂, hbody, rfl⟩)
  | logical whole ih =>
      have hne : c.peek.kind ≠ .letWord := whole.peek_kind_ne hpass (by decide)
      have htower := ih hpass hk ⟨hclose.1, hclose.2.1⟩
      exact yields_expr.mpr (.inr ⟨hne, yields_tower_of_reads htower (hk ▸ hclose.2.2)⟩)
  | single hp whole ih =>
      intro f c'' hchain
      exact yields_tower.mpr ⟨_, c', hp.yields (ih hpass hk (hp.closes hclose)), hchain⟩
  | @grow l q op o w v k e f hp hop left right ihleft ihright =>
      obtain ⟨c₁, p₀, prest⟩ := hpass.split
      obtain ⟨c₂, p₁, p₂⟩ := Passes.cons_iff.mp prest
      have hleft := ihleft p₀ (by rw [p₁.peek_eq]) (Level.closes_of_operator? hop)
      have hright := hp.yields (ihright p₂ hk (hp.closes hclose))
      intro g c'' hchain
      rw [← p₂.lastLine_eq right.ne_nil] at hchain
      exact hleft g c'' (yields_chain.mpr (.inr ⟨op, o, c₂, f, c', hop, p₁, hright, hchain⟩))
  | sum whole ih =>
      subst hk
      have htower := yields_tower_of_reads (ih hpass rfl hclose.1) hclose.2.1
      exact yields_relation.mpr ⟨_, c', htower, .inl ⟨hclose.2.ofKind?_eq_none, rfl, rfl⟩⟩
  | @comparison op o w v k e f hop left right ihleft ihright =>
      obtain ⟨c₁, p₀, prest⟩ := hpass.split
      obtain ⟨c₂, p₁, p₂⟩ := Passes.cons_iff.mp prest
      obtain ⟨hclose₁, hnone₁⟩ := Comparison.closes_of_ofKind? hop
      have hleft := yields_tower_of_reads (ihleft p₀ (by rw [p₁.peek_eq]) hclose₁)
        (by rwa [p₁.peek_eq])
      subst hk
      have hright := yields_tower_of_reads (ihright p₂ rfl hclose.1) hclose.2.1
      rw [← p₂.lastLine_eq right.ne_nil]
      exact yields_relation.mpr ⟨e, c₁, hleft, .inr ⟨op, o, c₂, f, hop, p₁, hright, rfl⟩⟩
  | @negation word compared w k e hword operand hend ih =>
      obtain ⟨c₁, p₀, p₁⟩ := Passes.cons_iff.mp hpass
      rw [← p₁.lastLine_eq operand.ne_nil]
      exact yields_term.mpr (.inl ⟨word, c₁, e, hword, p₀, ih p₁ hk ⟨hclose, hend⟩, rfl⟩)
  | product whole ih =>
      have hne : c.peek.kind ≠ .notWord := whole.peek_kind_ne hpass (by decide)
      exact yields_term.mpr
        (.inr ⟨hne, yields_tower_of_reads (ih hpass hk trivial) (hk ▸ hclose)⟩)
  | @sign op w k e hop operand ih =>
      obtain ⟨rfl, p₁⟩ := hpass.uncons (by rw [hop]; decide)
      rw [← p₁.lastLine_eq operand.ne_nil]
      exact (yields_factor_minus hop).mpr ⟨e, ih p₁ hk trivial, rfl⟩
  | @group opening closing w k e hopening hclosing inner ih =>
      obtain ⟨rfl, prest⟩ := hpass.uncons (by rw [hopening]; decide)
      obtain ⟨c₁, p₁, p₂⟩ := prest.split
      have hrparen : c₁.peek.kind = .rparen := by rw [p₂.peek_eq, hclosing]
      have hinner := ih p₁ hrparen (Phrase.expr_closes (by decide))
      exact (yields_factor_lparen hopening).mpr ⟨c₁, closing, hinner, hclosing, p₂⟩
  | @literal t k ht =>
      have hne : t.kind ≠ .endOfInput := fun heq => absurd (heq ▸ ht) (by decide)
      obtain ⟨rfl, rfl⟩ := (Passes.one_iff hne).mp hpass
      exact (yields_factor_literal ht).mpr ⟨rfl, rfl⟩
  | @name t k ht =>
      obtain ⟨rfl, rfl⟩ := (Passes.one_iff (by rw [ht]; decide)).mp hpass
      exact (yields_factor_ident ht).mpr ⟨rfl, rfl⟩

/-! ### Programs -/

/-- Results can be compared, so that what is read from a fixed text can be decided. -/
instance decidableEqExcept {ε α : Type} [DecidableEq ε] [DecidableEq α] : DecidableEq (Except ε α)
  | .ok a, .ok b => decidable_of_iff (a = b) ⟨congrArg _, Except.ok.inj⟩
  | .error a, .error b => decidable_of_iff (a = b) ⟨congrArg _, Except.error.inj⟩
  | .ok _, .error _ => isFalse nofun
  | .error _, .ok _ => isFalse nofun

/-- Two steps in a row succeed if the first one does and the second one then does. -/
theorem bind_eq_ok {ε α β : Type} {x : Except ε α} {f : α → Except ε β} {b : β} :
    x >>= f = .ok b ↔ ∃ a, x = .ok a ∧ f a = .ok b := by
  cases x with
  | error e => simp [bind, Except.bind]
  | ok a => simp [bind, Except.bind]

namespace Cursor

theorem statements_ok {c c' : Cursor} {es : List Expr} :
    c.statements = .ok (es, c') ↔
      (c.peek.kind = .endOfInput ∧ es = [] ∧ c = c') ∨
      (c.peek.kind ≠ .endOfInput ∧ ∃ first c₁ sep c₂ others, Yields c.statement first c₁ ∧
        sep.kind = .semicolon ∧ c₁.Passes [sep] c₂ ∧ c₂.statements = .ok (others, c') ∧
        es = first :: others) := by
  rw [statements]
  split
  · rename_i h
    simp [h, eq_comm]
  · rename_i h
    simp only [bind_eq_ok]
    constructor
    · intro hy
      obtain ⟨⟨first, c₁, h₁⟩, hfirst, ⟨sep, c₂, h₂⟩, hsep, ⟨others, c₃⟩, hothers, hlast⟩ := hy
      obtain ⟨hkind, p⟩ := yields_expect.mp ⟨h₂, hsep⟩
      cases hlast
      exact .inr ⟨h, first, c₁, sep, c₂, others, ⟨h₁, hfirst⟩, hkind, p, hothers, rfl⟩
    · intro hy
      rcases hy with ⟨heq, -⟩ | ⟨-, first, c₁, sep, c₂, others, ⟨h₁, hfirst⟩, hkind, p, hothers,
        rfl⟩
      · exact absurd heq h
      · obtain ⟨h₂, hsep⟩ := yields_expect.mpr ⟨hkind, p⟩
        exact ⟨⟨first, c₁, h₁⟩, hfirst, ⟨sep, c₂, h₂⟩, hsep, ⟨others, c'⟩, hothers, rfl⟩

/-- Statements that are read have a derivation. -/
theorem derivation_of_statements_ok {c c' : Cursor} {es : List Expr}
    (h : c.statements = .ok (es, c')) :
    ∃ w, c.Passes w c' ∧ ProgramDerivation w es ∧ c'.peek.kind = .endOfInput := by
  rcases statements_ok.mp h with ⟨hend, rfl, rfl⟩ | ⟨-, first, c₁, sep, c₂, others, hfirst, hsep, p,
    hothers, rfl⟩
  · exact ⟨[], Passes.refl c, .nil, hend⟩
  · have hbefore := hfirst.within
    have hstep := p.remaining_lt
    obtain ⟨w, pw, dw⟩ := derivation_of_yields_statement hfirst
    obtain ⟨v, pv, dv, hend⟩ := derivation_of_statements_ok hothers
    rw [p.peek_eq, hsep] at dw
    exact ⟨w ++ sep :: v, pw.trans (p.trans pv), .cons hsep dw dv, hend⟩
termination_by c.remaining

/-- Statements that have a derivation are read, if an end token follows them. -/
theorem statements_ok_of_derivation {w : List Token} {es : List Expr}
    (h : ProgramDerivation w es) {c c' : Cursor} (hpass : c.Passes w c')
    (hend : c'.peek.kind = .endOfInput) : c.statements = .ok (es, c') := by
  induction h generalizing c with
  | nil =>
      obtain rfl := (Passes.refl c).unique hpass
      exact statements_ok.mpr (.inl ⟨hend, rfl, rfl⟩)
  | @cons sep w v e es hsep first others ih =>
      obtain ⟨c₁, p₀, prest⟩ := hpass.split
      obtain ⟨c₂, p₁, p₂⟩ := Passes.cons_iff.mp prest
      have hne : c.peek.kind ≠ .endOfInput := first.peek_kind_ne p₀ (by decide)
      have hkind : c₁.peek.kind = .semicolon := by rw [p₁.peek_eq, hsep]
      have hfirst := first.reads p₀ hkind (Phrase.expr_closes (by decide))
      exact statements_ok.mpr
        (.inr ⟨hne, e, c₁, sep, c₂, es, hfirst, hsep, p₁, ih p₂, rfl⟩)

/-- **Reading a program.**  A program is read exactly if all tokens ahead together have a derivation
of its statements; the cursor then has passed them all, and the program is on the last line passed.
-/
theorem program_ok_iff {c c' : Cursor} {p : Program} :
    c.program = (.ok p, c') ↔
      c.Passes c.ahead c' ∧ ProgramDerivation c.ahead p.statements ∧ p.line = c'.lastLine := by
  unfold program
  constructor
  · intro h
    split at h
    · cases h
    · rename_i es c₁ hok
      obtain ⟨w, pw, dw, -⟩ := derivation_of_statements_ok hok
      split at h
      · cases h
      · rename_i hbeyond
        cases h
        have hahead : c'.ahead = [] := by
          cases hc : c'.ahead with
          | nil => rfl
          | cons t ts => simp [beyondEnd?, hc] at hbeyond
        have hall : c.ahead = w := by rw [pw.ahead, hahead, List.append_nil]
        rw [hall]
        exact ⟨pw, dw, rfl⟩
  · intro hy
    obtain ⟨hpass, hderiv, hline⟩ := hy
    have hahead : c'.ahead = [] := List.append_right_eq_self.mp hpass.ahead.symm
    have hend : c'.peek.kind = .endOfInput := by
      rw [peek, hahead]
      exact c'.closing_kind
    have hbeyond : c'.beyondEnd? = none := by simp [beyondEnd?, hahead]
    rw [statements_ok_of_derivation hderiv hpass hend]
    simp only [hbeyond, ← hline]

/-- The cursor on tokens that have an end token behind them. -/
theorem ofTokens_append (w : List Token) {closing : Token} (h : closing.kind = .endOfInput) :
    ofTokens (w ++ [closing]) = ⟨[], w, closing, h⟩ := by
  simp [ofTokens, h]

/-- Reading a program from its start: its line is that of its last token, or of the end token if it
has no other. -/
theorem program_ok_iff_of_start {w : List Token} {closing : Token}
    {hclosing : closing.kind = .endOfInput} {p : Program} :
    (program ⟨[], w, closing, hclosing⟩).1 = .ok p ↔
      ProgramDerivation w p.statements ∧
        p.line = if w = [] then closing.line else LetCalc.lastLine w := by
  let start : Cursor := ⟨[], w, closing, hclosing⟩
  let finish : Cursor := ⟨w.reverse, [], closing, hclosing⟩
  have hpass : start.Passes w finish :=
    ⟨(List.append_nil w).symm, (List.append_nil w.reverse).symm, rfl⟩
  have hline : finish.lastLine = if w = [] then closing.line else LetCalc.lastLine w := by
    by_cases hw : w = []
    · subst hw
      rfl
    · rw [if_neg hw]
      exact hpass.lastLine_eq hw
  constructor
  · intro h
    have hprogram : start.program = (.ok p, start.program.2) := Prod.ext h rfl
    obtain ⟨hpass', hderiv, hpline⟩ := program_ok_iff.mp hprogram
    rw [hpline, hpass'.unique hpass]
    exact ⟨hderiv, hline⟩
  · intro h
    have hprogram := program_ok_iff.mpr ⟨hpass, h.1, h.2.trans hline.symm⟩
    exact congrArg Prod.fst hprogram

end Cursor

/-- **Reading a text.**  A text writes a program exactly if it can be cut into tokens that have a
derivation of the statements. -/
theorem parse_ok_iff {s : String} {p : Program} :
    parse s = .ok p ↔ ∃ w n, (Source.ofString s).tokens.1 = .ok (w ++ [Token.endAt n]) ∧
      ProgramDerivation w p.statements ∧ p.line = if w = [] then n else lastLine w := by
  rw [parse, bind_eq_ok]
  constructor
  · intro h
    obtain ⟨c, hc, hp⟩ := h
    unfold ofString at hc
    split at hc
    · rename_i ts hts
      cases hc
      obtain ⟨w, n, rfl, -⟩ := Source.tokens_spelled hts
      rw [ofTokens_append w (Token.kind_endAt n), program_ok_iff_of_start] at hp
      exact ⟨w, n, hts, hp⟩
    · cases hc
  · intro h
    obtain ⟨w, n, hts, hp⟩ := h
    refine ⟨ofTokens (w ++ [Token.endAt n]), by simp [ofString, hts], ?_⟩
    rw [ofTokens_append w (Token.kind_endAt n), program_ok_iff_of_start]
    exact hp

end LetCalc
