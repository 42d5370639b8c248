import LetCalc.Proofs.Grammar
import LetCalc.Proofs.Reading

/-!
# Recognition

The reader accepts **exactly** what the grammar derives.  This is not plain from its rules: the
grammar is ambiguous, and the reader looks one token ahead and never takes a decision back.

The decisions are about `not`.  Its operand is a relation, and a relation has room for one
comparison.  So every `not` opens room for one comparison somewhere behind it, and it does not
matter to what follows which of the open relations a comparison is given to: only the room that is
left counts.  A `Spine` is a list of tokens with nothing but that count.  All derivations of a sum or a
relation have a spine (`Spine.append`), and a spine has a derivation in which each `not` takes its
longest operand (`Spine.exists_sum`).

Main statement: `exists_program_iff`.
-/

namespace LetCalc

/-! ### Spines -/

/-- Whether tokens are a product, whatever follows them. -/
def IsProduct (w : List Token) : Prop :=
  ∀ k, ∃ e, Derivation (.tower .multiplicative) w k e

/-- `Joins k m`: a token of kind `k` may stand between two terms, and takes the room of `m`
comparisons. -/
inductive Joins : Token.Kind → Nat → Prop where
  | additive {k : Token.Kind} {o : BinaryOp} (hk : Level.additive.operator? k = some o) : Joins k 0
  | comparison {k : Token.Kind} {o : Comparison} (hk : Comparison.ofKind? k = some o) : Joins k 1

/-- `Spine n w`: the tokens `w` are products with operators between them, and with any number of
`not` before each, where there is room for every comparison.  From outside there is room for `n`. -/
inductive Spine : Nat → List Token → Prop where
  | product {n : Nat} {w : List Token} (hw : IsProduct w) : Spine n w
  | negation {n : Nat} {word : Token} {w : List Token} (hword : word.kind = .notWord)
      (operand : Spine (n + 1) w) : Spine n (word :: w)
  | join {n m : Nat} {op : Token} {w v : List Token} (hop : Joins op.kind m) (left : IsProduct w)
      (right : Spine n v) : Spine (n + m) (w ++ op :: v)

namespace Spine

variable {n m : Nat} {op : Token} {w v : List Token}

/-- More room does no harm. -/
theorem add_room (h : Spine n w) (d : Nat) : Spine (n + d) w := by
  induction h with
  | product hw => exact .product hw
  | negation hword operand ih =>
      rw [Nat.add_right_comm] at ih
      exact .negation hword ih
  | join hop left right ih =>
      have hjoin := Spine.join hop left ih
      rwa [Nat.add_right_comm] at hjoin

/-- Two spines with an operator between them are one.  The room that the first was given is still
there for the second. -/
theorem append {a b : Nat} (left : Spine a w) (hop : Joins op.kind m) (right : Spine b v) :
    Spine (a + b + m) (w ++ op :: v) := by
  induction left with
  | @product a w hw =>
      have hjoin := (Spine.join hop hw right).add_room a
      have hroom : b + m + a = a + b + m := by omega
      rwa [hroom] at hjoin
  | @negation a word w hword operand ih =>
      have hroom : a + 1 + b + m = a + b + m + 1 := by omega
      rw [hroom] at ih
      exact .negation hword ih
  | @join a m' op' w' v' hop' left' right' ih =>
      have hjoin := Spine.join hop' left' ih
      have hroom : a + b + m + m' = a + m' + b + m := by omega
      rw [hroom] at hjoin
      rwa [List.append_assoc, List.cons_append]

end Spine

/-! ### A spine has a derivation with longest operands -/

/-- What is left of a spine behind its longest sum: nothing, or a comparison that there is room
for. -/
inductive Tail : Nat → List Token → Prop where
  | nil {n : Nat} : Tail n []
  | comparison {n : Nat} {op : Token} {o : Comparison} {v : List Token}
      (hop : Comparison.ofKind? op.kind = some o) (right : Spine n v) : Tail (n + 1) (op :: v)

/-- The kind of the first of some tokens, or the kind behind them if there are none. -/
def nextKind (rest : List Token) (k : Token.Kind) : Token.Kind :=
  (rest.head?.map Token.kind).getD k

/-- A `not` whose operand has a comparison may end where a sum ends. -/
theorem Tail.mayEnd {n : Nat} {rest : List Token} {k : Token.Kind} (h : Tail n rest)
    (hk : MayEnd false k) : MayEnd true (nextKind rest k) := by
  cases h with
  | nil => exact hk.of_false
  | comparison hop right => exact ⟨(Comparison.closes_of_ofKind? hop).2, fun _ => rfl⟩

theorem IsProduct.exists_sum {w : List Token} (hw : IsProduct w) (k : Token.Kind) :
    ∃ e, Derivation (.tower .additive) w k e := by
  obtain ⟨e, h⟩ := hw k
  exact ⟨e, .single .term (.product h)⟩

/-- A product and an additive operator may be put before a sum.  The tree of the sum is then another
one, since it groups to the left. -/
theorem IsProduct.exists_sum_cons {w v : List Token} {op : Token} {o : BinaryOp} {k : Token.Kind}
    (hw : IsProduct w) (hop : Level.additive.operator? op.kind = some o) {e : Expr}
    (h : Derivation (.tower .additive) v k e) :
    ∃ f, Derivation (.tower .additive) (w ++ op :: v) k f := by
  generalize hq : Phrase.tower .additive = q at h
  induction h with
  | single hp whole ih =>
      cases hq
      obtain ⟨f, hf⟩ := hw.exists_sum op.kind
      exact ⟨_, .grow hp hop hf whole⟩
  | grow hp hop' left right ihleft ihright =>
      cases hq
      obtain ⟨f, hf⟩ := ihleft rfl
      rw [← List.cons_append, ← List.append_assoc]
      exact ⟨_, .grow hp hop' hf right⟩
  | val | bare | letIn | logical | sum | comparison | negation | product | sign | group | literal
  | name => cases hq

/-- A spine starts with a sum in which every `not` takes its longest operand, and the room that is
left is enough for what follows. -/
theorem Spine.exists_sum {n : Nat} {w : List Token} {k : Token.Kind} (h : Spine n w)
    (hk : MayEnd false k) :
    ∃ u rest e, w = u ++ rest ∧ Tail n rest ∧
      Derivation (.tower .additive) u (nextKind rest k) e := by
  -- by the number of tokens: a `not` needs the sum behind it, and then the sum behind the comparison
  -- that it takes, which is no part of the first
  obtain ⟨size, hsize⟩ : ∃ size, w.length = size := ⟨_, rfl⟩
  induction size using Nat.strongRecOn generalizing n w with
  | ind size ih =>
      subst hsize
      cases h with
      | product hw =>
          obtain ⟨e, he⟩ := hw.exists_sum k
          exact ⟨w, [], e, (List.append_nil w).symm, .nil, he⟩
      | @negation _ word w hword operand =>
          obtain ⟨u, rest, e, rfl, htail, hu⟩ := ih w.length (by simp) operand rfl
          cases htail with
          | nil =>
              have hterm := Derivation.negation hword (.sum hu) hk
              exact ⟨word :: u, [], _, by simp, .nil, .single .term hterm⟩
          | @comparison _ op o v hop right =>
              obtain ⟨u', rest', f, rfl, htail', hu'⟩ := ih v.length (by simp; omega) right rfl
              -- the `not` takes the comparison into the room that it opened itself, so a second one
              -- finds the room that was there before
              have hterm := Derivation.negation hword (.comparison hop hu hu') (htail'.mayEnd hk)
              exact ⟨word :: (u ++ op :: u'), rest', _, by simp, htail', .single .term hterm⟩
      | @join n m op w v hop left right =>
          cases hop with
          | additive hop =>
              obtain ⟨u, rest, e, rfl, htail, hu⟩ := ih v.length (by simp; omega) right rfl
              obtain ⟨f, hf⟩ := left.exists_sum_cons hop hu
              exact ⟨w ++ op :: u, rest, f, by simp, htail, hf⟩
          | comparison hop =>
              obtain ⟨e, he⟩ := left.exists_sum op.kind
              exact ⟨w, op :: v, e, rfl, .comparison hop right, he⟩

/-- A spine with room for one comparison is a relation. -/
theorem Spine.exists_relation {w : List Token} {k : Token.Kind} (h : Spine 1 w)
    (hk : MayEnd false k) : ∃ compared e, Derivation (.relation compared) w k e := by
  obtain ⟨u, rest, e, rfl, htail, hu⟩ := h.exists_sum hk
  cases htail with
  | nil =>
      rw [List.append_nil]
      exact ⟨false, e, .sum hu⟩
  | @comparison _ op o v hop right =>
      obtain ⟨u', rest', f, rfl, htail', hu'⟩ := right.exists_sum hk
      -- the room is used up, so nothing is left behind the second sum
      cases htail'
      rw [List.append_nil]
      exact ⟨true, _, .comparison hop hu hu'⟩

/-! ### What the grammar derives has a derivation -/

/-- What all that is derived from a rule has in common.  Relations and below are known by their room
alone, since their derivation depends on what follows. -/
def Rule.Meaning : Rule → List Token → Prop
  | program, w => ∃ es, ProgramDerivation w es
  | statement, w => ∀ k, MayEnd false k → ∃ e, Derivation .statement w k e
  | expr, w => ∀ k, MayEnd false k → ∃ e, Derivation .expr w k e
  | relation, w => Spine 1 w
  | sum, w => Spine 0 w
  | term, w => Spine 0 w
  | factor, w => ∀ k, ∃ e, Derivation .factor w k e

namespace Rule

open Ebnf

theorem meaning_program {w : List Token} (h : program.body.Fits Meaning w) :
    Meaning program w := by
  obtain ⟨parts, hparts, rfl⟩ := h
  induction parts with
  | nil => exact ⟨[], .nil⟩
  | cons part parts ih =>
      obtain ⟨⟨u, v, hu, hv, rfl⟩, hothers⟩ := List.forall_mem_cons.mp hparts
      obtain ⟨sep, hsep, rfl⟩ := fits_token.mp hv
      obtain ⟨e, he⟩ := hu .semicolon (.of_separator (by decide))
      obtain ⟨es, hes⟩ := ih hothers
      rw [List.flatten_cons, List.append_assoc]
      exact ⟨e :: es, .cons hsep he hes⟩

theorem meaning_statement {w : List Token} (h : statement.body.Fits Meaning w) :
    Meaning statement w := by
  intro k hk
  rcases h with ⟨_, v, ⟨_, _, ⟨_, _, fword, fname, rfl⟩, fassign, rfl⟩, hv, rfl⟩ | hw
  · obtain ⟨word, hword, rfl⟩ := fits_token.mp fword
    obtain ⟨name, hname, rfl⟩ := fits_token.mp fname
    obtain ⟨assign, hassign, rfl⟩ := fits_token.mp fassign
    obtain ⟨e, he⟩ := hv k hk
    exact ⟨_, .val hword hname hassign he⟩
  · obtain ⟨e, he⟩ := hw k hk
    exact ⟨e, .bare he⟩

/-- Relations with `and` and `or` between them. -/
theorem exists_logical {w : List Token}
    (h : (repeated (rule relation) [.andWord, .orWord]).Fits Meaning w) :
    ∀ k, MayEnd false k → ∃ e, Derivation (.tower .logical) w k e := by
  refine Fits.repeated_induction
    (P := fun w => ∀ k, MayEnd false k → ∃ e, Derivation (.tower .logical) w k e) ?_ ?_ h
  · intro u hu k hk
    obtain ⟨compared, e, he⟩ := Spine.exists_relation hu hk
    exact ⟨e, .single (.relation compared) he⟩
  · intro u op v hu hop hv k hk
    obtain ⟨o, ho⟩ := (Level.mem_operators (l := .logical)).mp hop
    obtain ⟨e, he⟩ := hu op.kind (Level.closes_of_operator? ho).2
    obtain ⟨compared, f, hf⟩ := Spine.exists_relation hv hk
    exact ⟨_, .grow (.relation compared) ho he hf⟩

theorem meaning_expr {w : List Token} (h : expr.body.Fits Meaning w) : Meaning expr w := by
  intro k hk
  rcases h with ⟨_, v, ⟨_, _, ⟨_, u, ⟨_, _, ⟨_, _, fword, fname, rfl⟩, fassign, rfl⟩, hu, rfl⟩,
    fsep, rfl⟩, hv, rfl⟩ | hw
  · obtain ⟨word, hword, rfl⟩ := fits_token.mp fword
    obtain ⟨name, hname, rfl⟩ := fits_token.mp fname
    obtain ⟨assign, hassign, rfl⟩ := fits_token.mp fassign
    obtain ⟨sep, hsep, rfl⟩ := fits_token.mp fsep
    obtain ⟨e, he⟩ := hu .inWord (.of_separator (by decide))
    obtain ⟨f, hf⟩ := hv k hk
    have hlet := Derivation.letIn hword hname hassign hsep he hf
    exact ⟨_, by simpa using hlet⟩
  · obtain ⟨e, he⟩ := exists_logical hw k hk
    exact ⟨e, .logical he⟩

theorem meaning_relation {w : List Token} (h : relation.body.Fits Meaning w) :
    Meaning relation w := by
  obtain ⟨u, v, hu, rfl | ⟨_, v, ⟨op, hop, rfl⟩, hv, rfl⟩, rfl⟩ := h
  · rw [List.append_nil]
    exact Spine.add_room hu 1
  · obtain ⟨o, ho⟩ := Comparison.mem_kinds.mp hop
    exact Spine.append hu (.comparison ho) hv

theorem meaning_sum {w : List Token} (h : sum.body.Fits Meaning w) : Meaning sum w := by
  refine Fits.repeated_induction (P := Spine 0) ?_ ?_ h
  · intro u hu
    exact hu
  · intro u op v hu hop hv
    obtain ⟨o, ho⟩ := (Level.mem_operators (l := .additive)).mp hop
    exact Spine.append hu (.additive ho) hv

/-- Factors with multiplicative operators between them. -/
theorem isProduct {w : List Token}
    (h : (repeated (rule factor) [.star, .slash, .modWord]).Fits Meaning w) : IsProduct w := by
  refine Fits.repeated_induction (P := IsProduct) ?_ ?_ h
  · intro u hu k
    obtain ⟨e, he⟩ := hu k
    exact ⟨e, .single .factor he⟩
  · intro u op v hu hop hv k
    obtain ⟨o, ho⟩ := (Level.mem_operators (l := .multiplicative)).mp hop
    obtain ⟨e, he⟩ := hu op.kind
    obtain ⟨f, hf⟩ := hv k
    exact ⟨_, .grow .factor ho he hf⟩

theorem meaning_term {w : List Token} (h : term.body.Fits Meaning w) : Meaning term w := by
  rcases h with ⟨_, v, fword, hv, rfl⟩ | hw
  · obtain ⟨word, hword, rfl⟩ := fits_token.mp fword
    exact .negation hword hv
  · exact .product (isProduct hw)

theorem meaning_factor {w : List Token} (h : factor.body.Fits Meaning w) : Meaning factor w := by
  intro k
  rcases h with ((⟨_, v, fop, hv, rfl⟩ | ⟨_, _, ⟨_, v, fopening, hv, rfl⟩, fclosing, rfl⟩) |
    ⟨t, ht, rfl⟩) | ft
  · obtain ⟨op, hop, rfl⟩ := fits_token.mp fop
    obtain ⟨e, he⟩ := hv k
    exact ⟨_, .sign hop he⟩
  · obtain ⟨opening, hopening, rfl⟩ := fits_token.mp fopening
    obtain ⟨closing, hclosing, rfl⟩ := fits_token.mp fclosing
    obtain ⟨e, he⟩ := hv .rparen (.of_separator (by decide))
    exact ⟨e, .group hopening hclosing he⟩
  · exact ⟨_, .literal ht⟩
  · obtain ⟨t, ht, rfl⟩ := fits_token.mp ft
    exact ⟨_, .name ht⟩

/-- Each rule passes its meaning on from the parts of its right-hand side. -/
theorem meaning_of_fits (r : Rule) (w : List Token) (h : r.body.Fits Meaning w) :
    r.Meaning w := by
  cases r with
  | program => exact meaning_program h
  | statement => exact meaning_statement h
  | expr => exact meaning_expr h
  | relation => exact meaning_relation h
  | sum => exact meaning_sum h
  | term => exact meaning_term h
  | factor => exact meaning_factor h

end Rule

/-- Tokens have a derivation as a program exactly if the grammar derives their kinds. -/
theorem exists_programDerivation_iff {w : List Token} :
    (∃ es, ProgramDerivation w es) ↔ Derives (.rule .program) (w.map Token.kind) := by
  constructor
  · intro h
    obtain ⟨es, hes⟩ := h
    exact hes.derives
  · intro h
    exact h.fits Rule.meaning_of_fits rfl

/-! ### Lists of tokens -/

/-- Tokens with an end token behind them.  If they do not end with one, it is added on the line of
the last of them, or on line 1 if there is none. -/
def closed (ts : List Token) : List Token :=
  match ts.getLast? with
  | none => [Token.endAt 1]
  | some t => if t.kind = .endOfInput then ts else ts ++ [Token.endAt t.line]

/-- A cursor on the first of some tokens has the closed tokens ahead. -/
theorem Cursor.exists_closed (ts : List Token) :
    ∃ w closing hclosing, closed ts = w ++ [closing] ∧
      ofTokens ts = ⟨[], w, closing, hclosing⟩ := by
  rcases List.eq_nil_or_concat ts with rfl | ⟨w, t, rfl⟩
  · exact ⟨[], Token.endAt 1, rfl, rfl, rfl⟩
  · rw [List.concat_eq_append]
    by_cases ht : t.kind = .endOfInput
    · exact ⟨w, t, ht, by simp [closed, ht], ofTokens_append w ht⟩
    · exact ⟨w ++ [t], Token.endAt t.line, rfl, by simp [closed, ht], by simp [ofTokens, ht]⟩

/-- **The reader recognises the grammar.**  It reads a program from a list of tokens exactly if the
closed list has only one end token, behind all others, and the grammar derives the kinds of the
others. -/
theorem exists_program_iff (ts : List Token) :
    (∃ p, (Cursor.ofTokens ts).program.1 = .ok p) ↔
      ∃ w t, closed ts = w ++ [t] ∧ t.kind = .endOfInput ∧ (∀ u ∈ w, u.kind ≠ .endOfInput) ∧
        Derives (.rule .program) (w.map Token.kind) := by
  obtain ⟨w, closing, hclosing, hclosed, hcursor⟩ := Cursor.exists_closed ts
  rw [hcursor, hclosed]
  constructor
  · intro h
    obtain ⟨p, hp⟩ := h
    have hderives := (Cursor.program_ok_iff_of_start.mp hp).1.derives
    refine ⟨w, closing, rfl, hclosing, ?_, hderives⟩
    intro u hu hend
    exact hderives.endOfInput_not_mem rfl (List.mem_map.mpr ⟨u, hu, hend⟩)
  · intro h
    obtain ⟨w', t, heq, -, -, hderives⟩ := h
    obtain ⟨rfl, -⟩ := List.append_inj' heq rfl
    obtain ⟨es, hes⟩ := exists_programDerivation_iff.mpr hderives
    exact ⟨⟨es, _⟩, Cursor.program_ok_iff_of_start.mpr ⟨hes, rfl⟩⟩

end LetCalc
