import LetCalc.Proofs.Derivation

/-!
# The grammar

The rules of the language in extended Backus-Naur form, as data (`Rule.body`), and what can be
derived from them (`Derives`): lists of kinds of token.  The grammar alone is ambiguous.  It has two
ways to derive `not a + b`, and says nothing about which tree is meant.

A property of everything that can be derived is shown rule by rule (`Derives.fits`): it is enough
that it passes from the parts of a rule's right-hand side to the whole.  `Ebnf.Fits` says what the
parts are.

Main statement: what has a `Derivation` can be derived from the grammar (`Derivation.derives`,
`ProgramDerivation.derives`).
-/

namespace LetCalc

/-! ### Rules -/

/-- The rules of the grammar. -/
inductive Rule where
  | program
  | statement
  | expr
  | relation
  | sum
  | term
  | factor
  deriving DecidableEq, Repr

/-- The right-hand sides of rules. -/
inductive Ebnf where
  /-- A token of one of these kinds. -/
  | oneOf (kinds : List Token.Kind)
  | rule (r : Rule)
  | seq (a b : Ebnf)
  | alt (a b : Ebnf)
  /-- Any number of times, also none: `{ a }`. -/
  | many (a : Ebnf)
  /-- Once or not at all: `[ a ]`. -/
  | optional (a : Ebnf)
  deriving DecidableEq, Repr

instance : Append Ebnf := ⟨.seq⟩

instance : OrOp Ebnf := ⟨.alt⟩

/-- A token of this kind. -/
def Ebnf.token (k : Token.Kind) : Ebnf :=
  .oneOf [k]

/-- Operands with operators between them: `a { operator a }`. -/
def Ebnf.repeated (a : Ebnf) (operators : List Token.Kind) : Ebnf :=
  a ++ .many (.oneOf operators ++ a)

open Ebnf in
/-- The right-hand side of each rule. -/
def Rule.body : Rule → Ebnf
  | program => many (rule statement ++ token .semicolon)
  | statement => token .valWord ++ token .ident ++ token .assign ++ rule expr ||| rule expr
  | expr =>
    token .letWord ++ token .ident ++ token .assign ++ rule expr ++ token .inWord ++ rule expr |||
      repeated (rule relation) [.andWord, .orWord]
  | relation => rule sum ++ optional (oneOf [.lt, .le, .gt, .ge, .eq, .ne] ++ rule sum)
  | sum => repeated (rule term) [.plus, .minus]
  | term =>
    token .notWord ++ rule relation ||| repeated (rule factor) [.star, .slash, .modWord]
  | factor =>
    token .minus ++ rule factor ||| token .lparen ++ rule expr ++ token .rparen |||
      oneOf [.intLit, .realLit, .trueLit, .falseLit] ||| token .ident

/-- `Derives g ks`: the kinds of token `ks` can be derived from `g`. -/
inductive Derives : Ebnf → List Token.Kind → Prop where
  | oneOf {kinds : List Token.Kind} {k : Token.Kind} (hk : k ∈ kinds) : Derives (.oneOf kinds) [k]
  | rule {r : Rule} {ks : List Token.Kind} (body : Derives r.body ks) : Derives (.rule r) ks
  | seq {a b : Ebnf} {ks ls : List Token.Kind} (first : Derives a ks) (second : Derives b ls) :
      Derives (.seq a b) (ks ++ ls)
  | left {a b : Ebnf} {ks : List Token.Kind} (whole : Derives a ks) : Derives (.alt a b) ks
  | right {a b : Ebnf} {ks : List Token.Kind} (whole : Derives b ks) : Derives (.alt a b) ks
  | done {a : Ebnf} : Derives (.many a) []
  | more {a : Ebnf} {ks ls : List Token.Kind} (first : Derives a ks)
      (others : Derives (.many a) ls) : Derives (.many a) (ks ++ ls)
  | absent {a : Ebnf} : Derives (.optional a) []
  | present {a : Ebnf} {ks : List Token.Kind} (whole : Derives a ks) : Derives (.optional a) ks

/-! ### Properties of all that can be derived -/

namespace Ebnf

/-- The tokens `w` are made up of parts as `g` says, and each part that stands for a rule has the
property that `M` gives to the rule. -/
def Fits (M : Rule → List Token → Prop) : Ebnf → List Token → Prop
  | oneOf kinds, w => ∃ t, t.kind ∈ kinds ∧ w = [t]
  | rule r, w => M r w
  | seq a b, w => ∃ u v, a.Fits M u ∧ b.Fits M v ∧ w = u ++ v
  | alt a b, w => a.Fits M w ∨ b.Fits M w
  | many a, w => ∃ us : List (List Token), (∀ u ∈ us, a.Fits M u) ∧ w = us.flatten
  | optional a, w => w = [] ∨ a.Fits M w

variable {M : Rule → List Token → Prop} {a : Ebnf} {w : List Token}

theorem fits_token {k : Token.Kind} : (token k).Fits M w ↔ ∃ t, t.kind = k ∧ w = [t] := by
  simp [token, Fits]

/-- To show something of operands with operators between them, show it of one operand, and show that
an operator and an operand behind it keep it. -/
theorem Fits.repeated_induction {operators : List Token.Kind} {P : List Token → Prop}
    (first : ∀ u, a.Fits M u → P u)
    (next : ∀ u op v, P u → op.kind ∈ operators → a.Fits M v → P (u ++ op :: v))
    (h : (repeated a operators).Fits M w) : P w := by
  obtain ⟨u, v, hu, ⟨parts, hparts, rfl⟩, rfl⟩ := h
  have hP := first u hu
  clear hu
  -- the operands are taken in from the left, as they stand
  induction parts generalizing u with
  | nil => simpa using hP
  | cons part parts ih =>
      obtain ⟨⟨_, v, ⟨op, hop, rfl⟩, hv, rfl⟩, hothers⟩ := List.forall_mem_cons.mp hparts
      have hnext := next u op v hP hop hv
      simpa using ih (u ++ op :: v) hothers hnext

end Ebnf

/-- What each rule passes on from its parts to the whole holds of all that can be derived. -/
theorem Derives.fits {M : Rule → List Token → Prop} (hM : ∀ r w, r.body.Fits M w → M r w)
    {g : Ebnf} {ks : List Token.Kind} (h : Derives g ks) {w : List Token}
    (hw : w.map Token.kind = ks) : g.Fits M w := by
  induction h generalizing w with
  | oneOf hk =>
      obtain ⟨t, rfl, rfl⟩ := List.map_eq_singleton_iff.mp hw
      exact ⟨t, hk, rfl⟩
  | rule body ih => exact hM _ w (ih hw)
  | seq first second ihfirst ihsecond =>
      obtain ⟨u, v, rfl, hu, hv⟩ := List.map_eq_append_iff.mp hw
      exact ⟨u, v, ihfirst hu, ihsecond hv, rfl⟩
  | left whole ih => exact .inl (ih hw)
  | right whole ih => exact .inr (ih hw)
  | done => exact ⟨[], List.forall_mem_nil _, List.map_eq_nil_iff.mp hw⟩
  | more first others ihfirst ihothers =>
      obtain ⟨u, v, rfl, hu, hv⟩ := List.map_eq_append_iff.mp hw
      obtain ⟨us, hus, rfl⟩ := ihothers hv
      exact ⟨u :: us, List.forall_mem_cons.mpr ⟨ihfirst hu, hus⟩, rfl⟩
  | absent => exact .inl (List.map_eq_nil_iff.mp hw)
  | present whole ih => exact .inr (ih hw)

/-! ### The end of the input -/

/-- Whether a right-hand side names no end token. -/
def Ebnf.isEndless : Ebnf → Bool
  | oneOf kinds => .endOfInput ∉ kinds
  | rule _ => true
  | seq a b => a.isEndless && b.isEndless
  | alt a b => a.isEndless && b.isEndless
  | many a => a.isEndless
  | optional a => a.isEndless

/-- No rule asks for an end token. -/
theorem Rule.isEndless_body (r : Rule) : r.body.isEndless = true := by
  cases r <;> decide

/-- No end token can be derived. -/
theorem Derives.endOfInput_not_mem {g : Ebnf} {ks : List Token.Kind} (h : Derives g ks)
    (hg : g.isEndless = true) : .endOfInput ∉ ks := by
  induction h with
  | oneOf hk =>
      intro hmem
      rw [List.mem_singleton] at hmem
      subst hmem
      exact absurd hk (by simpa [Ebnf.isEndless] using hg)
  | rule body ih => exact ih (Rule.isEndless_body _)
  | seq first second ihfirst ihsecond =>
      obtain ⟨ha, hb⟩ := (Bool.and_eq_true _ _).mp hg
      simp [ihfirst ha, ihsecond hb]
  | left whole ih => exact ih ((Bool.and_eq_true _ _).mp hg).1
  | right whole ih => exact ih ((Bool.and_eq_true _ _).mp hg).2
  | done => exact List.not_mem_nil
  | more first others ihfirst ihothers => simp [ihfirst hg, ihothers hg]
  | absent => exact List.not_mem_nil
  | present whole ih => exact ih hg

/-! ### Derivations follow the grammar -/

/-- The kinds of token that stand for an operator of a level. -/
def Level.operators : Level → List Token.Kind
  | logical => [.andWord, .orWord]
  | additive => [.plus, .minus]
  | multiplicative => [.star, .slash, .modWord]

/-- The operators of a level by what they are taken for. -/
theorem Level.mem_operators {l : Level} {k : Token.Kind} :
    k ∈ l.operators ↔ ∃ o, l.operator? k = some o := by
  cases l <;> cases k <;> simp [operators, operator?]

/-- The kinds of token that stand for a comparison. -/
def Comparison.kinds : List Token.Kind :=
  [.lt, .le, .gt, .ge, .eq, .ne]

/-- The comparisons by what they are taken for. -/
theorem Comparison.mem_kinds {k : Token.Kind} :
    k ∈ Comparison.kinds ↔ ∃ o, Comparison.ofKind? k = some o := by
  cases k <;> simp [kinds, ofKind?]

/-- The rule for what the operators of a level stand between. -/
def Level.operandRule : Level → Rule
  | logical => .relation
  | additive => .term
  | multiplicative => .factor

/-- What the grammar says of a phrase. -/
def Phrase.ebnf : Phrase → Ebnf
  | statement => .rule .statement
  | expr => .rule .expr
  | tower l => .repeated (.rule l.operandRule) l.operators
  | relation _ => .rule .relation
  | term => .rule .term
  | factor => .rule .factor

theorem Level.Operand.ebnf_eq {l : Level} {p : Phrase} (hp : l.Operand p) :
    p.ebnf = .rule l.operandRule := by
  cases hp <;> rfl

theorem Derives.token {t : Token} {k : Token.Kind} (ht : t.kind = k) :
    Derives (.token k) [t.kind] :=
  .oneOf (List.mem_singleton.mpr ht)

/-- A repetition may go on at its end. -/
theorem Derives.many_snoc {a : Ebnf} {ks ls : List Token.Kind} (h : Derives (.many a) ks)
    (last : Derives a ls) : Derives (.many a) (ks ++ ls) := by
  generalize hg : Ebnf.many a = g at h
  induction h with
  | done =>
      cases hg
      simpa using Derives.more last .done
  | more first others ihfirst ihothers =>
      cases hg
      simpa using Derives.more first (ihothers rfl)
  | oneOf | rule | seq | left | right | absent | present => cases hg

/-- One operand is enough. -/
theorem Derives.repeated_single {a : Ebnf} {operators ks : List Token.Kind} (h : Derives a ks) :
    Derives (.repeated a operators) ks := by
  have hseq := Derives.seq h (.done (a := .oneOf operators ++ a))
  rwa [List.append_nil] at hseq

/-- One more operator and operand may stand behind the others. -/
theorem Derives.repeated_grow {a : Ebnf} {operators ks ls : List Token.Kind} {k : Token.Kind}
    (h : Derives (.repeated a operators) ks) (hk : k ∈ operators) (last : Derives a ls) :
    Derives (.repeated a operators) (ks ++ k :: ls) := by
  cases h with
  | @seq _ _ ks₁ ks₂ first others =>
      rw [List.append_assoc]
      exact .seq first (others.many_snoc (.seq (.oneOf hk) last))

/-- What has a derivation can be derived from the grammar. -/
theorem Derivation.derives {p : Phrase} {w : List Token} {k : Token.Kind} {e : Expr}
    (h : Derivation p w k e) : Derives p.ebnf (w.map Token.kind) := by
  induction h with
  | val hword hname hassign value ih =>
      have hval := Derives.seq (.seq (.seq (.token hword) (.token hname)) (.token hassign)) ih
      exact .rule (.left hval)
  | bare whole ih => exact .rule (.right ih)
  | letIn hword hname hassign hsep bound body ihbound ihbody =>
      have hlet := Derives.seq (.seq (.seq (.seq (.seq (.token hword) (.token hname))
        (.token hassign)) ihbound) (.token hsep)) ihbody
      simpa [Phrase.ebnf] using Derives.rule (r := .expr) (.left hlet)
  | logical whole ih => exact .rule (.right ih)
  | single hp whole ih =>
      rw [hp.ebnf_eq] at ih
      exact ih.repeated_single
  | grow hp hop left right ihleft ihright =>
      rw [hp.ebnf_eq] at ihright
      rw [List.map_append, List.map_cons]
      exact ihleft.repeated_grow (Level.mem_operators.mpr ⟨_, hop⟩) ihright
  | sum whole ih =>
      have hsum : Derives (.rule .sum) _ := .rule ih
      have hrelation := Derives.rule (r := .relation) (.seq hsum .absent)
      rwa [List.append_nil] at hrelation
  | comparison hop left right ihleft ihright =>
      have hleft : Derives (.rule .sum) _ := .rule ihleft
      have hright : Derives (.rule .sum) _ := .rule ihright
      rw [List.map_append, List.map_cons]
      exact .rule (.seq hleft
        (.present (.seq (.oneOf (Comparison.mem_kinds.mpr ⟨_, hop⟩)) hright)))
  | negation hword operand hend ih => exact .rule (.left (.seq (.token hword) ih))
  | product whole ih => exact .rule (.right ih)
  | sign hop operand ih => exact .rule (.left (.left (.left (.seq (.token hop) ih))))
  | group hopening hclosing inner ih =>
      have hgroup := Derives.seq (.seq (.token hopening) ih) (.token hclosing)
      simpa [Phrase.ebnf] using Derives.rule (r := .factor) (.left (.left (.right hgroup)))
  | literal ht => exact .rule (.left (.right (.oneOf ht)))
  | name ht => exact .rule (.right (.token ht))

/-- What the reader takes for a program is one by the grammar. -/
theorem ProgramDerivation.derives {w : List Token} {es : List Expr} (h : ProgramDerivation w es) :
    Derives (.rule .program) (w.map Token.kind) := by
  refine .rule ?_
  induction h with
  | nil => exact .done
  | cons hsep first others ih =>
      have hmore := Derives.more (.seq first.derives (.token hsep)) ih
      rw [List.append_assoc] at hmore
      rw [List.map_append, List.map_cons]
      exact hmore

end LetCalc
