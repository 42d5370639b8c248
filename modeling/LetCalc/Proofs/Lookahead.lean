import LetCalc.Proofs.Recognition

/-!
# One token of lookahead

The reader never looks past the token under its cursor, and it never goes back.  This file says so
by a second way to go over tokens, which knows nothing of trees: `Leads g c miss c'` follows the part
`g` of the grammar from the cursor `c`.  Where the grammar leaves a choice, the kind of the token
under the cursor settles it (`Ebnf.opens`).  The way ends at `c'`, either because `g` is complete or
because the token there does not fit; `miss` is what was wanted then.

Three facts about `Leads` are shown by induction, one case for each way to go on:

* `Leads.unique`: there is only one way from a cursor;
* `Leads.exists_derives`: the tokens that were passed are the beginning of something that `g`
  derives, and all of it if nothing is missing;
* `Leads.transport`: the way depends only on the kinds of the tokens passed and of the one at which
  it ends.

Main statement: the reader goes this way (`Cursor.statements_obeys`).
-/

namespace LetCalc

open Cursor

namespace Cursor.Passes

variable {c c' d d' : Cursor} {w v : List Token}

/-- The two ends settle which tokens are passed. -/
theorem tokens_unique (h : c.Passes w c') (h' : c.Passes v c') : w = v := by
  have hpassed := h.passed.symm.trans h'.passed
  exact List.reverse_inj.mp (List.append_cancel_right hpassed)

/-- Two cursors that pass tokens of the same kinds, and get to tokens of one kind, were on tokens of
one kind. -/
theorem peek_kind_eq (h : c.Passes w c') (h' : d.Passes v d')
    (hkinds : v.map Token.kind = w.map Token.kind) (hpeek : d'.peek.kind = c'.peek.kind) :
    d.peek.kind = c.peek.kind := by
  cases w with
  | nil =>
      obtain rfl := List.map_eq_nil_iff.mp hkinds
      obtain rfl := (refl c).unique h
      obtain rfl := (refl d).unique h'
      exact hpeek
  | cons t w =>
      obtain ⟨u, v, rfl, hu, -⟩ := List.map_eq_cons_iff.mp hkinds
      rw [h.peek_eq, h'.peek_eq, hu]

/-- If one cursor stays where it is, then so does one that passes tokens of the same kinds. -/
theorem stays (h : c.Passes w c) (h' : d.Passes v d')
    (hkinds : v.map Token.kind = w.map Token.kind) : d = d' := by
  obtain rfl := h.tokens_unique (refl c)
  obtain rfl := List.map_eq_nil_iff.mp hkinds
  exact (refl d).unique h'

end Cursor.Passes

/-! ### The way through the grammar -/

/-- Whether the reader goes into a part of the grammar at a token of this kind, where it has the
choice.  A rule is gone into at any token but an end token. -/
def Ebnf.opens : Ebnf → Token.Kind → Bool
  | oneOf kinds, k => k ∈ kinds
  | rule _, k => k ≠ .endOfInput
  | seq a _, k => a.opens k
  | alt a b, k => a.opens k || b.opens k
  | many a, k => a.opens k
  | optional a, k => a.opens k

theorem Rule.opens_factor (k : Token.Kind) :
    Rule.factor.body.opens k = decide (k ∈ Token.Kind.factorFirsts) := by
  cases k <;> rfl

/-- `Leads g c miss c'`: following `g` from `c`, with no choice but by the token under the cursor,
gets to `c'`.  If `miss` is `none`, then `g` is complete there; otherwise it goes no further, and
`miss` is what is missing. -/
inductive Leads : Ebnf → Cursor → Option Expectation → Cursor → Prop where
  | pass {kinds : List Token.Kind} {c : Cursor} (hk : c.peek.kind ∈ kinds)
      (hend : c.peek.kind ≠ .endOfInput) : Leads (.oneOf kinds) c none c.advance
  | lack {k : Token.Kind} {c : Cursor} (hk : c.peek.kind ≠ k) :
      Leads (.oneOf [k]) c (some (.token k)) c
  | rule {r : Rule} {c c' : Cursor} {miss : Option Expectation}
      (hr : r = .factor → r.body.opens c.peek.kind = true) (body : Leads r.body c miss c') :
      Leads (.rule r) c miss c'
  /-- A factor is the innermost phrase: with a token that starts none, an expression is missing. -/
  | stray {c : Cursor} (hk : Rule.factor.body.opens c.peek.kind = false) :
      Leads (.rule .factor) c (some .expression) c
  | halt {a b : Ebnf} {c c' : Cursor} {wanted : Expectation}
      (first : Leads a c (some wanted) c') : Leads (.seq a b) c (some wanted) c'
  | seq {a b : Ebnf} {c c₁ c' : Cursor} {miss : Option Expectation}
      (first : Leads a c none c₁) (second : Leads b c₁ miss c') : Leads (.seq a b) c miss c'
  | left {a b : Ebnf} {c c' : Cursor} {miss : Option Expectation}
      (hk : a.opens c.peek.kind = true) (whole : Leads a c miss c') : Leads (.alt a b) c miss c'
  | right {a b : Ebnf} {c c' : Cursor} {miss : Option Expectation}
      (hk : a.opens c.peek.kind = false) (whole : Leads b c miss c') : Leads (.alt a b) c miss c'
  | done {a : Ebnf} {c : Cursor} (hk : a.opens c.peek.kind = false) : Leads (.many a) c none c
  | more {a : Ebnf} {c c' : Cursor} {miss : Option Expectation}
      (hk : a.opens c.peek.kind = true) (whole : Leads (.seq a (.many a)) c miss c') :
      Leads (.many a) c miss c'
  | absent {a : Ebnf} {c : Cursor} (hk : a.opens c.peek.kind = false) :
      Leads (.optional a) c none c
  | present {a : Ebnf} {c c' : Cursor} {miss : Option Expectation}
      (hk : a.opens c.peek.kind = true) (whole : Leads a c miss c') :
      Leads (.optional a) c miss c'

namespace Leads

variable {g a b : Ebnf} {c c' d d' : Cursor} {miss miss' : Option Expectation}

/-- Only the rule of factors asks for a token that starts it. -/
theorem of_body {r : Rule} (hr : r ≠ .factor) (body : Leads r.body c miss c') :
    Leads (.rule r) c miss c' :=
  .rule (fun h => absurd h hr) body

/-- There is only one way from a cursor. -/
theorem unique (h : Leads g c miss c') (h' : Leads g c miss' d) : miss = miss' ∧ c' = d := by
  induction h generalizing miss' d with
  | pass hk hend =>
      cases h' with
      | pass => exact ⟨rfl, rfl⟩
      | lack hk' => exact absurd (List.mem_singleton.mp hk) hk'
  | lack hk =>
      cases h' with
      | pass hk' => exact absurd (List.mem_singleton.mp hk') hk
      | lack => exact ⟨rfl, rfl⟩
  | rule hr body ih =>
      cases h' with
      | rule _ body' => exact ih body'
      | stray hk => simp [hk] at hr
  | stray hk =>
      cases h' with
      | rule hr => simp [hk] at hr
      | stray => exact ⟨rfl, rfl⟩
  | halt first ih =>
      cases h' with
      | halt first' => exact ih first'
      | seq first' => cases (ih first').1
  | seq first second ihfirst ihsecond =>
      cases h' with
      | halt first' => cases (ihfirst first').1
      | seq first' second' =>
          obtain ⟨-, rfl⟩ := ihfirst first'
          exact ihsecond second'
  | left hk whole ih =>
      cases h' with
      | left _ whole' => exact ih whole'
      | right hk' => simp [hk] at hk'
  | right hk whole ih =>
      cases h' with
      | left hk' => simp [hk] at hk'
      | right _ whole' => exact ih whole'
  | done hk =>
      cases h' with
      | done => exact ⟨rfl, rfl⟩
      | more hk' => simp [hk] at hk'
  | more hk whole ih =>
      cases h' with
      | done hk' => simp [hk] at hk'
      | more _ whole' => exact ih whole'
  | absent hk =>
      cases h' with
      | absent => exact ⟨rfl, rfl⟩
      | present hk' => simp [hk] at hk'
  | present hk whole ih =>
      cases h' with
      | absent hk' => simp [hk] at hk'
      | present _ whole' => exact ih whole'

/-- The way goes over tokens. -/
theorem exists_passes (h : Leads g c miss c') : ∃ w, c.Passes w c' := by
  induction h with
  | pass hk hend => exact ⟨_, Passes.advance hend⟩
  | lack | stray | done | absent => exact ⟨[], Passes.refl _⟩
  | seq first second ihfirst ihsecond =>
      obtain ⟨w, pw⟩ := ihfirst
      obtain ⟨v, pv⟩ := ihsecond
      exact ⟨w ++ v, pw.trans pv⟩
  | rule _ _ ih | halt _ ih | left _ _ ih | right _ _ ih | more _ _ ih | present _ _ ih => exact ih

end Leads

/-! ### What was passed is a beginning -/

/-- Whether a part of the grammar has a token to offer wherever it asks for one. -/
def Ebnf.isProductive : Ebnf → Bool
  | oneOf kinds => !kinds.isEmpty
  | rule _ => true
  | seq a b => a.isProductive && b.isProductive
  | alt a b => a.isProductive && b.isProductive
  | many a => a.isProductive
  | optional a => a.isProductive

/-- Every rule has something that it derives. -/
theorem Rule.isProductive_body (r : Rule) : r.body.isProductive = true := by
  cases r <;> decide

/-- Something can be derived from every rule. -/
theorem Rule.exists_derives (r : Rule) : ∃ ks, Derives (.rule r) ks := by
  have hname : Derivation .factor [⟨.ident, "", 0⟩] .semicolon (.ident ⟨.ident, "", 0⟩) := .name rfl
  cases r with
  | program => exact ⟨[], .rule .done⟩
  | statement => exact ⟨_, (Derivation.bare hname.expr_of_factor).derives⟩
  | expr => exact ⟨_, hname.expr_of_factor.derives⟩
  | relation => exact ⟨_, hname.relation_of_factor.derives⟩
  | sum => exact ⟨_, .rule hname.sum_of_factor.derives⟩
  | term => exact ⟨_, (Derivation.product hname.product_of_factor).derives⟩
  | factor => exact ⟨_, hname.derives⟩

/-- Something can be derived from every part of the grammar. -/
theorem Ebnf.exists_derives {g : Ebnf} (hg : g.isProductive = true) : ∃ ks, Derives g ks := by
  induction g with
  | oneOf kinds =>
      cases kinds with
      | nil => cases hg
      | cons k kinds => exact ⟨[k], .oneOf List.mem_cons_self⟩
  | rule r => exact r.exists_derives
  | seq a b iha ihb =>
      obtain ⟨ha, hb⟩ := (Bool.and_eq_true _ _).mp hg
      obtain ⟨ks, hks⟩ := iha ha
      obtain ⟨ls, hls⟩ := ihb hb
      exact ⟨ks ++ ls, .seq hks hls⟩
  | alt a b iha ihb =>
      obtain ⟨ks, hks⟩ := iha ((Bool.and_eq_true _ _).mp hg).1
      exact ⟨ks, .left hks⟩
  | many a => exact ⟨[], .done⟩
  | optional a => exact ⟨[], .absent⟩

namespace Leads

variable {g a b : Ebnf} {c c' d d' : Cursor} {miss : Option Expectation} {w v : List Token}

/-- The tokens passed are the beginning of something that can be derived.  Nothing has to be added to
them if nothing is missing. -/
theorem exists_derives (h : Leads g c miss c') (hg : g.isProductive = true) (hpass : c.Passes w c') :
    ∃ ls, Derives g (w.map Token.kind ++ ls) ∧ (miss = none → ls = []) := by
  induction h generalizing w with
  | pass hk hend =>
      obtain rfl := hpass.tokens_unique (Passes.advance hend)
      exact ⟨[], .oneOf hk, fun _ => rfl⟩
  | @lack k c hk =>
      obtain rfl := hpass.tokens_unique (Passes.refl c)
      exact ⟨[k], .oneOf (List.mem_singleton.mpr rfl), nofun⟩
  | rule hr body ih =>
      obtain ⟨ls, hls, hnone⟩ := ih (Rule.isProductive_body _) hpass
      exact ⟨ls, .rule hls, hnone⟩
  | @stray c hk =>
      obtain rfl := hpass.tokens_unique (Passes.refl c)
      obtain ⟨ls, hls⟩ := Rule.factor.exists_derives
      exact ⟨ls, hls, nofun⟩
  | halt first ih =>
      obtain ⟨ha, hb⟩ := (Bool.and_eq_true _ _).mp hg
      obtain ⟨ls, hls, -⟩ := ih ha hpass
      obtain ⟨ms, hms⟩ := Ebnf.exists_derives hb
      refine ⟨ls ++ ms, ?_, nofun⟩
      rw [← List.append_assoc]
      exact .seq hls hms
  | seq first second ihfirst ihsecond =>
      obtain ⟨ha, hb⟩ := (Bool.and_eq_true _ _).mp hg
      obtain ⟨u, pu⟩ := first.exists_passes
      obtain ⟨v, pv⟩ := second.exists_passes
      obtain rfl := hpass.tokens_unique (pu.trans pv)
      obtain ⟨ks, hks, hnil⟩ := ihfirst ha pu
      obtain ⟨ls, hls, hnone⟩ := ihsecond hb pv
      refine ⟨ls, ?_, hnone⟩
      rw [hnil rfl, List.append_nil] at hks
      rw [List.map_append, List.append_assoc]
      exact .seq hks hls
  | left hk whole ih =>
      obtain ⟨ls, hls, hnone⟩ := ih ((Bool.and_eq_true _ _).mp hg).1 hpass
      exact ⟨ls, .left hls, hnone⟩
  | right hk whole ih =>
      obtain ⟨ls, hls, hnone⟩ := ih ((Bool.and_eq_true _ _).mp hg).2 hpass
      exact ⟨ls, .right hls, hnone⟩
  | @done a c hk =>
      obtain rfl := hpass.tokens_unique (Passes.refl c)
      exact ⟨[], .done, fun _ => rfl⟩
  | more hk whole ih =>
      obtain ⟨ls, hls, hnone⟩ := ih ((Bool.and_eq_true _ _).mpr ⟨hg, hg⟩) hpass
      refine ⟨ls, ?_, hnone⟩
      generalize w.map Token.kind ++ ls = ks at hls
      cases hls with
      | seq first others => exact .more first others
  | @absent a c hk =>
      obtain rfl := hpass.tokens_unique (Passes.refl c)
      exact ⟨[], .absent, fun _ => rfl⟩
  | present hk whole ih =>
      obtain ⟨ls, hls, hnone⟩ := ih hg hpass
      exact ⟨ls, .present hls, hnone⟩

/-- The way depends only on the kinds of the tokens passed and of the one at which it ends. -/
theorem transport (h : Leads g c miss c') (hpass : c.Passes w c') (hpass' : d.Passes v d')
    (hkinds : v.map Token.kind = w.map Token.kind) (hpeek : d'.peek.kind = c'.peek.kind) :
    Leads g d miss d' := by
  have hstart := hpass.peek_kind_eq hpass' hkinds hpeek
  induction h generalizing w v d d' with
  | @pass kinds c hk hend =>
      obtain rfl := hpass.tokens_unique (Passes.advance hend)
      obtain ⟨t, rfl, ht⟩ := List.map_eq_singleton_iff.mp hkinds
      obtain ⟨-, rfl⟩ := (Passes.one_iff (ht ▸ hend)).mp hpass'
      exact .pass (hstart ▸ hk) (hstart ▸ hend)
  | lack hk =>
      obtain rfl := hpass.stays hpass' hkinds
      exact .lack (hstart ▸ hk)
  | rule hr body ih => exact .rule (hstart ▸ hr) (ih hpass hpass' hkinds hpeek hstart)
  | stray hk =>
      obtain rfl := hpass.stays hpass' hkinds
      exact .stray (hstart ▸ hk)
  | halt first ih => exact .halt (ih hpass hpass' hkinds hpeek hstart)
  | seq first second ihfirst ihsecond =>
      obtain ⟨w₁, p₁⟩ := first.exists_passes
      obtain ⟨w₂, p₂⟩ := second.exists_passes
      obtain rfl := hpass.tokens_unique (p₁.trans p₂)
      rw [List.map_append] at hkinds
      obtain ⟨v₁, v₂, rfl, hv₁, hv₂⟩ := List.map_eq_append_iff.mp hkinds
      obtain ⟨d₁, q₁, q₂⟩ := hpass'.split
      -- where the first part ends, both cursors are on tokens of one kind again
      have hmiddle := p₂.peek_kind_eq q₂ hv₂ hpeek
      exact .seq (ihfirst p₁ q₁ hv₁ hmiddle hstart) (ihsecond p₂ q₂ hv₂ hpeek hmiddle)
  | left hk whole ih => exact .left (hstart ▸ hk) (ih hpass hpass' hkinds hpeek hstart)
  | right hk whole ih => exact .right (hstart ▸ hk) (ih hpass hpass' hkinds hpeek hstart)
  | done hk =>
      obtain rfl := hpass.stays hpass' hkinds
      exact .done (hstart ▸ hk)
  | more hk whole ih => exact .more (hstart ▸ hk) (ih hpass hpass' hkinds hpeek hstart)
  | absent hk =>
      obtain rfl := hpass.stays hpass' hkinds
      exact .absent (hstart ▸ hk)
  | present hk whole ih => exact .present (hstart ▸ hk) (ih hpass hpass' hkinds hpeek hstart)

/-- A literal is passed as a factor. -/
theorem literal (hk : c.peek.kind ∈ Token.Kind.literals) :
    Leads (.rule .factor) c none c.advance := by
  simp only [Token.Kind.literals, List.mem_cons, List.not_mem_nil, or_false] at hk
  rcases hk with h | h | h | h
  all_goals
    refine .rule (fun _ => by rw [h]; rfl) (.left (by rw [h]; rfl) (.right (by rw [h]; rfl) ?_))
    exact .pass (by rw [h]; decide) (by rw [h]; decide)

/-- A name is passed as a factor. -/
theorem name (hk : c.peek.kind = .ident) : Leads (.rule .factor) c none c.advance := by
  refine .rule (fun _ => by rw [hk]; rfl) (.right (by rw [hk]; rfl) ?_)
  exact .pass (List.mem_singleton.mpr hk) (by rw [hk]; decide)

/-- A sequence may be grouped in either way. -/
theorem assoc (h : Leads (.seq a (.seq b g)) c miss c') : Leads (.seq (.seq a b) g) c miss c' := by
  cases h with
  | halt first => exact .halt (.halt first)
  | seq first rest =>
      cases rest with
      | halt second => exact .halt (.seq first second)
      | seq second third => exact .seq (.seq first second) third

/-- A program has no way but by the body of its rule. -/
theorem body (h : Leads (.rule .program) c miss c') : Leads Rule.program.body c miss c' := by
  cases h with
  | rule _ body => exact body

end Leads

/-! ### The reader goes this way -/

/-- The result of a rule obeys `g` if the rule has gone the way that `g` leads from `c`.  The cursor
of a success is found in it by `next`. -/
def Obeys {α : Type} (next : α → Cursor) (g : Ebnf) (c : Cursor) : Except Stop α → Prop
  | .ok a => Leads g c none (next a)
  | .error s => Leads g c (some s.wanted) s.place

namespace Obeys

variable {α β : Type} {next : α → Cursor} {next' : β → Cursor} {g a b : Ebnf} {c : Cursor}
  {r : Except Stop α}

/-- If every way by `a` is also one by `b`, then what obeys `a` obeys `b`. -/
theorem imp {c c₁ : Cursor} (h : Obeys next a c₁ r)
    (hab : ∀ miss c', Leads a c₁ miss c' → Leads b c miss c') : Obeys next b c r := by
  cases r with
  | ok x => exact hab _ _ h
  | error s => exact hab _ _ h

/-- Two rules in a row obey a sequence. -/
theorem bind {f : α → Except Stop β} (h : Obeys next a c r)
    (hf : ∀ x, Obeys next' b (next x) (f x)) : Obeys next' (.seq a b) c (r >>= f) := by
  cases r with
  | error s => exact .halt h
  | ok x => exact (hf x).imp fun _ _ hway => .seq h hway

/-- What is made of the value of a rule has no part in where the rule goes. -/
theorem map {f : α → β} (h : Obeys next a c r) (hf : ∀ x, next' (f x) = next x) :
    Obeys next' a c (r >>= fun x => pure (f x)) := by
  cases r with
  | error s => exact h
  | ok x =>
      show Leads a c none (next' (f x))
      rw [hf]
      exact h

/-- A token that was looked at may be passed before a rule. -/
theorem after {kinds : List Token.Kind} (hk : c.peek.kind ∈ kinds)
    (hend : c.peek.kind ≠ .endOfInput) (h : Obeys next b c.advance r) :
    Obeys next (.seq (.oneOf kinds) b) c r :=
  h.imp fun _ _ hway => .seq (.pass hk hend) hway

end Obeys

namespace Cursor

/-- Asking for a token obeys the grammar of one token. -/
theorem expect_obeys (c : Cursor) (k : Token.Kind) (hk : k ≠ .endOfInput) :
    Obeys Parsed.next (.token k) c (c.expect k hk) := by
  unfold expect
  split
  · rename_i h
    exact .pass (List.mem_singleton.mpr h) (h ▸ hk)
  · rename_i h
    exact .lack h

mutual

theorem expr_obeys (c : Cursor) : Obeys Parsed.next (.rule .expr) c c.expr := by
  rw [expr]
  split
  · rename_i h
    have hend : c.peek.kind ≠ .endOfInput := by rw [h]; decide
    have hstep := advance_remaining hend
    refine Obeys.imp (a := .seq (.token .letWord) (.seq (.token .ident) (.seq (.token .assign)
      (.seq (.rule .expr) (.seq (.token .inWord) (.rule .expr)))))) ?_
      fun _ _ hway => .of_body (by decide) (.left (by rw [h]; rfl) hway.assoc.assoc.assoc.assoc)
    refine .after (List.mem_singleton.mpr h) hend ?_
    refine (expect_obeys c.advance .ident (by decide)).bind ?_
    rintro ⟨name, c₁, h₁⟩
    refine (expect_obeys c₁ .assign (by decide)).bind ?_
    rintro ⟨_, c₂, h₂⟩
    refine (expr_obeys c₂).bind ?_
    rintro ⟨bound, c₃, h₃⟩
    refine (expect_obeys c₃ .inWord (by decide)).bind ?_
    rintro ⟨_, c₄, h₄⟩
    exact (expr_obeys c₄).map fun _ => rfl
  · rename_i h
    exact (tower_obeys .logical c).imp fun _ _ hway =>
      .of_body (by decide) (.right (decide_eq_false (mt List.mem_singleton.mp h)) hway)
termination_by 10 * c.remaining + 9

/-- A level obeys the repetition that the grammar has for it. -/
theorem tower_obeys (l : Level) (c : Cursor) :
    Obeys Parsed.next (.repeated (.rule l.operandRule) l.operators) c (c.tower l) := by
  rw [tower]
  refine (operand_obeys l c).bind ?_
  rintro ⟨first, c₁, h₁⟩
  exact (chain_obeys l first c₁).map fun _ => rfl
termination_by 10 * c.remaining + l.rank + 1

/-- So does the chain behind the first operand. -/
theorem chain_obeys (l : Level) (left : Expr) (c : Cursor) :
    Obeys Parsed.next (.many (.oneOf l.operators ++ .rule l.operandRule)) c (c.chain l left) := by
  rw [chain]
  split
  · rename_i h
    have hk : c.peek.kind ∉ l.operators := by
      rw [Level.mem_operators, h]
      exact nofun
    exact .done (decide_eq_false hk)
  · rename_i o h
    have hend := Level.ne_endOfInput_of_operator? h
    have hstep := advance_remaining hend
    have hl := l.rank_le
    have hk : c.peek.kind ∈ l.operators := Level.mem_operators.mpr ⟨o, h⟩
    refine Obeys.imp (a := .seq (.oneOf l.operators) (.seq (.rule l.operandRule)
      (.many (.oneOf l.operators ++ .rule l.operandRule)))) ?_
      fun _ _ hway => .more (decide_eq_true hk) hway.assoc
    refine .after hk hend ?_
    refine (operand_obeys l c.advance).bind ?_
    rintro ⟨right, c₁, h₁⟩
    exact (chain_obeys l _ c₁).map fun _ => rfl
termination_by 10 * c.remaining

/-- The operands of a level obey their rule. -/
theorem operand_obeys (l : Level) (c : Cursor) :
    Obeys Parsed.next (.rule l.operandRule) c (c.operand l) := by
  cases l with
  | logical =>
      rw [operand]
      exact relation_obeys c
  | additive =>
      rw [operand]
      exact term_obeys c
  | multiplicative =>
      rw [operand]
      exact factor_obeys c
termination_by 10 * c.remaining + l.rank

theorem relation_obeys (c : Cursor) : Obeys Parsed.next (.rule .relation) c c.relation := by
  have hsum : ∀ d : Cursor, 10 * d.remaining + 5 < 10 * c.remaining + 6 →
      Obeys Parsed.next (.rule .sum) d (d.tower .additive) := fun d hd =>
    (tower_obeys .additive d).imp fun _ _ hway => .of_body (by decide) hway
  rw [relation]
  refine Obeys.imp (a := .seq (.rule .sum) (.optional (.seq (.oneOf Comparison.kinds) (.rule .sum))))
    ?_ fun _ _ hway => .of_body (by decide) hway
  refine (hsum c (by omega)).bind ?_
  rintro ⟨left, c₁, h₁⟩
  dsimp only
  split
  · rename_i h
    have hk : c₁.peek.kind ∉ Comparison.kinds := by
      rw [Comparison.mem_kinds, h]
      exact nofun
    exact .absent (decide_eq_false hk)
  · rename_i o h
    have hend := Comparison.ne_endOfInput_of_ofKind? h
    have hstep := advance_remaining hend
    have hk : c₁.peek.kind ∈ Comparison.kinds := Comparison.mem_kinds.mpr ⟨o, h⟩
    refine Obeys.imp (a := .seq (.oneOf Comparison.kinds) (.rule .sum)) ?_
      fun _ _ hway => .present (decide_eq_true hk) hway
    refine .after hk hend ?_
    exact (hsum c₁.advance (by omega)).map fun _ => rfl
termination_by 10 * c.remaining + 6

theorem term_obeys (c : Cursor) : Obeys Parsed.next (.rule .term) c c.term := by
  rw [term]
  split
  · rename_i h
    have hend : c.peek.kind ≠ .endOfInput := by rw [h]; decide
    have hstep := advance_remaining hend
    refine Obeys.imp (a := .seq (.token .notWord) (.rule .relation)) ?_
      fun _ _ hway => .of_body (by decide) (.left (by rw [h]; rfl) hway)
    refine .after (List.mem_singleton.mpr h) hend ?_
    exact (relation_obeys c.advance).map fun _ => rfl
  · rename_i h
    exact (tower_obeys .multiplicative c).imp fun _ _ hway =>
      .of_body (by decide) (.right (decide_eq_false (mt List.mem_singleton.mp h)) hway)
termination_by 10 * c.remaining + 3

theorem factor_obeys (c : Cursor) : Obeys Parsed.next (.rule .factor) c c.factor := by
  rw [factor]
  split
  · rename_i h
    have hend : c.peek.kind ≠ .endOfInput := by rw [h]; decide
    have hstep := advance_remaining hend
    refine Obeys.imp (a := .seq (.token .minus) (.rule .factor)) ?_ fun _ _ hway =>
      .rule (fun _ => by rw [h]; rfl)
        (.left (by rw [h]; rfl) (.left (by rw [h]; rfl) (.left (by rw [h]; rfl) hway)))
    refine .after (List.mem_singleton.mpr h) hend ?_
    exact (factor_obeys c.advance).map fun _ => rfl
  · rename_i h
    have hend : c.peek.kind ≠ .endOfInput := by rw [h]; decide
    have hstep := advance_remaining hend
    refine Obeys.imp (a := .seq (.token .lparen) (.seq (.rule .expr) (.token .rparen))) ?_
      fun _ _ hway => .rule (fun _ => by rw [h]; rfl)
        (.left (by rw [h]; rfl) (.left (by rw [h]; rfl) (.right (by rw [h]; rfl) hway.assoc)))
    refine .after (List.mem_singleton.mpr h) hend ?_
    refine (expr_obeys c.advance).bind ?_
    rintro ⟨inner, c₁, h₁⟩
    exact (expect_obeys c₁ .rparen (by decide)).map fun _ => rfl
  case h_7 h => exact Leads.name h
  case h_8 =>
    refine .stray ?_
    rw [Rule.opens_factor]
    simp_all [Token.Kind.factorFirsts, Token.Kind.literals]
  all_goals
    rename_i h
    exact Leads.literal (by rw [h]; decide)
termination_by 10 * c.remaining

end

theorem statement_obeys (c : Cursor) : Obeys Parsed.next (.rule .statement) c c.statement := by
  rw [statement]
  split
  · rename_i h
    have hend : c.peek.kind ≠ .endOfInput := by rw [h]; decide
    refine Obeys.imp (a := .seq (.token .valWord) (.seq (.token .ident) (.seq (.token .assign)
      (.rule .expr)))) ?_ fun _ _ hway => .of_body (by decide) (.left (by rw [h]; rfl) hway.assoc.assoc)
    refine .after (List.mem_singleton.mpr h) hend ?_
    refine (expect_obeys c.advance .ident (by decide)).bind ?_
    rintro ⟨name, c₁, h₁⟩
    refine (expect_obeys c₁ .assign (by decide)).bind ?_
    rintro ⟨_, c₂, h₂⟩
    exact (expr_obeys c₂).map fun _ => rfl
  · rename_i h
    exact (expr_obeys c).imp fun _ _ hway =>
      .of_body (by decide) (.right (decide_eq_false (mt List.mem_singleton.mp h)) hway)

/-- The statements of a program are read the way that the grammar leads. -/
theorem statements_obeys (c : Cursor) : Obeys Prod.snd (.rule .program) c c.statements := by
  rw [statements]
  split
  · rename_i h
    exact .of_body (by decide) (.done (by rw [h]; rfl))
  · rename_i h
    refine Obeys.imp (a := .seq (.rule .statement) (.seq (.token .semicolon) Rule.program.body)) ?_
      fun _ _ hway => .of_body (by decide) (.more (decide_eq_true h) hway.assoc)
    refine (statement_obeys c).bind ?_
    rintro ⟨first, c₁, h₁⟩
    refine (expect_obeys c₁ .semicolon (by decide)).bind ?_
    rintro ⟨_, c₂, h₂⟩
    have hothers : Obeys Prod.snd (.rule .program) c₂
        (c₂.statements >>= fun x => pure (first :: x.1, x.2)) :=
      (statements_obeys c₂).map fun _ => rfl
    exact hothers.imp fun _ _ hway => hway.body
termination_by c.remaining

/-- The statements of a program are read up to `c'` exactly if the grammar leads there. -/
theorem exists_statements_ok_iff {c c' : Cursor} :
    (∃ es, c.statements = .ok (es, c')) ↔ Leads (.rule .program) c none c' := by
  have hobeys := c.statements_obeys
  constructor
  · rintro ⟨es, h⟩
    rw [h] at hobeys
    exact hobeys
  · intro hway
    cases h : c.statements with
    | ok x =>
        rw [h] at hobeys
        obtain ⟨-, rfl⟩ := hobeys.unique hway
        exact ⟨x.1, rfl⟩
    | error s =>
        rw [h] at hobeys
        cases (hobeys.unique hway).1

/-- Reading the statements of a program stops exactly where something is missing on the way that the
grammar leads. -/
theorem statements_error_iff {c c' : Cursor} {wanted : Expectation} :
    c.statements = .error ⟨wanted, c'⟩ ↔ Leads (.rule .program) c (some wanted) c' := by
  have hobeys := c.statements_obeys
  constructor
  · intro h
    rw [h] at hobeys
    exact hobeys
  · intro hway
    cases h : c.statements with
    | ok x =>
        rw [h] at hobeys
        cases (hobeys.unique hway).1
    | error s =>
        rw [h] at hobeys
        obtain ⟨hwanted, rfl⟩ := hobeys.unique hway
        cases hwanted
        rfl

end Cursor

end LetCalc
