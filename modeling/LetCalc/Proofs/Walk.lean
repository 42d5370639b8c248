import LetCalc.Proofs.Resuming

/-!
# The reader step by step

A **walk** is the reader at work, seen from close up.  It has a list of tokens, an index into the
list, and a stack of what is still to be read.  Nothing in it keeps the index within the list, and
nothing says that it ever halts.  A step looks at the token under the index and either passes it or
puts something else on the stack.

A step that passes no token brings the walk closer to one that does: `stackDelay` counts how far it
can still be.  So a rule that comes to itself again, and a repetition that starts another round,
have passed a token in between.  No step passes an end token, and there is one at the end of the
list.

Main statement: `walk_in_bounds`.
-/

namespace LetCalc

open Cursor

/-! ### Walks -/

/-- How a walk ends. -/
inductive Verdict where
  /-- Nothing is left to be read. -/
  | complete
  /-- This is missing at the token under the index. -/
  | missing (wanted : Expectation)
  /-- The index is out of bounds, or the token fits none of several kinds. -/
  | lost
  deriving DecidableEq, Repr

/-- What a walk lacks if the token under its index is of none of these kinds. -/
def Verdict.ofKinds : List Token.Kind → Verdict
  | [k] => .missing (.token k)
  | _ => .lost

/-- An index into a list of tokens, and what is still to be read from there. -/
structure Walk where
  tokens : List Token
  position : Nat
  /-- What is still to be read, the next first. -/
  todo : List Ebnf
  deriving DecidableEq

namespace Walk

/-- The token under the index. -/
def token? (w : Walk) : Option Token :=
  w.tokens[w.position]?

/-- The line of the token before the index.  At the start it is that of the first token. -/
def lineBehind? (w : Walk) : Option Nat :=
  (w.tokens[w.position - 1]?).map Token.line

/-- The walk with other things to be read from the same token. -/
def turn (w : Walk) (todo : List Ebnf) : Walk :=
  { w with todo := todo }

/-- The walk with its index past the token `t`, unless that is an end token. -/
def pass (w : Walk) (t : Token) (todo : List Ebnf) : Walk :=
  ⟨w.tokens, if t.kind = .endOfInput then w.position else w.position + 1, todo⟩

/-- Reads a part of the grammar from the token `t`, with `rest` to be read behind it. -/
def read (w : Walk) (t : Token) (rest : List Ebnf) : Ebnf → Except Verdict Walk
  | .oneOf kinds => if t.kind ∈ kinds then .ok (w.pass t rest) else .error (.ofKinds kinds)
  | .rule r =>
    if r = .factor ∧ r.body.opens t.kind = false then .error (.missing .expression)
    else .ok (w.turn (r.body :: rest))
  | .seq a b => .ok (w.turn (a :: b :: rest))
  | .alt a b => .ok (w.turn ((if a.opens t.kind then a else b) :: rest))
  | .many a => .ok (w.turn (if a.opens t.kind then .seq a (.many a) :: rest else rest))
  | .optional a => .ok (w.turn (if a.opens t.kind then a :: rest else rest))

/-- One step. -/
def step (w : Walk) : Except Verdict Walk :=
  match w.todo with
  | [] => .error .complete
  | g :: rest =>
    match w.token? with
    | none => .error .lost
    | some t => w.read t rest g

/-- Some steps. -/
def run : Nat → Walk → Except Verdict Walk
  | 0, w => .ok w
  | n + 1, w => w.step >>= run n

/-- A walk gets to another by some steps. -/
def Reaches (w w' : Walk) : Prop :=
  ∃ n, w.run n = .ok w'

/-- Steps can be counted on from where others have led. -/
theorem run_add {w w' : Walk} {i : Nat} (h : w.run i = .ok w') (j : Nat) :
    w.run (i + j) = w'.run j := by
  induction i generalizing w with
  | zero =>
      cases h
      rw [Nat.zero_add]
  | succ i ih =>
      obtain ⟨w₁, hstep, hrun⟩ := bind_eq_ok.mp h
      rw [Nat.succ_add, run, hstep]
      exact ih hrun

namespace Reaches

variable {w w₁ w₂ : Walk}

theorem refl (w : Walk) : w.Reaches w :=
  ⟨0, rfl⟩

theorem trans (h₁ : w.Reaches w₁) (h₂ : w₁.Reaches w₂) : w.Reaches w₂ := by
  obtain ⟨i, hi⟩ := h₁
  obtain ⟨j, hj⟩ := h₂
  exact ⟨i + j, by rw [run_add hi, hj]⟩

theorem head (h₁ : w.step = .ok w₁) (h₂ : w₁.Reaches w₂) : w.Reaches w₂ := by
  obtain ⟨n, hn⟩ := h₂
  exact ⟨n + 1, bind_eq_ok.mpr ⟨w₁, h₁, hn⟩⟩

end Reaches

end Walk

/-! ### Cursors as walks -/

namespace Cursor

/-- The walk that stands where a cursor does, with `todo` to be read. -/
def walk (c : Cursor) (todo : List Ebnf) : Walk :=
  ⟨c.tokens, c.passed.length, todo⟩

variable (c : Cursor)

theorem tokens_eq : c.tokens = c.passed.reverse ++ (c.ahead ++ [c.closing]) := by
  rw [tokens, List.append_assoc]

/-- The index of a cursor is within its tokens. -/
theorem position_lt (todo : List Ebnf) : (c.walk todo).position < (c.walk todo).tokens.length := by
  simp only [walk, tokens, List.length_append, List.length_reverse, List.length_singleton]
  omega

/-- The tokens before the index are those passed. -/
theorem take_tokens (todo : List Ebnf) :
    (c.walk todo).tokens.take (c.walk todo).position = c.passed.reverse := by
  rw [walk, tokens_eq, ← List.length_reverse, List.take_left]

/-- The index finds the token under the cursor. -/
theorem token?_walk (todo : List Ebnf) : (c.walk todo).token? = some c.peek := by
  have hlength : c.passed.reverse.length ≤ c.passed.length := by simp
  rw [Walk.token?, walk, tokens_eq, List.getElem?_append_right hlength, List.length_reverse,
    Nat.sub_self, peek]
  cases c.ahead <;> rfl

/-- The index finds the line of the last token passed. -/
theorem lineBehind?_walk (todo : List Ebnf) : (c.walk todo).lineBehind? = some c.lastLine := by
  cases hpassed : c.passed with
  | nil =>
      have hstart : (c.walk todo).position = 0 := by rw [walk, hpassed]; rfl
      have htoken := c.token?_walk todo
      rw [Walk.token?, hstart] at htoken
      rw [Walk.lineBehind?, hstart, htoken, lastLine, hpassed]
      rfl
  | cons t ts =>
      have hposition : (c.walk todo).position - 1 = ts.reverse.length := by
        rw [walk, hpassed, List.length_reverse]
        rfl
      rw [Walk.lineBehind?, hposition, walk, tokens_eq, hpassed, List.reverse_cons,
        List.append_assoc, List.getElem?_append_right (Nat.le_refl _), Nat.sub_self, lastLine,
        hpassed]
      rfl

/-- Passing the token under the index is a step of the cursor. -/
theorem pass_walk (todo rest : List Ebnf) :
    (c.walk todo).pass c.peek rest = c.advance.walk rest := by
  obtain ⟨passed, ahead, closing, hclosing⟩ := c
  cases ahead with
  | nil => simp [Walk.pass, walk, peek, advance, hclosing]
  | cons t ts =>
      by_cases ht : t.kind = .endOfInput
      · simp [Walk.pass, walk, peek, advance, ht]
      · simp [Walk.pass, walk, peek, advance, ht, tokens]

/-- A step reads from the token under the cursor. -/
theorem step_walk (g : Ebnf) (rest : List Ebnf) :
    (c.walk (g :: rest)).step = (c.walk (g :: rest)).read c.peek rest g := by
  have htodo : (c.walk (g :: rest)).todo = g :: rest := rfl
  rw [Walk.step, htodo]
  simp only [token?_walk]

end Cursor

/-! ### The walk goes the way of the reader -/

/-- A walk comes to an end with what is on top of its stack: it gets to the cursor `c` with only
`rest` left to be read, or it halts there because something is missing. -/
def Walk.EndsAt (w : Walk) (rest : List Ebnf) : Option Expectation → Cursor → Prop
  | none, c => w.Reaches (c.walk rest)
  | some wanted, c =>
    ∃ todo, w.Reaches (c.walk todo) ∧ (c.walk todo).step = .error (.missing wanted)

namespace Walk.EndsAt

variable {w w₁ : Walk} {rest : List Ebnf} {miss : Option Expectation} {c : Cursor}

/-- If a walk gets to one that comes to an end, so does it itself. -/
theorem of_reaches (h : w.Reaches w₁) (h₁ : w₁.EndsAt rest miss c) : w.EndsAt rest miss c := by
  cases miss with
  | none => exact h.trans h₁
  | some wanted =>
      obtain ⟨todo, hreaches, hstep⟩ := h₁
      exact ⟨todo, h.trans hreaches, hstep⟩

theorem of_step (h : w.step = .ok w₁) (h₁ : w₁.EndsAt rest miss c) : w.EndsAt rest miss c :=
  of_reaches (.head h (.refl w₁)) h₁

end Walk.EndsAt

/-- The walk goes where the grammar leads, whatever is to be read behind. -/
theorem Leads.endsAt {g : Ebnf} {c c' : Cursor} {miss : Option Expectation} (h : Leads g c miss c')
    (rest : List Ebnf) : (c.walk (g :: rest)).EndsAt rest miss c' := by
  induction h generalizing rest with
  | @pass kinds c hk hend =>
      have hstep : (c.walk (.oneOf kinds :: rest)).step = .ok (c.advance.walk rest) := by
        rw [c.step_walk, Walk.read, if_pos hk, c.pass_walk]
      exact .of_step hstep (.refl _)
  | @lack k c hk =>
      refine ⟨.oneOf [k] :: rest, .refl _, ?_⟩
      rw [c.step_walk, Walk.read, if_neg (mt List.mem_singleton.mp hk)]
      rfl
  | @rule r c c' miss hr body ih =>
      have hopen : ¬ (r = .factor ∧ r.body.opens c.peek.kind = false) := by
        rintro ⟨hfactor, hclosed⟩
        rw [hr hfactor] at hclosed
        cases hclosed
      have hstep : (c.walk (.rule r :: rest)).step = .ok (c.walk (r.body :: rest)) := by
        rw [c.step_walk, Walk.read, if_neg hopen]
        rfl
      exact .of_step hstep (ih rest)
  | @stray c hk =>
      refine ⟨.rule .factor :: rest, .refl _, ?_⟩
      rw [c.step_walk, Walk.read, if_pos ⟨rfl, hk⟩]
  | @halt a b c c' wanted first ih => exact .of_step (c.step_walk _ _) (ih (b :: rest))
  | @seq a b c c₁ c' miss first second ihfirst ihsecond =>
      exact .of_step (c.step_walk _ _) (.of_reaches (ihfirst (b :: rest)) (ihsecond rest))
  | @left a b c c' miss hk whole ih =>
      have hstep : (c.walk (.alt a b :: rest)).step = .ok (c.walk (a :: rest)) := by
        rw [c.step_walk, Walk.read, if_pos hk]
        rfl
      exact .of_step hstep (ih rest)
  | @right a b c c' miss hk whole ih =>
      have hstep : (c.walk (.alt a b :: rest)).step = .ok (c.walk (b :: rest)) := by
        rw [c.step_walk, Walk.read, hk]
        rfl
      exact .of_step hstep (ih rest)
  | @done a c hk =>
      have hstep : (c.walk (.many a :: rest)).step = .ok (c.walk rest) := by
        rw [c.step_walk, Walk.read, hk]
        rfl
      exact .of_step hstep (.refl _)
  | @more a c c' miss hk whole ih =>
      have hstep : (c.walk (.many a :: rest)).step = .ok (c.walk (.seq a (.many a) :: rest)) := by
        rw [c.step_walk, Walk.read, if_pos hk]
        rfl
      exact .of_step hstep (ih rest)
  | @absent a c hk =>
      have hstep : (c.walk (.optional a :: rest)).step = .ok (c.walk rest) := by
        rw [c.step_walk, Walk.read, hk]
        rfl
      exact .of_step hstep (.refl _)
  | @present a c c' miss hk whole ih =>
      have hstep : (c.walk (.optional a :: rest)).step = .ok (c.walk (a :: rest)) := by
        rw [c.step_walk, Walk.read, if_pos hk]
        rfl
      exact .of_step hstep (ih rest)

/-! ### How long a walk can stay on one token -/

namespace Ebnf

/-- Whether reading a part of the grammar to its end always passes a token. -/
def takes : Ebnf → Bool
  | oneOf _ => true
  | rule r => r ≠ .program
  | seq a b => a.takes || b.takes
  | alt a b => a.takes && b.takes
  | many _ | optional _ => false

/-- Whether all that is repeated in a part of the grammar passes a token each time. -/
def isGuarded : Ebnf → Bool
  | oneOf _ | rule _ => true
  | seq a b | alt a b => a.isGuarded && b.isGuarded
  | many a => a.takes && a.isGuarded
  | optional a => a.isGuarded

end Ebnf

/-- A bound on the steps from a rule to the first token that it passes. -/
def Rule.delay : Rule → Nat
  | factor => 10
  | term => 20
  | sum => 30
  | relation => 40
  | expr => 50
  | statement => 60
  | program => 70

namespace Ebnf

/-- A bound on the steps until a token is passed, if there are at most `n` in what is to be read
behind. -/
def delay : Ebnf → Nat → Nat
  | oneOf _, _ => 0
  | rule .program, n => Rule.program.delay + n
  | rule r, _ => r.delay
  | seq a b, n => a.delay (b.delay n) + 1
  | alt a b, n => max (a.delay n) (b.delay n) + 1
  | many a, n => max (a.delay 0 + 1) n + 1
  | optional a, n => max (a.delay n) n + 1

/-- Where a token is always passed, what is behind does not count. -/
theorem delay_eq_of_takes {g : Ebnf} (h : g.takes = true) (m n : Nat) : g.delay m = g.delay n := by
  induction g generalizing m n with
  | oneOf kinds => rfl
  | rule r =>
      cases r with
      | program => cases h
      | statement | expr | relation | sum | term | factor => rfl
  | seq a b iha ihb =>
      rw [delay, delay]
      rcases (Bool.or_eq_true _ _).mp h with ha | hb
      · rw [iha ha]
      · rw [ihb hb m n]
  | alt a b iha ihb =>
      obtain ⟨ha, hb⟩ := Bool.and_eq_true_iff.mp h
      rw [delay, delay, iha ha m n, ihb hb m n]
  | many a | optional a => cases h

end Ebnf

/-- No rule repeats something that may pass no token. -/
theorem Rule.isGuarded_body (r : Rule) : r.body.isGuarded = true := by
  cases r <;> decide

/-- The body of a rule is closer to its first token than the rule. -/
theorem Rule.delay_body (r : Rule) (n : Nat) : r.body.delay n < (Ebnf.rule r).delay n := by
  by_cases hr : r = .program
  · subst hr
    show max 62 n + 1 < 70 + n
    omega
  · have htakes : (Ebnf.rule r).takes = true ∧ r.body.takes = true := by
      revert hr
      cases r <;> decide
    rw [Ebnf.delay_eq_of_takes htakes.1 n 0, Ebnf.delay_eq_of_takes htakes.2 n 0]
    revert hr
    cases r <;> decide

/-! ### What a step does -/

/-- Whether nothing on a stack asks for an end token, and all that is repeated passes a token. -/
def IsSteady (todo : List Ebnf) : Prop :=
  ∀ g ∈ todo, g.isEndless = true ∧ g.isGuarded = true

/-- A bound on the steps until a token is passed. -/
def stackDelay (todo : List Ebnf) : Nat :=
  todo.foldr Ebnf.delay 0

theorem isSteady_cons {g : Ebnf} {rest : List Ebnf} :
    IsSteady (g :: rest) ↔ (g.isEndless = true ∧ g.isGuarded = true) ∧ IsSteady rest :=
  List.forall_mem_cons

/-- What a step can do with `todo` on the stack. -/
inductive Cursor.Steps (c : Cursor) (todo : List Ebnf) : Walk → Prop where
  /-- It stays on its token and comes closer to the next one. -/
  | turn {todo' : List Ebnf} (hsteady : IsSteady todo')
      (hdelay : stackDelay todo' < stackDelay todo) : Steps c todo (c.walk todo')
  /-- It passes its token, which is no end token then. -/
  | pass {todo' : List Ebnf} (hsteady : IsSteady todo') (hend : c.peek.kind ≠ .endOfInput) :
      Steps c todo (c.advance.walk todo')

/-- A step does nothing else. -/
theorem Cursor.steps_of_step {c : Cursor} {todo : List Ebnf} {w : Walk} (htodo : IsSteady todo)
    (h : (c.walk todo).step = .ok w) : c.Steps todo w := by
  cases todo with
  | nil => cases h
  | cons g rest =>
      obtain ⟨⟨hend, hguard⟩, hrest⟩ := isSteady_cons.mp htodo
      rw [c.step_walk] at h
      cases g with
      | oneOf kinds =>
          by_cases hk : c.peek.kind ∈ kinds
          · rw [Walk.read, if_pos hk, c.pass_walk] at h
            cases h
            refine .pass hrest ?_
            intro heq
            exact of_decide_eq_true hend (heq ▸ hk)
          · rw [Walk.read, if_neg hk] at h
            cases h
      | rule r =>
          by_cases hr : r = .factor ∧ r.body.opens c.peek.kind = false
          · rw [Walk.read, if_pos hr] at h
            cases h
          · rw [Walk.read, if_neg hr] at h
            cases h
            have hbody := isSteady_cons.mpr ⟨⟨r.isEndless_body, r.isGuarded_body⟩, hrest⟩
            exact .turn hbody (r.delay_body _)
      | seq a b =>
          cases h
          obtain ⟨hend, hend'⟩ := Bool.and_eq_true_iff.mp hend
          obtain ⟨hguard, hguard'⟩ := Bool.and_eq_true_iff.mp hguard
          have hsecond := isSteady_cons.mpr ⟨⟨hend', hguard'⟩, hrest⟩
          exact .turn (isSteady_cons.mpr ⟨⟨hend, hguard⟩, hsecond⟩) (Nat.lt_succ_self _)
      | alt a b =>
          obtain ⟨hend, hend'⟩ := Bool.and_eq_true_iff.mp hend
          obtain ⟨hguard, hguard'⟩ := Bool.and_eq_true_iff.mp hguard
          by_cases ha : a.opens c.peek.kind = true
          · rw [Walk.read, if_pos ha] at h
            cases h
            exact .turn (isSteady_cons.mpr ⟨⟨hend, hguard⟩, hrest⟩)
              (Nat.lt_succ_of_le (Nat.le_max_left ..))
          · rw [Walk.read, if_neg ha] at h
            cases h
            exact .turn (isSteady_cons.mpr ⟨⟨hend', hguard'⟩, hrest⟩)
              (Nat.lt_succ_of_le (Nat.le_max_right ..))
      | many a =>
          obtain ⟨htakes, hguard'⟩ := Bool.and_eq_true_iff.mp hguard
          by_cases ha : a.opens c.peek.kind = true
          · rw [Walk.read, if_pos ha] at h
            cases h
            have hagain : (Ebnf.seq a (.many a)).isEndless = true ∧
                (Ebnf.seq a (.many a)).isGuarded = true :=
              ⟨Bool.and_eq_true_iff.mpr ⟨hend, hend⟩, Bool.and_eq_true_iff.mpr ⟨hguard', hguard⟩⟩
            refine .turn (isSteady_cons.mpr ⟨hagain, hrest⟩) ?_
            -- one round passes a token, so what is behind it does not count
            show a.delay _ + 1 < max (a.delay 0 + 1) (stackDelay rest) + 1
            rw [Ebnf.delay_eq_of_takes htakes _ 0]
            omega
          · rw [Walk.read, if_neg ha] at h
            cases h
            exact .turn hrest (Nat.lt_succ_of_le (Nat.le_max_right ..))
      | optional a =>
          by_cases ha : a.opens c.peek.kind = true
          · rw [Walk.read, if_pos ha] at h
            cases h
            exact .turn (isSteady_cons.mpr ⟨⟨hend, hguard⟩, hrest⟩)
              (Nat.lt_succ_of_le (Nat.le_max_left ..))
          · rw [Walk.read, if_neg ha] at h
            cases h
            exact .turn hrest (Nat.lt_succ_of_le (Nat.le_max_right ..))

/-- Over some steps a walk passes tokens, none of them an end token.  If it passes none, then each
of the steps has brought it closer to the next. -/
theorem Cursor.passes_of_run {c : Cursor} {todo : List Ebnf} {w : Walk} {i : Nat}
    (htodo : IsSteady todo) (h : (c.walk todo).run i = .ok w) :
    ∃ d u, c.Passes u d ∧ (∀ t ∈ u, t.kind ≠ .endOfInput) ∧ w = d.walk w.todo ∧
      IsSteady w.todo ∧ (u = [] → stackDelay w.todo + i ≤ stackDelay todo) := by
  induction i generalizing c todo with
  | zero =>
      cases h
      exact ⟨c, [], .refl c, List.forall_mem_nil _, rfl, htodo, fun _ => Nat.le_refl _⟩
  | succ i ih =>
      obtain ⟨w₁, hstep, hrun⟩ := bind_eq_ok.mp h
      cases steps_of_step htodo hstep with
      | turn hsteady hdelay =>
          obtain ⟨d, u, pu, hu, hw, hlast, hclose⟩ := ih hsteady hrun
          refine ⟨d, u, pu, hu, hw, hlast, ?_⟩
          intro hnil
          have hrest := hclose hnil
          omega
      | pass hsteady hend =>
          obtain ⟨d, u, pu, hu, hw, hlast, -⟩ := ih hsteady hrun
          have hpass := (Passes.advance hend).trans pu
          refine ⟨d, c.peek :: u, hpass, List.forall_mem_cons.mpr ⟨hend, hu⟩, hw, hlast, ?_⟩
          exact fun hnil => absurd hnil (List.cons_ne_nil _ _)

/-- If a walk comes back to what was on top of its stack, with the same or more below, then it has
passed a token on the way. -/
theorem Cursor.position_lt_of_return {c : Cursor} {g : Ebnf} {more rest : List Ebnf} {w : Walk}
    {i : Nat} (htodo : IsSteady (g :: rest)) (h : (c.walk (g :: rest)).run (i + 1) = .ok w)
    (hw : w.todo = g :: (more ++ rest)) (hg : g.takes = true ∨ more = []) :
    (c.walk (g :: rest)).position < w.position := by
  obtain ⟨d, u, pu, -, hwalk, -, hclose⟩ := passes_of_run htodo h
  have hdelay : stackDelay w.todo = stackDelay (g :: rest) := by
    rw [hw]
    rcases hg with htakes | hnil
    · exact Ebnf.delay_eq_of_takes htakes _ _
    · rw [hnil]
      rfl
  have hsome : 0 < u.length := by
    refine List.length_pos_iff.mpr fun hnil => ?_
    have hback := hclose hnil
    omega
  rw [hwalk]
  show c.passed.length < d.passed.length
  rw [pu.passed, List.length_append, List.length_reverse]
  omega

/-! ### Where the rules of the reader end -/

/-- Where a rule ends: what is missing, if anything, and the cursor. -/
def ending {α : Type} (next : α → Cursor) : Except Stop α → Option Expectation × Cursor
  | .ok a => (none, next a)
  | .error s => (some s.wanted, s.place)

/-- A rule that obeys the grammar ends where the grammar leads. -/
theorem Obeys.leads {α : Type} {next : α → Cursor} {g : Ebnf} {c : Cursor} {r : Except Stop α}
    (h : Obeys next g c r) : Leads g c (ending next r).1 (ending next r).2 := by
  cases r <;> exact h

/-- Where the reader ends with a rule of the grammar. -/
def Rule.ending (c : Cursor) : Rule → Option Expectation × Cursor
  | program => LetCalc.ending Prod.snd c.statements
  | statement => LetCalc.ending Parsed.next c.statement
  | expr => LetCalc.ending Parsed.next c.expr
  | relation => LetCalc.ending Parsed.next c.relation
  | sum => LetCalc.ending Parsed.next (c.tower .additive)
  | term => LetCalc.ending Parsed.next c.term
  | factor => LetCalc.ending Parsed.next c.factor

/-- The reader ends with a rule where the grammar leads. -/
theorem Rule.leads (r : Rule) (c : Cursor) :
    Leads (.rule r) c (r.ending c).1 (r.ending c).2 := by
  cases r with
  | program => exact c.statements_obeys.leads
  | statement => exact c.statement_obeys.leads
  | expr => exact c.expr_obeys.leads
  | relation => exact c.relation_obeys.leads
  | sum => exact .of_body (by decide) (c.tower_obeys .additive).leads
  | term => exact c.term_obeys.leads
  | factor => exact c.factor_obeys.leads

/-! ### Readings one after another -/

namespace Verdict

/-- The verdict on a walk that lacks something, or nothing. -/
def ofMissing : Option Expectation → Verdict
  | none => .complete
  | some wanted => .missing wanted

/-- The verdict that goes with the result of reading a program.  A token behind the end token is
found only when all has been read. -/
def ofResult : Except SyntaxError Program → Verdict
  | .error (.expected wanted _) => .missing wanted
  | _ => .complete

end Verdict

namespace Cursor

/-- Reading a program ends where the grammar leads, with the same verdict. -/
theorem exists_leads_program (c : Cursor) :
    ∃ miss, Leads (.rule .program) c miss c.program.2 ∧
      Verdict.ofResult c.program.1 = .ofMissing miss := by
  have hobeys := c.statements_obeys
  cases hread : c.statements with
  | error stop =>
      rw [hread] at hobeys
      rw [program, hread]
      exact ⟨some stop.wanted, hobeys, rfl⟩
  | ok read =>
      obtain ⟨es, c'⟩ := read
      rw [hread] at hobeys
      refine ⟨none, ?_⟩
      cases hbeyond : c'.beyondEnd? with
      | none =>
          simp only [program, hread, hbeyond]
          exact ⟨hobeys, rfl⟩
      | some found =>
          simp only [program, hread, hbeyond]
          exact ⟨hobeys, rfl⟩

/-- A walk over a program halts where the reader stops, and for the same reason. -/
theorem exists_halts (c : Cursor) :
    ∃ todo, (c.walk [.rule .program]).Reaches (c.program.2.walk todo) ∧
      (c.program.2.walk todo).step = .error (.ofResult c.program.1) := by
  obtain ⟨miss, hleads, hverdict⟩ := c.exists_leads_program
  have hends := hleads.endsAt []
  rw [hverdict]
  cases miss with
  | none => exact ⟨[], hends, rfl⟩
  | some wanted => exact hends

/-- If no end token was passed before, and none is now, then none has been. -/
theorem Passes.kind_ne_endOfInput {c c' : Cursor} {w : List Token} (h : c.Passes w c')
    (hc : ∀ t ∈ c.passed, t.kind ≠ .endOfInput) (hw : ∀ t ∈ w, t.kind ≠ .endOfInput) :
    ∀ t ∈ c'.passed, t.kind ≠ .endOfInput := by
  intro t ht
  rw [h.passed] at ht
  rcases List.mem_append.mp ht with hnew | hold
  · exact hw t (List.mem_reverse.mp hnew)
  · exact hc t hold

/-- One more reading starts where the last one has ended. -/
theorem reread_succ (c : Cursor) (n : Nat) : c.reread (n + 1) = (c.reread n).program.2 := by
  induction n generalizing c with
  | zero => rfl
  | succ n ih => exact ih c.program.2

/-- No end token is ever passed. -/
theorem kind_ne_endOfInput_of_mem_passed {c : Cursor} (hc : ∀ t ∈ c.passed, t.kind ≠ .endOfInput)
    (n : Nat) : ∀ t ∈ (c.reread n).passed, t.kind ≠ .endOfInput := by
  induction n with
  | zero => exact hc
  | succ n ih =>
      obtain ⟨miss, hleads, -⟩ := (c.reread n).exists_leads_program
      obtain ⟨w, hpass⟩ := hleads.exists_passes
      rw [reread_succ]
      exact hpass.kind_ne_endOfInput ih (hleads.isViable hpass).2

/-- However often programs are read, the tokens are those of the closed list. -/
theorem tokens_reread_ofTokens (ts : List Token) (n : Nat) :
    ((ofTokens ts).reread n).tokens = closed ts := by
  obtain ⟨w, closing, hclosing, hclosed, hcursor⟩ := exists_closed ts
  rw [tokens_reread, hcursor, hclosed]
  rfl

theorem passed_ofTokens (ts : List Token) : (ofTokens ts).passed = [] := by
  obtain ⟨w, closing, hclosing, -, hcursor⟩ := exists_closed ts
  rw [hcursor]

end Cursor

/-! ### Within bounds -/

/-- What holds of a walk that stands where the cursor `c` does. -/
structure Walk.Safe (w : Walk) (c : Cursor) : Prop where
  /-- The index is within the list. -/
  position_lt : w.position < w.tokens.length
  /-- No end token is before the index. -/
  kind_ne : ∀ t ∈ w.tokens.take w.position, t.kind ≠ .endOfInput
  /-- There is a token under the index: the one under the cursor. -/
  token? : w.token? = some c.peek
  /-- There is a line behind the index: the one behind the cursor. -/
  lineBehind? : w.lineBehind? = some c.lastLine
  /-- The index never goes back. -/
  position_le : ∀ j w', w.run j = .ok w' → w.position ≤ w'.position
  /-- A rule passes a token before it comes to itself again. -/
  recursion : ∀ r more rest j w', r ≠ Rule.program → w.todo = .rule r :: rest →
    w.run (j + 1) = .ok w' → w'.todo = .rule r :: (more ++ rest) → w.position < w'.position
  /-- A repetition passes a token before the next round. -/
  repetition : ∀ g rest j w', w.todo = .many g :: rest →
    w.run (j + 1) = .ok w' → w'.todo = .many g :: rest → w.position < w'.position
  /-- A rule comes to an end, where the reader does. -/
  ends : ∀ r rest, w.todo = .rule r :: rest → w.EndsAt rest (r.ending c).1 (r.ending c).2

/-- A walk is safe, if no end token has been passed before. -/
theorem Cursor.safe_walk {c : Cursor} {todo : List Ebnf} (htodo : IsSteady todo)
    (hpassed : ∀ t ∈ c.passed, t.kind ≠ .endOfInput) : (c.walk todo).Safe c where
  position_lt := c.position_lt todo
  kind_ne := by
    rw [c.take_tokens]
    exact fun t ht => hpassed t (List.mem_reverse.mp ht)
  token? := c.token?_walk todo
  lineBehind? := c.lineBehind?_walk todo
  position_le := by
    intro j w' hrun
    obtain ⟨d, u, pu, -, hwalk, -, -⟩ := passes_of_run htodo hrun
    rw [hwalk]
    show c.passed.length ≤ d.passed.length
    rw [pu.passed, List.length_append]
    exact Nat.le_add_left _ _
  recursion := by
    rintro r more rest j w' hr rfl hrun hw'
    exact position_lt_of_return htodo hrun hw' (.inl (decide_eq_true hr))
  repetition := by
    rintro g rest j w' rfl hrun hw'
    have hback : w'.todo = .many g :: ([] ++ rest) := hw'
    exact position_lt_of_return htodo hrun hback (.inr rfl)
  ends := by
    rintro r rest rfl
    exact (r.leads c).endsAt rest

/-- **The reader stays within its tokens and always ends.**  Let programs have been read from a list
of tokens `n` times, each time from where the last reading has ended.  Then the next reading is a
walk over the closed list that halts where the reader stops and for the same reason.  At each moment
of the walk the index is within the list, with no end token before it, and it never goes back; each
rule on the way ends where the reader ends with it, and passes a token before it comes to itself
again. -/
theorem walk_in_bounds (ts : List Token) (n : Nat) :
    let c := (Cursor.ofTokens ts).reread n
    let start := c.walk [.rule .program]
    (∃ k todo, start.run k = .ok (((Cursor.ofTokens ts).reread (n + 1)).walk todo) ∧
      (((Cursor.ofTokens ts).reread (n + 1)).walk todo).step = .error (.ofResult c.program.1)) ∧
    ∀ i w, start.run i = .ok w → w.tokens = closed ts ∧ ∃ d, w = d.walk w.todo ∧ w.Safe d := by
  intro c start
  constructor
  · obtain ⟨todo, ⟨k, hrun⟩, hstep⟩ := c.exists_halts
    rw [reread_succ]
    exact ⟨k, todo, hrun, hstep⟩
  · intro i w hrun
    have hsteady : IsSteady [.rule .program] :=
      isSteady_cons.mpr ⟨⟨rfl, rfl⟩, List.forall_mem_nil _⟩
    obtain ⟨d, u, pu, hu, hwalk, hlast, -⟩ := passes_of_run hsteady hrun
    have hstart : ∀ t ∈ c.passed, t.kind ≠ .endOfInput := by
      apply kind_ne_endOfInput_of_mem_passed
      rw [passed_ofTokens]
      exact List.forall_mem_nil _
    refine ⟨?_, d, hwalk, ?_⟩
    · rw [hwalk]
      exact pu.tokens_eq.trans (tokens_reread_ofTokens ts n)
    · rw [hwalk]
      exact safe_walk hlast (pu.kind_ne_endOfInput hstart hu)

/-- The first reading stops at a parenthesis, since a semicolon is missing there.  The second comes
to a factor deep within another, some tokens further on, and halts on the end token in the midst of
the list. -/
theorem walk_in_bounds_nested_factor :
    let ts : List Token := [⟨.intLit, "7", 1⟩, ⟨.lparen, "(", 1⟩, ⟨.minus, "-", 1⟩,
      ⟨.lparen, "(", 2⟩, ⟨.intLit, "8", 2⟩, ⟨.rparen, ")", 2⟩, ⟨.rparen, ")", 3⟩,
      ⟨.semicolon, ";", 3⟩, Token.endAt 3, ⟨.intLit, "9", 4⟩]
    let start := ((Cursor.ofTokens ts).reread 1).walk [.rule .program]
    (∃ w w' more rest, start.run 16 = .ok w ∧ w.run 40 = .ok w' ∧ w.todo = .rule .factor :: rest ∧
      w'.todo = .rule .factor :: (more ++ rest) ∧ w.position < w'.position) ∧
    ∃ k last, start.run k = .ok last ∧ last.step = .error .complete ∧ last.position = 8 ∧
      last.token? = some (Token.endAt 3) := by
  intro ts start
  obtain ⟨⟨k, todo, hrun, hstep⟩, hsafe⟩ := walk_in_bounds ts 1
  let w := (start.run 16).toOption.getD start
  let w' := (w.run 40).toOption.getD w
  have hw : start.run 16 = .ok w := by decide +kernel
  have hw' : w.run 40 = .ok w' := by decide +kernel
  have htodo : w.todo = .rule .factor :: w.todo.tail := by decide +kernel
  have htodo' : w'.todo = .rule .factor :: (w'.todo.tail.take 10 ++ w.todo.tail) := by
    decide +kernel
  have hresult : ((Cursor.ofTokens ts).reread 1).program.1 =
      .error (.unexpected ⟨.intLit, "9", 4⟩) := by
    decide +kernel
  have hposition : ((Cursor.ofTokens ts).reread 2).passed.length = 8 := by decide +kernel
  have hpeek : ((Cursor.ofTokens ts).reread 2).peek = Token.endAt 3 := by decide +kernel
  constructor
  · obtain ⟨-, d, -, hd⟩ := hsafe 16 w hw
    have hpassed := hd.recursion _ _ _ 39 _ (by decide) htodo hw' htodo'
    exact ⟨w, w', _, _, hw, hw', htodo, htodo', hpassed⟩
  · rw [hresult] at hstep
    refine ⟨k, _, hrun, hstep, hposition, ?_⟩
    rw [token?_walk, hpeek]

end LetCalc
