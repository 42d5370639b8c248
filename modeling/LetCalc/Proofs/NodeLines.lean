import LetCalc.Proofs.ErrorLines

/-!
# Lines of nodes

A program keeps of its text only the tokens of literals and names, and one line for each other node.
That line is told by the text: it is the line of the last token of the node's own text
(`Writing.tree`).  Parentheses around a part of the node belong to its text, those around the node
itself do not.

The tokens of a text are in the order of their lines.  So a node is never before what is below it, a
statement never before an earlier one, and the program, which ends with a semicolon, is not before
any node.

Main statement: `parse_lines`.
-/

namespace LetCalc

/-! ### The nodes of a tree -/

/-- All nodes of a tree, each with what is below it. -/
def Expr.nodes : Expr → List Expr
  | val name value line => .val name value line :: value.nodes
  | letIn name bound body line => .letIn name bound body line :: (bound.nodes ++ body.nodes)
  | binary op left right line => .binary op left right line :: (left.nodes ++ right.nodes)
  | unary op operand line => .unary op operand line :: operand.nodes
  | literal token => [.literal token]
  | ident token => [.ident token]

/-- The lines of a tree are the lines of its nodes. -/
theorem Expr.map_line_nodes (e : Expr) : e.nodes.map Expr.line = e.lines := by
  induction e <;> simp_all [nodes, lines, line]

/-- The line of the root is among them. -/
theorem Expr.line_mem_lines (e : Expr) : e.line ∈ e.lines := by
  cases e <;> simp [lines, line]

namespace Writing

theorem sublist_append_cons (w : List Token) (t : Token) (v : List Token) :
    v.Sublist (w ++ t :: v) :=
  (List.sublist_cons_self t v).trans (List.sublist_append_right w (t :: v))

/-- No node of a writing is before anything below it. -/
theorem nodes_le (x : Writing) (hx : InOrder x.tokens) :
    ∀ a ∈ x.tree.nodes, ∀ n ∈ a.lines, n ≤ a.line := by
  induction x with
  | val word name assign value ih =>
      have hvalue := sublist_append_cons [word, name] assign value.tokens
      exact List.forall_mem_cons.mpr ⟨le_line _ hx, ih (hx.sublist hvalue)⟩
  | letIn word name assign bound sep body ihbound ihbody =>
      have hbound := (List.sublist_append_left bound.tokens (sep :: body.tokens)).trans
        (sublist_append_cons [word, name] assign _)
      have hbody := (sublist_append_cons bound.tokens sep body.tokens).trans
        (sublist_append_cons [word, name] assign _)
      exact List.forall_mem_cons.mpr ⟨le_line _ hx,
        List.forall_mem_append.mpr ⟨ihbound (hx.sublist hbound), ihbody (hx.sublist hbody)⟩⟩
  | binary op left sign right ihleft ihright =>
      have hleft := List.sublist_append_left left.tokens (sign :: right.tokens)
      have hright := sublist_append_cons left.tokens sign right.tokens
      exact List.forall_mem_cons.mpr ⟨le_line _ hx,
        List.forall_mem_append.mpr ⟨ihleft (hx.sublist hleft), ihright (hx.sublist hright)⟩⟩
  | unary op sign operand ih =>
      have hoperand := List.sublist_cons_self sign operand.tokens
      exact List.forall_mem_cons.mpr ⟨le_line _ hx, ih (hx.sublist hoperand)⟩
  | literal token => exact List.forall_mem_singleton.mpr (le_line _ hx)
  | ident token => exact List.forall_mem_singleton.mpr (le_line _ hx)
  | group opening inner closing ih =>
      exact ih (hx.sublist ((List.sublist_append_left inner.tokens [closing]).cons opening))

end Writing

/-! ### Statements as they are written -/

/-- The tokens of statements, each with the semicolon behind it. -/
def statementTokens (xs : List (Writing × Token)) : List Token :=
  xs.flatMap fun x => x.1.tokens ++ [x.2]

/-- The tokens of the first statement stand in front, with its semicolon. -/
theorem statementTokens_cons (x : Writing × Token) (xs : List (Writing × Token)) :
    statementTokens (x :: xs) = x.1.tokens ++ x.2 :: statementTokens xs := by
  simp [statementTokens]

/-- `Writes xs w es`: the statements `es`, lines apart, are written in the tokens `w` as `xs`
say. -/
structure Writes (xs : List (Writing × Token)) (w : List Token) (es : List Expr) : Prop where
  proper : ∀ x ∈ xs, x.1.IsProper ∧ x.2.kind = .semicolon
  tokens_eq : statementTokens xs = w
  trees_eq : xs.map (fun x => x.1.tree.onLine 0) = es.map (Expr.onLine 0)

/-- The statements of a program have been written in its tokens, lines included. -/
theorem ProgramDerivation.exists_writes {w : List Token} {es : List Expr}
    (h : ProgramDerivation w es) :
    ∃ xs, Writes xs w es ∧ es = xs.map (fun x => x.1.tree) := by
  induction h with
  | nil => exact ⟨[], ⟨List.forall_mem_nil _, rfl, rfl⟩, rfl⟩
  | @cons sep w v e es hsep first others ih =>
      obtain ⟨x, hx, rfl, rfl⟩ := first.exists_writing
      obtain ⟨xs, hxs, rfl⟩ := ih
      refine ⟨(x, sep) :: xs, ⟨?_, ?_, ?_⟩, rfl⟩
      · exact List.forall_mem_cons.mpr ⟨⟨hx, hsep⟩, hxs.proper⟩
      · rw [statementTokens_cons, hxs.tokens_eq]
      · rw [List.map_cons, List.map_cons, hxs.trees_eq]

/-- There is one way to find statements in some tokens. -/
theorem Writes.unique {xs ys : List (Writing × Token)} {w : List Token} {es : List Expr}
    (hxs : Writes xs w es) (hys : Writes ys w es) : xs = ys := by
  obtain ⟨hxs, rfl, htrees⟩ := hxs
  obtain ⟨hys, htokens, htrees'⟩ := hys
  rw [← htrees] at htrees'
  clear htrees
  induction xs generalizing ys with
  | nil => exact (List.map_eq_nil_iff.mp htrees').symm
  | cons x xs ih =>
      cases ys with
      | nil => cases htrees'
      | cons y ys =>
          obtain ⟨hx, hxs⟩ := List.forall_mem_cons.mp hxs
          obtain ⟨hy, hys⟩ := List.forall_mem_cons.mp hys
          obtain ⟨htree, htrees⟩ := List.cons.inj htrees'
          rw [statementTokens_cons, statementTokens_cons] at htokens
          have hagree : Writing.Agree y.1 x.1 _ _ := ⟨hy.1, hx.1, htokens, htree⟩
          obtain ⟨hfirst, hmore⟩ := hagree.unique
          obtain ⟨hsep, hrest⟩ := List.cons.inj hmore
          rw [ih hxs hys hrest htrees, Prod.ext hfirst hsep]

/-! ### Lines of programs -/

/-- Statements end on the line of their last semicolon. -/
theorem lastLine_statementTokens (xs : List (Writing × Token)) (x : Writing × Token) :
    lastLine (statementTokens (xs ++ [x])) = x.2.line := by
  have hlast : statementTokens (xs ++ [x]) = (statementTokens xs ++ x.1.tokens) ++ [x.2] := by
    simp [statementTokens]
  rw [hlast, lastLine_append (List.cons_ne_nil _ _), lastLine_singleton]

/-- The line of a program is that of its last semicolon, or of the end token if there is none. -/
theorem line_of_statementTokens (xs : List (Writing × Token)) (n : Nat) :
    (if statementTokens xs = [] then n else lastLine (statementTokens xs)) =
      (xs.getLast?.map (fun x => x.2.line)).getD n := by
  rcases List.eq_nil_or_concat xs with rfl | ⟨ys, x, rfl⟩
  · rfl
  · rw [List.concat_eq_append, if_neg (by simp [statementTokens]), lastLine_statementTokens]
    simp

section

variable {xs : List (Writing × Token)}

/-- The tokens of each statement are among those of all. -/
theorem tokens_sublist {x : Writing × Token} (hx : x ∈ xs) :
    x.1.tokens.Sublist (statementTokens xs) := by
  induction xs with
  | nil => cases hx
  | cons y xs ih =>
      rw [statementTokens_cons]
      rcases List.mem_cons.mp hx with rfl | hx
      · exact List.sublist_append_left _ _
      · exact (ih hx).trans (Writing.sublist_append_cons _ _ _)

/-- Each node of a statement is on the line of a token. -/
theorem lines_subset_statementTokens {x : Writing × Token} (hx : x ∈ xs) :
    x.1.tree.lines ⊆ (statementTokens xs).map Token.line :=
  subset_lines x.1.lines_subset (tokens_sublist hx).subset

/-- Statements never go back to an earlier line. -/
theorem pairwise_line (h : InOrder (statementTokens xs)) :
    (xs.map fun x => x.1.tree).Pairwise (·.line ≤ ·.line) := by
  induction xs with
  | nil => exact .nil
  | cons x xs ih =>
      rw [statementTokens_cons] at h
      obtain ⟨-, hrest, hbefore⟩ := List.pairwise_append.mp h
      obtain ⟨-, hrest⟩ := List.pairwise_cons.mp hrest
      refine List.pairwise_cons.mpr ⟨?_, ih hrest⟩
      intro e he
      obtain ⟨y, hy, rfl⟩ := List.mem_map.mp he
      obtain ⟨t, ht, hline⟩ := List.mem_map.mp (x.1.lines_subset x.1.tree.line_mem_lines)
      obtain ⟨u, hu, hline'⟩ :=
        List.mem_map.mp (lines_subset_statementTokens hy y.1.tree.line_mem_lines)
      rw [← hline, ← hline']
      exact hbefore t ht u (List.mem_cons_of_mem _ hu)

end

/-- **Nodes are on the lines of their text.**  The tokens of a text that can be read are those of
its statements, as they are written, with a semicolon behind each; there is one way to cut them so.
Then each `val`, `let` and operator is on the line of the last token of its own text, and the
program on that of the last semicolon, or of the end token if there is no statement.  So no node is
before any node below it, no statement before an earlier one, and the program before no node. -/
theorem parse_lines {s : String} {p : Program} (h : parse s = .ok p) :
    ∃ w n, (Source.ofString s).tokens.1 = .ok (w ++ [Token.endAt n]) ∧
      (∃ xs, Writes xs w p.statements) ∧
      (∀ xs, Writes xs w p.statements → p.statements = xs.map (fun x => x.1.tree) ∧
        p.line = (xs.getLast?.map (fun x => x.2.line)).getD n) ∧
      (∀ e ∈ p.statements, ∀ a ∈ e.nodes, (∀ b ∈ a.nodes, b.line ≤ a.line) ∧ a.line ≤ p.line) ∧
      p.statements.Pairwise (·.line ≤ ·.line) := by
  obtain ⟨w, n, htokens, hderivation, hline⟩ := parse_ok_iff.mp h
  obtain ⟨xs, hxs, hstatements⟩ := hderivation.exists_writes
  obtain rfl := hxs.tokens_eq
  have horder : InOrder (statementTokens xs) :=
    (Source.inOrder_tokens htokens).1.sublist (List.sublist_append_left _ _)
  refine ⟨statementTokens xs, n, htokens, ⟨xs, hxs⟩, ?_, ?_, ?_⟩
  · intro ys hys
    rw [hys.unique hxs, ← line_of_statementTokens]
    exact ⟨hstatements, hline⟩
  · intro e he a ha
    rw [hstatements] at he
    obtain ⟨x, hx, rfl⟩ := List.mem_map.mp he
    refine ⟨?_, ?_⟩
    · intro b hb
      apply x.1.nodes_le (horder.sublist (tokens_sublist hx)) a ha
      rw [← Expr.map_line_nodes]
      exact List.mem_map_of_mem hb
    · have hmem : a.line ∈ x.1.tree.lines := by
        rw [← Expr.map_line_nodes]
        exact List.mem_map_of_mem ha
      have hsome : statementTokens xs ≠ [] := by
        intro hnone
        have hsub := (tokens_sublist hx).subset
        rw [hnone] at hsub
        exact x.1.tokens_ne_nil (List.subset_nil.mp hsub)
      rw [hline, if_neg hsome]
      exact horder.le_lastLine _ (lines_subset_statementTokens hx hmem)
  · rw [hstatements]
    exact pairwise_line horder

/-- The sum ends with the parenthesis on line 3 around its right part; the one on line 4 stands
around the sum itself.  The program ends with the semicolon on line 8. -/
theorem parse_lines_parentheses :
    let s := "(1 +\n(2\n)\n)\n;\nnot (3\n< 4)\n;"
    let p : Program := ⟨[
      .binary (.arith .add) (.literal ⟨.intLit, "1", 1⟩) (.literal ⟨.intLit, "2", 2⟩) 3,
      .unary .not
        (.binary (.compare .lt) (.literal ⟨.intLit, "3", 6⟩) (.literal ⟨.intLit, "4", 7⟩) 7) 7], 8⟩
    parse s = .ok p ∧
      ∃ w n, (Source.ofString s).tokens.1 = .ok (w ++ [Token.endAt n]) ∧
        (∃ xs, Writes xs w p.statements ∧ p.statements = xs.map (fun x => x.1.tree)) ∧
        (∀ e ∈ p.statements, ∀ a ∈ e.nodes, (∀ b ∈ a.nodes, b.line ≤ a.line) ∧ a.line ≤ 8) ∧
        p.statements.Pairwise (·.line ≤ ·.line) := by
  intro s p
  have hparse : parse s = .ok p := by decide +kernel
  obtain ⟨w, n, htokens, ⟨xs, hxs⟩, hall, hnodes, horder⟩ := parse_lines hparse
  exact ⟨hparse, w, n, htokens, ⟨xs, hxs, (hall xs hxs).1⟩, hnodes, horder⟩

end LetCalc
