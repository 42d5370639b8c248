import LetCalc.Outline
import LetCalc.Proofs.Concatenation
import LetCalc.Proofs.Layout
import LetCalc.Proofs.Reprinting

/-!
# Outlines can be read back

An outline tells everything of a program but its lines.  A row of it is the depth of a node and a
**label**.  Since no label has a line feed in it or starts with a blank, the text of an outline can be
cut into its rows again (`Outline.render_inj`).  A label settles what sort of node it stands for
(`Form.label_inj`), and so how many trees stand below it.  So an outline is never the beginning of
another one: whatever follows it, it ends in only one place (`Expr.outline_append_inj`).

The label of a literal does not have its kind.  But a text is written for one kind of token only, if
it is written for any.

Main statement: `outline_faithful`.
-/

namespace LetCalc

/-! ### Rows -/

/-- Whether a text can be told from blanks before it and from a line feed behind it. -/
structure IsLabel (label : String) : Prop where
  start : label.toList.head? ≠ some ' '
  oneLine : '\n' ∉ label.toList

/-- A label may go on with anything but a line feed. -/
theorem IsLabel.append {label rest : String} (h : IsLabel label) (hne : label ≠ "")
    (hrest : '\n' ∉ rest.toList) : IsLabel (label ++ rest) where
  start := by
    obtain ⟨c, cs, hchars⟩ : ∃ c cs, label.toList = c :: cs :=
      List.exists_cons_of_ne_nil fun hnil => hne (String.toList_eq_nil_iff.mp hnil)
    have hstart := h.start
    rw [hchars] at hstart
    rw [String.toList_append, hchars]
    exact hstart
  oneLine := by
    rw [String.toList_append, List.mem_append, not_or]
    exact ⟨h.oneLine, hrest⟩

/-- Two texts that go on with a character outside a class are equal up to there, and from there. -/
theorem append_inj_of_all {p : Char → Bool} {u v r r' : List Char} (hu : u.all p) (hv : v.all p)
    (hr : ∀ c ∈ r.head?, p c = false) (hr' : ∀ c ∈ r'.head?, p c = false)
    (h : u ++ r = v ++ r') : u = v ∧ r = r' := by
  constructor
  · rw [← takeWhile_append_eq hu hr, h, takeWhile_append_eq hv hr']
  · rw [← dropWhile_append_eq hu hr, h, dropWhile_append_eq hv hr']

namespace Outline

/-- A row is written as blanks, its label and a line feed, in front of the others. -/
theorem toList_render_cons (row : Nat × String) (rows : Outline) :
    (render (row :: rows)).toList =
      (List.replicate (2 * row.1) ' ' ++ row.2.toList) ++ '\n' :: (render rows).toList := by
  simp [render, renderLine]

/-- A row has no line feed but the one at its end. -/
theorem all_ne_line_feed {label : String} (h : IsLabel label) (depth : Nat) :
    (List.replicate (2 * depth) ' ' ++ label.toList).all (· != '\n') := by
  rw [List.all_eq_true]
  intro c hc
  rw [bne_iff_ne]
  rintro rfl
  rcases List.mem_append.mp hc with hblank | hlabel
  · cases List.eq_of_mem_replicate hblank
  · exact h.oneLine hlabel

/-- A row is settled by its text. -/
theorem row_inj {row row' : Nat × String} (h : IsLabel row.2) (h' : IsLabel row'.2)
    (heq : List.replicate (2 * row.1) ' ' ++ row.2.toList =
      List.replicate (2 * row'.1) ' ' ++ row'.2.toList) : row = row' := by
  have hblank : ∀ n, (List.replicate n ' ').all (· == ' ') := by simp
  have hstart : ∀ {label : String}, IsLabel label →
      ∀ c ∈ label.toList.head?, (c == ' ') = false := by
    intro label hlabel c hc
    apply beq_false_of_ne
    rintro rfl
    exact hlabel.start hc
  obtain ⟨hdepth, hlabel⟩ :=
    append_inj_of_all (hblank _) (hblank _) (hstart h) (hstart h') heq
  have hdepth : 2 * row.1 = 2 * row'.1 := by simpa using congrArg List.length hdepth
  exact Prod.ext (by omega) (String.toList_inj.mp hlabel)

/-- The text of an outline can be cut into its rows again. -/
theorem render_inj {rows rows' : Outline} (h : ∀ row ∈ rows, IsLabel row.2)
    (h' : ∀ row ∈ rows', IsLabel row.2) (heq : rows.render = rows'.render) : rows = rows' := by
  induction rows generalizing rows' with
  | nil =>
      cases rows' with
      | nil => rfl
      | cons row' rows' =>
          have hchars := congrArg String.toList heq
          rw [toList_render_cons] at hchars
          simp [render] at hchars
  | cons row rows ih =>
      have hchars := congrArg String.toList heq
      cases rows' with
      | nil =>
          rw [toList_render_cons] at hchars
          simp [render] at hchars
      | cons row' rows' =>
          obtain ⟨hrow, hrows⟩ := List.forall_mem_cons.mp h
          obtain ⟨hrow', hrows'⟩ := List.forall_mem_cons.mp h'
          rw [toList_render_cons, toList_render_cons] at hchars
          have hfeed : ∀ cs : List Char, ∀ c ∈ ('\n' :: cs).head?, (c != '\n') = false := by simp
          obtain ⟨hfirst, hrest⟩ := append_inj_of_all (all_ne_line_feed hrow _)
            (all_ne_line_feed hrow' _) (hfeed _) (hfeed _) hchars
          obtain rfl := row_inj hrow hrow' hfirst
          rw [ih hrows hrows' (String.toList_inj.mp (List.cons.inj hrest).2)]

end Outline

/-! ### Labels -/

/-- What the label of a node tells of it. -/
inductive Form where
  | val (name : String)
  | letIn
  | binary (op : BinaryOp)
  | unary (op : UnaryOp)
  | literal (text : String)
  | ident (text : String)

namespace Form

/-- How a label starts.  Only a `let` has nothing behind that. -/
def opening : Form → String
  | val _ => "Val("
  | letIn => "Let"
  | binary (.compare _) => "RelOp("
  | binary (.arith _) | binary (.logic _) => "BinOp("
  | unary _ => "UnaryOp("
  | literal _ => "Literal("
  | ident _ => "Ident("

/-- The name, operator or text in a label. -/
def content : Form → String
  | val name => name
  | letIn => ""
  | binary op => op.symbol
  | unary op => op.symbol
  | literal text => text
  | ident text => text

/-- How a label ends. -/
def closing : Form → String
  | val _ => " :=)"
  | letIn => ""
  | binary _ | unary _ | literal _ | ident _ => ")"

/-- The label of a node. -/
def label (f : Form) : String :=
  f.opening ++ f.content ++ f.closing

/-- A label settles what it tells. -/
theorem label_inj {f g : Form} (h : f.label = g.label) : f = g := by
  have h := congrArg String.toList h
  -- nodes of different sorts have labels with different words before the parenthesis
  rcases f with x | _ | (a | a | a) | a | x | x <;> rcases g with y | _ | (b | b | b) | b | y | y <;>
    simp [label, opening, content, closing, BinaryOp.symbol] at h ⊢
  case val.val | literal.literal | ident.ident => exact String.toList_inj.mp h
  all_goals
    revert h
    cases a <;> cases b <;> decide

/-- The label of a node is a label if what it tells is on one line. -/
theorem isLabel {f : Form} (h : '\n' ∉ f.content.toList) : IsLabel f.label := by
  have hopening : IsLabel f.opening ∧ f.opening ≠ "" ∧ '\n' ∉ f.closing.toList := by
    rcases f with _ | _ | (_ | _ | _) | _ | _ | _ <;> simp only [opening, closing] <;>
      exact ⟨⟨by decide, by decide⟩, by decide, by decide⟩
  obtain ⟨hlabel, hne, hclosing⟩ := hopening
  have hcontent := hlabel.append hne h
  refine hcontent.append ?_ hclosing
  simp [hne]

end Form

/-! ### Trees -/

namespace Expr

/-- What the label of the root tells. -/
def form : Expr → Form
  | val name _ _ => .val name
  | letIn .. => .letIn
  | binary op _ _ _ => .binary op
  | unary op _ _ => .unary op
  | literal token => .literal token.text
  | ident token => .ident token.text

/-- The rows below the root. -/
def under (depth : Nat) : Expr → Outline
  | val _ value _ => value.outline (depth + 1)
  | letIn name bound body _ =>
    (depth + 1, "name: " ++ name) :: (depth + 1, "value:") ::
      (bound.outline (depth + 2) ++ (depth + 1, "in:") :: body.outline (depth + 2))
  | binary _ left right _ => left.outline (depth + 1) ++ right.outline (depth + 1)
  | unary _ operand _ => operand.outline (depth + 1)
  | literal _ | ident _ => []

/-- An outline is the label of the root, and what stands below. -/
theorem outline_eq (e : Expr) (depth : Nat) :
    e.outline depth = (depth, e.form.label) :: e.under depth := by
  cases e with
  | binary op left right line => rcases op with op | op | op <;> rfl
  | val | letIn | unary | literal | ident => rfl

/-- Whether the names of a tree are identifiers and its leaves are tokens with a text to match.  A
declaration may stand anywhere. -/
def isLegible : Expr → Bool
  | val name value _ => isIdentifier name.toList && value.isLegible
  | letIn name bound body _ => isIdentifier name.toList && bound.isLegible && body.isLegible
  | binary _ left right _ => left.isLegible && right.isLegible
  | unary _ operand _ => operand.isLegible
  | literal t => t.kind ∈ Token.Kind.literals && t.isSpelled
  | ident t => t.kind == .ident && t.isSpelled

theorem isLegible_of_isPlain {e : Expr} (he : e.isPlain = true) : e.isLegible = true := by
  induction e with
  | val name value line => cases he
  | letIn name bound body line ihbound ihbody =>
      simp only [isPlain, Bool.and_eq_true] at he
      simp only [isLegible, Bool.and_eq_true]
      exact ⟨⟨he.1.1, ihbound he.1.2⟩, ihbody he.2⟩
  | binary op left right line ihleft ihright =>
      simp only [isPlain, Bool.and_eq_true] at he
      exact (Bool.and_eq_true _ _).mpr ⟨ihleft he.1, ihright he.2⟩
  | unary op operand line ih => exact ih he
  | literal | ident => exact he

/-- What can be written as a statement is legible. -/
theorem isLegible_of_isStatement {e : Expr} (he : e.isStatement = true) : e.isLegible = true := by
  cases e with
  | val name value line =>
      simp only [isStatement, Bool.and_eq_true] at he
      exact (Bool.and_eq_true _ _).mpr ⟨he.1, isLegible_of_isPlain he.2⟩
  | letIn | binary | unary | literal | ident => exact isLegible_of_isPlain he

/-- The name, operator or text in the label of a legible tree has no line feed. -/
theorem newline_not_mem_content {e : Expr} (he : e.isLegible = true) :
    '\n' ∉ e.form.content.toList := by
  cases e with
  | val name value line =>
      exact newline_not_mem_of_spells (k := .ident) (Bool.and_eq_true_iff.mp he).1
  | letIn => exact List.not_mem_nil
  | binary op left right line =>
      show '\n' ∉ op.symbol.toList
      rcases op with op | op | op <;> cases op <;> decide
  | unary op operand line =>
      show '\n' ∉ op.symbol.toList
      cases op <;> decide
  | literal t | ident t => exact newline_not_mem_of_spells (Bool.and_eq_true_iff.mp he).2

theorem forall_isLabel_outline {e : Expr} (he : e.isLegible = true) {depth : Nat}
    (hunder : ∀ row ∈ e.under depth, IsLabel row.2) : ∀ row ∈ e.outline depth, IsLabel row.2 := by
  rw [outline_eq]
  exact List.forall_mem_cons.mpr ⟨Form.isLabel (newline_not_mem_content he), hunder⟩

/-- The rows of a legible tree have labels. -/
theorem isLabel_outline {e : Expr} (he : e.isLegible = true) (depth : Nat) :
    ∀ row ∈ e.outline depth, IsLabel row.2 := by
  apply forall_isLabel_outline he
  induction e generalizing depth with
  | val name value line ih =>
      have hvalue := (Bool.and_eq_true_iff.mp he).2
      exact forall_isLabel_outline hvalue (ih hvalue _)
  | letIn name bound body line ihbound ihbody =>
      simp only [isLegible, Bool.and_eq_true] at he
      obtain ⟨⟨hname, hbound⟩, hbody⟩ := he
      have hname : IsLabel ("name: " ++ name) :=
        IsLabel.append ⟨by decide, by decide⟩ (by decide)
          (newline_not_mem_of_spells (k := .ident) hname)
      simp only [under, List.forall_mem_cons, List.forall_mem_append]
      exact ⟨hname, ⟨by decide, by decide⟩, forall_isLabel_outline hbound (ihbound hbound _),
        ⟨by decide, by decide⟩, forall_isLabel_outline hbody (ihbody hbody _)⟩
  | binary op left right line ihleft ihright =>
      obtain ⟨hleft, hright⟩ := Bool.and_eq_true_iff.mp he
      exact List.forall_mem_append.mpr ⟨forall_isLabel_outline hleft (ihleft hleft _),
        forall_isLabel_outline hright (ihright hright _)⟩
  | unary op operand line ih => exact forall_isLabel_outline (e := operand) he (ih he _)
  | literal | ident => exact List.forall_mem_nil _

/-- Trees with the same outline in front have the same label at the root, and the same rows behind
it. -/
theorem outline_append_cases {e f : Expr} {depth : Nat} {rest rest' : Outline}
    (h : e.outline depth ++ rest = f.outline depth ++ rest') :
    e.form = f.form ∧ e.under depth ++ rest = f.under depth ++ rest' := by
  rw [outline_eq, outline_eq, List.cons_append, List.cons_append] at h
  obtain ⟨hrow, hunder⟩ := List.cons.inj h
  exact ⟨Form.label_inj (Prod.mk.inj hrow).2, hunder⟩

/-- Two literals with the same text have the same kind. -/
theorem literal_onLine_eq {t u : Token} (ht : (literal t).isLegible = true)
    (hu : (literal u).isLegible = true) (h : t.text = u.text) : t.onLine 0 = u.onLine 0 := by
  obtain ⟨hkind, hspelled⟩ := Bool.and_eq_true_iff.mp ht
  have hspelled' := (Bool.and_eq_true_iff.mp hu).2
  have hne : t.text.toList ≠ [] := by
    intro hnil
    rw [Token.isSpelled, hnil] at hspelled
    have hempty : Token.Kind.literals.all (!·.spells []) = true := by decide
    have hnone := List.all_eq_true.mp hempty _ (of_decide_eq_true hkind)
    rw [hspelled] at hnone
    cases hnone
  rw [Token.isSpelled, ← h] at hspelled'
  have hkinds := Token.Kind.eq_of_spells hne hspelled hspelled'
  rw [Token.onLine, Token.mapLine, Token.onLine, Token.mapLine, hkinds, h]

/-- An outline is never the beginning of another: the tree can be told, but for its lines, and so can
what follows. -/
theorem outline_append_inj {e f : Expr} (he : e.isLegible = true) (hf : f.isLegible = true)
    {depth : Nat} {rest rest' : Outline}
    (h : e.outline depth ++ rest = f.outline depth ++ rest') :
    e.onLine 0 = f.onLine 0 ∧ rest = rest' := by
  induction e generalizing f depth rest rest' with
  | val name value line ih =>
      obtain ⟨hform, hunder⟩ := outline_append_cases h
      cases f with
      | val name' value' line' =>
          cases hform
          have hvalue := (Bool.and_eq_true_iff.mp he).2
          have hvalue' := (Bool.and_eq_true_iff.mp hf).2
          obtain ⟨hsame, hrest⟩ := ih hvalue hvalue' hunder
          exact ⟨congrArg (val name · 0) hsame, hrest⟩
      | letIn | binary | unary | literal | ident => cases hform
  | letIn name bound body line ihbound ihbody =>
      obtain ⟨hform, hunder⟩ := outline_append_cases h
      cases f with
      | letIn name' bound' body' line' =>
          simp only [isLegible, Bool.and_eq_true] at he hf
          simp only [under, List.cons_append, List.append_assoc] at hunder
          obtain ⟨hname, hunder⟩ := List.cons.inj hunder
          obtain ⟨hbound, hunder⟩ := ihbound he.1.2 hf.1.2 (List.cons.inj hunder).2
          obtain ⟨hbody, hrest⟩ := ihbody he.2 hf.2 (List.cons.inj hunder).2
          have hname : name = name' := (String.append_right_inj _).mp (Prod.mk.inj hname).2
          refine ⟨?_, hrest⟩
          show letIn name (bound.onLine 0) (body.onLine 0) 0 =
            letIn name' (bound'.onLine 0) (body'.onLine 0) 0
          rw [hname, hbound, hbody]
      | val | binary | unary | literal | ident => cases hform
  | binary op left right line ihleft ihright =>
      obtain ⟨hform, hunder⟩ := outline_append_cases h
      cases f with
      | binary op' left' right' line' =>
          cases hform
          obtain ⟨hleft, hright⟩ := Bool.and_eq_true_iff.mp he
          obtain ⟨hleft', hright'⟩ := Bool.and_eq_true_iff.mp hf
          simp only [under, List.append_assoc] at hunder
          obtain ⟨hl, hunder⟩ := ihleft hleft hleft' hunder
          obtain ⟨hr, hrest⟩ := ihright hright hright' hunder
          refine ⟨?_, hrest⟩
          show binary op (left.onLine 0) (right.onLine 0) 0 =
            binary op (left'.onLine 0) (right'.onLine 0) 0
          rw [hl, hr]
      | val | letIn | unary | literal | ident => cases hform
  | unary op operand line ih =>
      obtain ⟨hform, hunder⟩ := outline_append_cases h
      cases f with
      | unary op' operand' line' =>
          cases hform
          obtain ⟨hsame, hrest⟩ := ih (f := operand') he hf hunder
          exact ⟨congrArg (unary op · 0) hsame, hrest⟩
      | val | letIn | binary | literal | ident => cases hform
  | literal t =>
      obtain ⟨hform, hunder⟩ := outline_append_cases h
      cases f with
      | literal u =>
          have htext : t.text = u.text := Form.literal.inj hform
          exact ⟨congrArg literal (literal_onLine_eq he hf htext), hunder⟩
      | val | letIn | binary | unary | ident => cases hform
  | ident t =>
      obtain ⟨hform, hunder⟩ := outline_append_cases h
      cases f with
      | ident u =>
          have htext : t.text = u.text := Form.ident.inj hform
          have hkind : t.kind = .ident := eq_of_beq (Bool.and_eq_true_iff.mp he).1
          have hkind' : u.kind = .ident := eq_of_beq (Bool.and_eq_true_iff.mp hf).1
          refine ⟨?_, hunder⟩
          show ident ⟨t.kind, t.text, 0⟩ = ident ⟨u.kind, u.text, 0⟩
          rw [hkind, hkind', htext]
      | val | letIn | binary | unary | literal => cases hform

/-- Lines have no part in an outline. -/
theorem outline_mapLine (g : Nat → Nat) (e : Expr) (depth : Nat) :
    (e.mapLine g).outline depth = e.outline depth := by
  induction e generalizing depth with
  | val name value line ih => rw [mapLine, outline, outline, ih]
  | letIn name bound body line ihbound ihbody =>
      rw [mapLine, outline, outline, ihbound, ihbody]
  | binary op left right line ihleft ihright =>
      rw [mapLine, outline_eq, outline_eq, under, under, ihleft, ihright]
      rfl
  | unary op operand line ih => rw [mapLine, outline, outline, ih]
  | literal | ident => rfl

end Expr

/-! ### Programs -/

/-- Outlines one below the other can be told apart. -/
theorem flatMap_outline_inj {es fs : List Expr} (hes : ∀ e ∈ es, e.isLegible = true)
    (hfs : ∀ f ∈ fs, f.isLegible = true) {depth : Nat}
    (h : es.flatMap (·.outline depth) = fs.flatMap (·.outline depth)) :
    es.map (Expr.onLine 0) = fs.map (Expr.onLine 0) := by
  induction es generalizing fs with
  | nil =>
      cases fs with
      | nil => rfl
      | cons f fs =>
          rw [List.flatMap_cons, f.outline_eq] at h
          cases h
  | cons e es ih =>
      cases fs with
      | nil =>
          rw [List.flatMap_cons, e.outline_eq] at h
          cases h
      | cons f fs =>
          obtain ⟨he, hes⟩ := List.forall_mem_cons.mp hes
          obtain ⟨hf, hfs⟩ := List.forall_mem_cons.mp hfs
          rw [List.flatMap_cons, List.flatMap_cons] at h
          obtain ⟨hfirst, hothers⟩ := Expr.outline_append_inj he hf h
          rw [List.map_cons, List.map_cons, hfirst, ih hes hfs hothers]

namespace Program

/-- A program with everything put on one line. -/
def onLine (n : Nat) (p : Program) : Program :=
  p.mapLine fun _ => n

/-- Programs are equal but for their lines if their statements are. -/
theorem onLine_eq_iff {p q : Program} {n : Nat} :
    p.onLine n = q.onLine n ↔
      p.statements.map (Expr.onLine n) = q.statements.map (Expr.onLine n) := by
  constructor
  · intro h
    exact congrArg Program.statements h
  · intro h
    exact congrArg (Program.mk · n) h

/-- Whether all statements of a program are legible. -/
def IsLegible (p : Program) : Prop :=
  ∀ e ∈ p.statements, e.isLegible = true

/-- What has been read from a text is legible. -/
theorem isLegible_of_parse {s : String} {p : Program} (h : parse s = .ok p) : p.IsLegible := by
  intro e he
  have hstatement := List.all_eq_true.mp (isWellFormed_of_parse h) e he
  exact Expr.isLegible_of_isStatement hstatement

theorem isLabel_outline {p : Program} (hp : p.IsLegible) (depth : Nat) :
    ∀ row ∈ p.outline depth, IsLabel row.2 := by
  have hroot : IsLabel "Prog" := ⟨by decide, by decide⟩
  refine List.forall_mem_cons.mpr ⟨hroot, ?_⟩
  intro row hrow
  obtain ⟨e, he, hrow⟩ := List.mem_flatMap.mp hrow
  exact Expr.isLabel_outline (hp e he) _ row hrow

/-- Lines have no part in the outline of a program. -/
theorem outline_onLine (n : Nat) (p : Program) (depth : Nat) :
    (p.onLine n).outline depth = p.outline depth := by
  rw [outline, outline, onLine, mapLine, List.flatMap_map]
  simp only [Expr.outline_mapLine]

/-- The text of an outline tells its depth, and the program but for its lines. -/
theorem render_outline_eq_iff {p q : Program} (hp : p.IsLegible) (hq : q.IsLegible) {i j : Nat} :
    (p.outline i).render = (q.outline j).render ↔ i = j ∧ p.onLine 0 = q.onLine 0 := by
  constructor
  · intro h
    have hrows := Outline.render_inj (isLabel_outline hp i) (isLabel_outline hq j) h
    obtain ⟨hroot, hstatements⟩ := List.cons.inj hrows
    obtain ⟨rfl, -⟩ := Prod.mk.inj hroot
    exact ⟨rfl, onLine_eq_iff.mpr (flatMap_outline_inj hp hq hstatements)⟩
  · rintro ⟨rfl, h⟩
    rw [← outline_onLine 0 p, h, outline_onLine]

/-- The text for a program without statements is no outline. -/
theorem render_outline_ne_empty {p : Program} (hp : p.IsLegible) (depth : Nat) :
    (p.outline depth).render ≠ "EMPTY TREE\n" := by
  intro h
  have hempty : "EMPTY TREE\n" = Outline.render [(0, "EMPTY TREE")] := by decide
  rw [hempty] at h
  have hlabel : IsLabel "EMPTY TREE" := ⟨by decide, by decide⟩
  have hrows := Outline.render_inj (isLabel_outline hp depth)
    (List.forall_mem_singleton.mpr hlabel) h
  exact absurd (Prod.mk.inj (List.cons.inj hrows).1).2 (by decide)

/-- Lines have no part in the text of an outline. -/
theorem outlineText_onLine (n : Nat) (p : Program) :
    (p.onLine n).outlineText = p.outlineText := by
  have hempty : (p.onLine n).statements.isEmpty = p.statements.isEmpty := List.isEmpty_map
  rw [outlineText, outlineText, outline_onLine, hempty]

/-- The text for a program tells the program but for its lines. -/
theorem outlineText_eq_iff {p q : Program} (hp : p.IsLegible) (hq : q.IsLegible) :
    p.outlineText = q.outlineText ↔ p.onLine 0 = q.onLine 0 := by
  constructor
  · intro h
    rw [outlineText, outlineText] at h
    by_cases hpe : p.statements.isEmpty <;> by_cases hqe : q.statements.isEmpty
    · rw [onLine_eq_iff, List.isEmpty_iff.mp hpe, List.isEmpty_iff.mp hqe]
    · rw [if_pos hpe, if_neg hqe] at h
      exact absurd h.symm (render_outline_ne_empty hq 0)
    · rw [if_neg hpe, if_pos hqe] at h
      exact absurd h (render_outline_ne_empty hp 0)
    · rw [if_neg hpe, if_neg hqe] at h
      exact ((render_outline_eq_iff hp hq).mp h).2
  · intro h
    rw [← outlineText_onLine 0 p, h, outlineText_onLine]

end Program

/-- **Outlines are faithful.**  If two texts are read as programs, then the programs have the same
outline text exactly if they are equal but for their lines.  Drawn at any two depths, their outlines
are the same exactly if the depths are too and the programs are equal but for their lines. -/
theorem outline_faithful {s t : String} {p q : Program} (hp : parse s = .ok p)
    (hq : parse t = .ok q) :
    (p.outlineText = q.outlineText ↔ p.onLine 0 = q.onLine 0) ∧
      ∀ i j, (p.outline i).render = (q.outline j).render ↔ i = j ∧ p.onLine 0 = q.onLine 0 := by
  have hp := Program.isLegible_of_parse hp
  have hq := Program.isLegible_of_parse hq
  exact ⟨Program.outlineText_eq_iff hp hq, fun i j => Program.render_outline_eq_iff hp hq⟩

/-- The two texts have the same nodes with the same labels, and differ only in which `let` the second
one is in: in the body of the first, or in its value.  No outline of the one is one of the other. -/
theorem outline_faithful_nested_let :
    let p : Program := ⟨[.letIn "x" (.ident ⟨.ident, "a", 1⟩)
      (.letIn "y" (.ident ⟨.ident, "b", 1⟩) (.ident ⟨.ident, "c", 1⟩) 1) 1], 1⟩
    let q : Program := ⟨[.letIn "x" (.letIn "y" (.ident ⟨.ident, "a", 1⟩)
      (.ident ⟨.ident, "b", 1⟩) 1) (.ident ⟨.ident, "c", 2⟩) 2], 2⟩
    parse "let x := a in let y := b in c;" = .ok p ∧
      parse "let x := let y := a in b\n in c;" = .ok q ∧
      p.outlineText ≠ q.outlineText ∧ ∀ i j, (p.outline i).render ≠ (q.outline j).render := by
  intro p q
  have hp : parse "let x := a in let y := b in c;" = .ok p := by decide +kernel
  have hq : parse "let x := let y := a in b\n in c;" = .ok q := by decide +kernel
  have hne : p.onLine 0 ≠ q.onLine 0 := by decide +kernel
  obtain ⟨htext, hdepths⟩ := outline_faithful hp hq
  exact ⟨hp, hq, mt htext.mp hne, fun i j h => hne ((hdepths i j).mp h).2⟩

end LetCalc
