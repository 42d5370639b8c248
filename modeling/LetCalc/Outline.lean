import LetCalc.Expr

/-!
# Outlines

An **outline** shows a tree as indented lines, a node above its children.  Each line is a label with
its depth; `Outline.render` writes two blanks for each step of depth.
-/

namespace LetCalc

/-- Labels with their depths, from top to bottom. -/
abbrev Outline := List (Nat × String)

/-- One line: two blanks for each step of depth, then the label. -/
def Outline.renderLine (depth : Nat) (label : String) : String :=
  String.ofList (List.replicate (2 * depth) ' ') ++ label ++ "\n"

/-- An outline as text. -/
def Outline.render (lines : Outline) : String :=
  String.join (lines.map fun l => renderLine l.1 l.2)

/-- The outline of an expression whose root is at a given depth. -/
def Expr.outline (depth : Nat) : Expr → Outline
  | val name value _ => (depth, "Val(" ++ name ++ " :=)") :: value.outline (depth + 1)
  | letIn name bound body _ =>
    (depth, "Let") :: (depth + 1, "name: " ++ name) :: (depth + 1, "value:") ::
      bound.outline (depth + 2) ++ (depth + 1, "in:") :: body.outline (depth + 2)
  | binary (.compare op) left right _ =>
    (depth, "RelOp(" ++ op.symbol ++ ")") ::
      left.outline (depth + 1) ++ right.outline (depth + 1)
  | binary op left right _ =>
    (depth, "BinOp(" ++ op.symbol ++ ")") ::
      left.outline (depth + 1) ++ right.outline (depth + 1)
  | unary op operand _ =>
    (depth, "UnaryOp(" ++ op.symbol ++ ")") :: operand.outline (depth + 1)
  | literal token => [(depth, "Literal(" ++ token.text ++ ")")]
  | ident token => [(depth, "Ident(" ++ token.text ++ ")")]

namespace Program

/-- The outline of a program: its statements below one root. -/
def outline (depth : Nat) (p : Program) : Outline :=
  (depth, "Prog") :: p.statements.flatMap (·.outline (depth + 1))

/-- The outline of a whole program as text.  A program without statements has a text of its own. -/
def outlineText (p : Program) : String :=
  if p.statements.isEmpty then "EMPTY TREE\n" else (p.outline 0).render

end Program

end LetCalc
