import LetCalc.Expr

/-!
# Moving a tree to other lines

`mapLine f` sends every line of a token or a tree through `f` and keeps all else.  `onLine n` puts
everything on line `n`; two trees differ only in their lines exactly if they agree on one line.

`lastLine` is the line of the last of some tokens: the line that an inner node is given.
-/

namespace LetCalc

/-- A token with its line sent through a function. -/
def Token.mapLine (f : Nat → Nat) (t : Token) : Token :=
  { t with line := f t.line }

/-- A token put on a line. -/
def Token.onLine (n : Nat) (t : Token) : Token :=
  t.mapLine fun _ => n

@[simp] theorem Token.kind_mapLine (f : Nat → Nat) (t : Token) : (t.mapLine f).kind = t.kind := rfl

@[simp] theorem Token.text_mapLine (f : Nat → Nat) (t : Token) : (t.mapLine f).text = t.text := rfl

@[simp] theorem Token.line_mapLine (f : Nat → Nat) (t : Token) :
    (t.mapLine f).line = f t.line := rfl

namespace Expr

/-- A tree with all its lines, those of its tokens too, sent through a function. -/
def mapLine (f : Nat → Nat) : Expr → Expr
  | val name value line => .val name (value.mapLine f) (f line)
  | letIn name bound body line => .letIn name (bound.mapLine f) (body.mapLine f) (f line)
  | binary op left right line => .binary op (left.mapLine f) (right.mapLine f) (f line)
  | unary op operand line => .unary op (operand.mapLine f) (f line)
  | literal token => .literal (token.mapLine f)
  | ident token => .ident (token.mapLine f)

/-- A tree with all its nodes and tokens put on one line. -/
def onLine (n : Nat) (e : Expr) : Expr :=
  e.mapLine fun _ => n

end Expr

/-- The line of the last token. -/
def lastLine (w : List Token) : Nat :=
  (w.getLast?.map (·.line)).getD 0

/-- One token has its own line. -/
@[simp] theorem lastLine_singleton (t : Token) : lastLine [t] = t.line := rfl

/-- What stands before other tokens has no say in their last line. -/
theorem lastLine_append {w v : List Token} (hv : v ≠ []) : lastLine (w ++ v) = lastLine v := by
  simp [lastLine, List.getLast?_append, List.getLast?_eq_some_getLast hv]

/-- A token in front does not change the last line. -/
theorem lastLine_cons {t : Token} {w : List Token} (hw : w ≠ []) :
    lastLine (t :: w) = lastLine w :=
  lastLine_append (w := [t]) hw

/-- If the lines are moved, the last one is moved too. -/
theorem lastLine_map (f : Nat → Nat) {w : List Token} (hw : w ≠ []) :
    lastLine (w.map (Token.mapLine f)) = f (lastLine w) := by
  simp [lastLine, List.getLast?_map, List.getLast?_eq_some_getLast hw]

/-- Tokens that are all on one line end on it. -/
theorem lastLine_eq_of_forall {w : List Token} {n : Nat} (hw : w ≠ [])
    (h : ∀ t ∈ w, t.line = n) : lastLine w = n := by
  have hlast := h (w.getLast hw) (List.getLast_mem hw)
  simp [lastLine, List.getLast?_eq_some_getLast hw, hlast]

end LetCalc
