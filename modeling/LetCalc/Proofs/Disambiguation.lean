import LetCalc.Proofs.Recognition

/-!
# Disambiguation

The grammar may derive a list of tokens in several ways, with trees that mean different things, for
instance `a + not b + c < d`.  Among its derivations there is **one** in which the operators of a
level are joined from the left and each `not` takes its longest operand (`Derivation`), and the
reader gives its tree.

So the tree depends only on the kinds and texts of the tokens.  Their lines are carried along: two
lists that agree on one line (`onLine`) are read alike.

Main statement: `program_eq_iff`.
-/

namespace LetCalc

/-- Tokens have at most one derivation as a program, since the reader finds each of them. -/
theorem ProgramDerivation.unique {w : List Token} {es fs : List Expr} (hes : ProgramDerivation w es)
    (hfs : ProgramDerivation w fs) : es = fs := by
  let start : Cursor := ⟨[], w, Token.endAt 0, rfl⟩
  have hread : ∀ {gs : List Expr}, ProgramDerivation w gs →
      start.program.1 = .ok ⟨gs, if w = [] then 0 else lastLine w⟩ :=
    fun hgs => Cursor.program_ok_iff_of_start.mpr ⟨hgs, rfl⟩
  have heq := (hread hes).symm.trans (hread hfs)
  cases heq
  rfl

/-! ### Lists that differ only in their lines -/

theorem map_kind_onLine (n : Nat) (w : List Token) :
    (w.map (Token.onLine n)).map Token.kind = w.map Token.kind := by
  rw [List.map_map]
  rfl

/-- The lines of tokens have no part in whether an end token is added to them. -/
theorem closed_onLine (n : Nat) (ts : List Token) :
    (closed (ts.map (Token.onLine n))).map (Token.onLine n) = (closed ts).map (Token.onLine n) := by
  have hkind : ∀ t : Token, (t.onLine n).kind = t.kind := fun _ => rfl
  have hagain : ∀ t : Token, (t.onLine n).onLine n = t.onLine n := fun _ => rfl
  have hend : ∀ line : Nat, (Token.endAt line).onLine n = Token.endAt n := fun _ => rfl
  rcases List.eq_nil_or_concat ts with rfl | ⟨w, t, rfl⟩
  · rfl
  · by_cases ht : t.kind = .endOfInput
    · simp [closed, ht, hkind, hagain]
    · simp [closed, ht, hkind, hagain, hend]

theorem ProgramDerivation.onLine (n : Nat) {w : List Token} {es : List Expr}
    (h : ProgramDerivation w es) :
    ProgramDerivation (w.map (Token.onLine n)) (es.map (Expr.onLine n)) :=
  h.mapLine fun _ => n

/-- If tokens have a derivation as a program, then so have the same tokens on other lines, and the
statements are the same on other lines. -/
theorem ProgramDerivation.exists_of_onLine_eq {w v : List Token} {es : List Expr}
    (h : ProgramDerivation w es) {n : Nat}
    (hwv : v.map (Token.onLine n) = w.map (Token.onLine n)) :
    ∃ fs, ProgramDerivation v fs ∧ fs.map (Expr.onLine n) = es.map (Expr.onLine n) := by
  have hkinds : v.map Token.kind = w.map Token.kind := by
    rw [← map_kind_onLine n v, hwv, map_kind_onLine]
  have hderives := h.derives
  rw [← hkinds] at hderives
  obtain ⟨fs, hfs⟩ := exists_programDerivation_iff.mpr hderives
  -- on one line the two derivations are from the same tokens
  have hline := hfs.onLine n
  rw [hwv] at hline
  exact ⟨fs, hfs, hline.unique (h.onLine n)⟩

/-- Two lists of tokens that differ only in their lines are read alike. -/
theorem exists_program_of_onLine_eq {ts us : List Token} {p : Program}
    (hp : (Cursor.ofTokens ts).program.1 = .ok p) {n : Nat}
    (hus : us.map (Token.onLine n) = ts.map (Token.onLine n)) :
    ∃ q, (Cursor.ofTokens us).program.1 = .ok q ∧
      q.statements.map (Expr.onLine n) = p.statements.map (Expr.onLine n) := by
  obtain ⟨w, t, ht, hts, hcursor⟩ := Cursor.exists_closed ts
  obtain ⟨v, u, hu, hus', hcursor'⟩ := Cursor.exists_closed us
  have hclosed : (v ++ [u]).map (Token.onLine n) = (w ++ [t]).map (Token.onLine n) := by
    rw [← hus', ← hts, ← closed_onLine, hus, closed_onLine]
  rw [List.map_append, List.map_append] at hclosed
  obtain ⟨hwv, -⟩ := List.append_inj' hclosed rfl
  rw [hcursor] at hp
  rw [hcursor']
  have hderivation := (Cursor.program_ok_iff_of_start.mp hp).1
  obtain ⟨fs, hfs, heq⟩ := hderivation.exists_of_onLine_eq hwv
  exact ⟨⟨fs, _⟩, Cursor.program_ok_iff_of_start.mpr ⟨hfs, rfl⟩, heq⟩

/-- **The tree is the right one.**  If a program is read from a list of tokens, then the grammar
derives the tokens before the end token, and the statements that are read are those of a derivation
in which operators are joined from the left and each `not` takes its longest operand.  With lines
left aside, there are no others, and any list with the same kinds and texts is read as these
statements too. -/
theorem program_eq_iff {ts : List Token} {p : Program}
    (hp : (Cursor.ofTokens ts).program.1 = .ok p) :
    ∃ w t, closed ts = w ++ [t] ∧ t.kind = .endOfInput ∧
      Derives (.rule .program) (w.map Token.kind) ∧
      ProgramDerivation w p.statements ∧
      (∀ es, ProgramDerivation (w.map (Token.onLine 0)) es ↔
        es = p.statements.map (Expr.onLine 0)) ∧
      (∀ us : List Token, us.map (Token.onLine 0) = ts.map (Token.onLine 0) →
        ∃ q, (Cursor.ofTokens us).program.1 = .ok q ∧
          q.statements.map (Expr.onLine 0) = p.statements.map (Expr.onLine 0)) := by
  obtain ⟨w, t, ht, hclosed, hcursor⟩ := Cursor.exists_closed ts
  have hstart := hp
  rw [hcursor] at hstart
  have hderivation := (Cursor.program_ok_iff_of_start.mp hstart).1
  have hline := hderivation.onLine 0
  refine ⟨w, t, hclosed, ht, hderivation.derives, hderivation, ?_, ?_⟩
  · intro es
    constructor
    · intro hes
      exact hes.unique hline
    · intro heq
      rw [heq]
      exact hline
  · intro us hus
    exact exists_program_of_onLine_eq hp hus

/-- The `not` of `a + not b + c < d` takes all that is behind it, and this is the only tree. -/
theorem program_eq_iff_not :
    (Cursor.ofTokens [⟨.ident, "a", 3⟩, ⟨.plus, "+", 3⟩, ⟨.notWord, "not", 4⟩, ⟨.ident, "b", 4⟩,
      ⟨.plus, "+", 5⟩, ⟨.ident, "c", 5⟩, ⟨.lt, "<", 5⟩, ⟨.ident, "d", 6⟩,
      ⟨.semicolon, ";", 6⟩]).program.1 =
        .ok ⟨[.binary (.arith .add) (.ident ⟨.ident, "a", 3⟩)
          (.unary .not (.binary (.compare .lt)
            (.binary (.arith .add) (.ident ⟨.ident, "b", 4⟩) (.ident ⟨.ident, "c", 5⟩) 5)
            (.ident ⟨.ident, "d", 6⟩) 6) 6) 6], 6⟩ ∧
      ∀ es, ProgramDerivation [⟨.ident, "a", 0⟩, ⟨.plus, "+", 0⟩, ⟨.notWord, "not", 0⟩,
        ⟨.ident, "b", 0⟩, ⟨.plus, "+", 0⟩, ⟨.ident, "c", 0⟩, ⟨.lt, "<", 0⟩, ⟨.ident, "d", 0⟩,
        ⟨.semicolon, ";", 0⟩] es ↔
          es = [.binary (.arith .add) (.ident ⟨.ident, "a", 0⟩)
            (.unary .not (.binary (.compare .lt)
              (.binary (.arith .add) (.ident ⟨.ident, "b", 0⟩) (.ident ⟨.ident, "c", 0⟩) 0)
              (.ident ⟨.ident, "d", 0⟩) 0) 0) 0] := by
  refine (fun hp => ⟨hp, ?_⟩) (by decide +kernel)
  obtain ⟨w, t, hclosed, -, -, -, hunique, -⟩ := program_eq_iff hp
  obtain ⟨rfl, -⟩ := List.append_inj' hclosed rfl
  exact hunique

end LetCalc
