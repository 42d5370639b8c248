import LetCalc.Value

/-!
# Environments

An **environment** gives values to finitely many names.  It is kept as a list of bindings in rising
order of the names, so that equal environments have equal lists.

Main statement: `lookup_bind` says what a new binding changes.
-/

namespace LetCalc

/-- A name and its value. -/
abbrev Binding := String × Value

/-- Bindings in strictly rising order of their names. -/
structure Environment where
  bindings : List Binding
  sorted : bindings.Pairwise (·.1 < ·.1)

namespace Environment

/-- No bindings. -/
def empty : Environment :=
  ⟨[], .nil⟩

/-- Puts a binding in its place, instead of one for the same name. -/
def insert (name : String) (v : Value) : List Binding → List Binding
  | [] => [(name, v)]
  | b :: bs =>
    if name < b.1 then (name, v) :: b :: bs
    else if name = b.1 then (name, v) :: bs
    else b :: insert name v bs

theorem mem_insert {name : String} {v : Value} {a : Binding} {bs : List Binding}
    (h : a ∈ insert name v bs) : a = (name, v) ∨ a ∈ bs := by
  induction bs with
  | nil => exact .inl (List.mem_singleton.mp h)
  | cons b bs ih =>
    unfold insert at h
    split at h
    · exact List.mem_cons.mp h
    · split at h
      · exact (List.mem_cons.mp h).imp id (List.mem_cons_of_mem b)
      · rcases List.mem_cons.mp h with rfl | h
        · exact .inr (List.mem_cons_self ..)
        · exact (ih h).imp id (List.mem_cons_of_mem b)

theorem lt_of_not_lt_of_ne {a b : String} (h : ¬ a < b) (hne : a ≠ b) : b < a := by
  apply Decidable.byContradiction
  intro hba
  exact hne (String.le_antisymm (String.not_lt.mp hba) (String.not_lt.mp h))

theorem pairwise_insert {name : String} {v : Value} {bs : List Binding}
    (h : bs.Pairwise (·.1 < ·.1)) : (insert name v bs).Pairwise (·.1 < ·.1) := by
  induction bs with
  | nil => exact List.pairwise_singleton ..
  | cons b bs ih =>
    obtain ⟨hb, hbs⟩ := List.pairwise_cons.mp h
    unfold insert
    split
    · rename_i hlt
      refine List.pairwise_cons.mpr ⟨fun a ha => ?_, h⟩
      rcases List.mem_cons.mp ha with rfl | ha
      · exact hlt
      · exact String.lt_trans hlt (hb a ha)
    · rename_i hlt
      split
      · rename_i heq
        exact List.pairwise_cons.mpr ⟨fun a ha => heq ▸ hb a ha, hbs⟩
      · rename_i hne
        refine List.pairwise_cons.mpr ⟨fun a ha => ?_, ih hbs⟩
        rcases mem_insert ha with rfl | ha
        · exact lt_of_not_lt_of_ne hlt hne
        · exact hb a ha

/-- Gives a name a value.  An earlier value of the name is lost. -/
def bind (env : Environment) (name : String) (v : Value) : Environment :=
  ⟨insert name v env.bindings, pairwise_insert env.sorted⟩

/-- The value of a name. -/
def lookup (env : Environment) (name : String) : Option Value :=
  env.bindings.lookup name

/-- Whether a name has a value. -/
def contains (env : Environment) (name : String) : Bool :=
  (env.lookup name).isSome

/-- The names with a value, in rising order. -/
def names (env : Environment) : List String :=
  env.bindings.map (·.1)

/-- How many names have a value. -/
def size (env : Environment) : Nat :=
  env.bindings.length

theorem lookup_cons_eq_ite (x y : String) (w : Value) (bs : List Binding) :
    List.lookup x ((y, w) :: bs) = if x = y then some w else bs.lookup x := by
  rw [List.lookup_cons]
  by_cases hx : x = y
  · simp [hx]
  · simp [hx, beq_false_of_ne hx]

theorem lookup_insert (name x : String) (v : Value) (bs : List Binding) :
    (insert name v bs).lookup x = if x = name then some v else bs.lookup x := by
  induction bs with
  | nil => exact lookup_cons_eq_ite x name v []
  | cons b bs ih =>
    obtain ⟨y, w⟩ := b
    unfold insert
    split
    · rw [lookup_cons_eq_ite]
    · split
      · rename_i hy
        have hy : name = y := hy
        rw [lookup_cons_eq_ite, lookup_cons_eq_ite, hy]
        by_cases hx : x = y <;> simp [hx]
      · rename_i hy
        have hy : name ≠ y := hy
        rw [lookup_cons_eq_ite, lookup_cons_eq_ite, ih]
        by_cases hx : x = name
        · simp [hx, hy]
        · simp [hx]

/-- A binding changes the value of its own name and of no other. -/
@[simp] theorem lookup_bind (env : Environment) (name x : String) (v : Value) :
    (env.bind name v).lookup x = if x = name then some v else env.lookup x :=
  lookup_insert name x v env.bindings

/-- Environments are equal (`==`) if they give equal values to the same names. -/
instance : BEq Environment where
  beq a b := a.bindings == b.bindings

end Environment

end LetCalc
