import LetCalc.Proofs.Atomicity

/-!
# Environments as maps

An environment is a list of bindings, but only its look-ups matter: they determine it
(`Environment.ext_lookup`), since the names rise along the list.  Of bindings made in order the last
one for a name counts (`Environment.lookup_bindAll`).

An environment can be put **over** another: `lower.override upper` has the bindings of `upper`, and
those of `lower` for the names that `upper` does not bind (`Environment.lookup_override`).  -/

namespace LetCalc

namespace Environment

/-! ### Look-ups determine an environment -/

/-- A name that comes before all others has no binding among them. -/
theorem lookup_eq_none_of_lt {x : String} {bs : List Binding} (h : ∀ b ∈ bs, x < b.1) :
    bs.lookup x = none := by
  rw [List.lookup_eq_none_iff]
  intro b hb
  rw [bne_iff_ne]
  rintro rfl
  exact String.lt_irrefl _ (h b hb)

/-- The first names of two lists of bindings with the same look-ups are not in the wrong order. -/
theorem not_lt_of_lookup_eq {x y : String} {v w : Value} {as bs : List Binding}
    (hb : ∀ b ∈ bs, y < b.1)
    (h : List.lookup x ((x, v) :: as) = List.lookup x ((y, w) :: bs)) : ¬ x < y := by
  intro hlt
  have hnone : List.lookup x ((y, w) :: bs) = none := by
    refine lookup_eq_none_of_lt (List.forall_mem_cons.mpr ⟨hlt, ?_⟩)
    intro b hmem
    exact String.lt_trans hlt (hb b hmem)
  rw [hnone, lookup_cons_eq_ite, if_pos rfl] at h
  cases h

/-- Bindings in rising order with the same look-ups are the same. -/
theorem eq_of_lookup_eq {as bs : List Binding} (ha : as.Pairwise (·.1 < ·.1))
    (hb : bs.Pairwise (·.1 < ·.1)) (h : ∀ x, as.lookup x = bs.lookup x) : as = bs := by
  induction as generalizing bs with
  | nil =>
      cases bs with
      | nil => rfl
      | cons b bs =>
          have hfirst := h b.1
          rw [lookup_cons_eq_ite, if_pos rfl] at hfirst
          cases hfirst
  | cons a as ih =>
      cases bs with
      | nil =>
          have hfirst := h a.1
          rw [lookup_cons_eq_ite, if_pos rfl] at hfirst
          cases hfirst
      | cons b bs =>
          obtain ⟨x, v⟩ := a
          obtain ⟨y, w⟩ := b
          obtain ⟨hx, has⟩ := List.pairwise_cons.mp ha
          obtain ⟨hy, hbs⟩ := List.pairwise_cons.mp hb
          have hxy : x = y := by
            refine String.le_antisymm ?_ ?_
            · exact String.not_lt.mp (not_lt_of_lookup_eq hx (h y).symm)
            · exact String.not_lt.mp (not_lt_of_lookup_eq hy (h x))
          subst hxy
          have hvalue := h x
          rw [lookup_cons_eq_ite, lookup_cons_eq_ite, if_pos rfl, if_pos rfl] at hvalue
          cases hvalue
          refine congrArg _ (ih has hbs ?_)
          intro z
          by_cases hz : z = x
          · rw [hz, lookup_eq_none_of_lt hx, lookup_eq_none_of_lt hy]
          · have hrest := h z
            rwa [lookup_cons_eq_ite, lookup_cons_eq_ite, if_neg hz, if_neg hz] at hrest

/-- Environments with the same look-ups are equal. -/
theorem ext_lookup {env env' : Environment} (h : ∀ x, env.lookup x = env'.lookup x) :
    env = env' := by
  obtain ⟨as, ha⟩ := env
  obtain ⟨bs, hb⟩ := env'
  obtain rfl : as = bs := eq_of_lookup_eq ha hb h
  rfl

/-! ### Bindings made in order -/

/-- Of bindings made in order the last one for a name counts. -/
theorem lookup_bindAll (env : Environment) (bs : List Binding) (x : String) :
    (env.bindAll bs).lookup x = (bs.reverse.lookup x).or (env.lookup x) := by
  induction bs generalizing env with
  | nil => rfl
  | cons b bs ih =>
      obtain ⟨name, v⟩ := b
      have hrest : (env.bindAll ((name, v) :: bs)).lookup x = _ := ih (env.bind name v)
      rw [hrest, List.reverse_cons, List.lookup_append, Option.or_assoc, lookup_bind,
        lookup_cons_eq_ite]
      by_cases hx : x = name
      · rw [if_pos hx, if_pos hx]
        rfl
      · rw [if_neg hx, if_neg hx]
        rfl

/-- Where no name is bound twice the order does not count. -/
theorem lookup_reverse {bs : List Binding} (h : bs.Pairwise (·.1 < ·.1)) (x : String) :
    bs.reverse.lookup x = bs.lookup x := by
  induction bs with
  | nil => rfl
  | cons b bs ih =>
      obtain ⟨name, v⟩ := b
      obtain ⟨hname, hbs⟩ := List.pairwise_cons.mp h
      rw [List.reverse_cons, List.lookup_append, ih hbs, lookup_cons_eq_ite, lookup_cons_eq_ite]
      by_cases hx : x = name
      · rw [if_pos hx, if_pos hx, hx, lookup_eq_none_of_lt hname]
        rfl
      · rw [if_neg hx, if_neg hx]
        exact Option.or_none

/-! ### One environment over another -/

/-- The environment `lower` with all bindings of `upper` made in it. -/
def override (lower upper : Environment) : Environment :=
  lower.bindAll upper.bindings

/-- The upper environment counts for the names that it binds, the lower one for all others. -/
@[simp] theorem lookup_override (lower upper : Environment) (x : String) :
    (lower.override upper).lookup x = (upper.lookup x).or (lower.lookup x) := by
  rw [override, lookup_bindAll, lookup_reverse upper.sorted]
  rfl

theorem override_empty (env : Environment) : env.override .empty = env := rfl

theorem override_self (env : Environment) : env.override env = env := by
  apply ext_lookup
  intro x
  rw [lookup_override, Option.or_self]

/-- A binding made on top is one of the upper environment. -/
theorem override_bindAll (lower upper : Environment) (bs : List Binding) :
    (lower.override upper).bindAll bs = lower.override (upper.bindAll bs) := by
  apply ext_lookup
  intro x
  rw [lookup_bindAll, lookup_override, lookup_override, lookup_bindAll, Option.or_assoc]

end Environment

end LetCalc
