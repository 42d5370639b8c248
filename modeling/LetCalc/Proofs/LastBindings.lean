import LetCalc.Proofs.Bindings
import LetCalc.Proofs.Patterns

/-!
# The last binding of each name

An environment that bindings were made in, one after the other, is settled by the **last** binding of
each name.  It answers look-ups with it, and it lists each name once.  Nothing else of the bindings
is left: not the values that were lost, and not the order in which different names were bound.

Environments are compared (`==`) name by name (`Environment.beq_iff_lookup`), with the equality of
values.  That one is not reflexive: a NaN differs from itself, and so does an environment with a NaN
in it.

Main statement: `bindAll_lastFor`.
-/

namespace LetCalc

/-! ### Values that differ from themselves -/

/-- A double is equal to itself unless it is a NaN. -/
theorem real_beq_self (x : Float) : (x == x) = !x.isNaN := by
  rcases Binary64.exists_toReal x with ⟨negative, pattern, h, rfl⟩ | ⟨negative, rfl⟩ | rfl
  · rw [real_beq_eq, Binary64.compare_toReal negative negative h h, Int.compare_eq_eq.mpr rfl,
      (Binary64.status_toReal negative h).2.2]
    rfl
  · cases negative <;> decide +kernel
  · decide +kernel

/-- Whether a value is a NaN. -/
def Value.isNaN : Value → Bool
  | real x => x.isNaN
  | int _ | bool _ => false

/-- A value is equal to itself unless it is a NaN. -/
theorem Value.beq_self (v : Value) : (v == v) = !v.isNaN := by
  cases v with
  | int n => exact beq_self_eq_true n
  | real x => exact real_beq_self x
  | bool b => exact beq_self_eq_true b

/-- The code points of a text. -/
def codePoints (s : String) : List Nat :=
  s.toList.map Char.toNat

namespace Environment

/-! ### Environments are compared name by name -/

theorem beq_cons (x y : String) (v w : Value) (as bs : List Binding) :
    (((x, v) :: as) == ((y, w) :: bs)) = true ↔ x = y ∧ (v == w) = true ∧ (as == bs) = true := by
  have hpair : ((x, v) == (y, w)) = ((x == y) && (v == w)) := rfl
  rw [List.cons_beq_cons, hpair, Bool.and_eq_true, Bool.and_eq_true, beq_iff_eq, and_assoc]

/-- Equal bindings are equal for each name. -/
theorem lookup_beq_of_beq {as bs : List Binding} (h : (as == bs) = true) (x : String) :
    (as.lookup x == bs.lookup x) = true := by
  induction as generalizing bs with
  | nil =>
      cases bs with
      | nil => rfl
      | cons b bs => cases h
  | cons a as ih =>
      cases bs with
      | nil => cases h
      | cons b bs =>
          obtain ⟨y, v⟩ := a
          obtain ⟨z, w⟩ := b
          obtain ⟨rfl, hvalue, hrest⟩ := (beq_cons ..).mp h
          rw [lookup_cons_eq_ite, lookup_cons_eq_ite]
          by_cases hx : x = y
          · rw [if_pos hx, if_pos hx]
            exact hvalue
          · rw [if_neg hx, if_neg hx]
            exact ih hrest

/-- Bindings that all come behind a name differ at it from bindings with the name. -/
theorem not_lookup_beq_of_lt {x : String} {v : Value} {as bs : List Binding}
    (h : ∀ b ∈ bs, x < b.1) :
    ¬ (List.lookup x ((x, v) :: as) == bs.lookup x) = true ∧
      ¬ (bs.lookup x == List.lookup x ((x, v) :: as)) = true := by
  rw [lookup_cons_eq_ite, if_pos rfl, lookup_eq_none_of_lt h]
  exact ⟨Bool.false_ne_true, Bool.false_ne_true⟩

/-- Bindings in rising order that are equal for each name are equal. -/
theorem beq_of_lookup_beq {as bs : List Binding} (ha : as.Pairwise (·.1 < ·.1))
    (hb : bs.Pairwise (·.1 < ·.1)) (h : ∀ x, (as.lookup x == bs.lookup x) = true) :
    (as == bs) = true := by
  induction as generalizing bs with
  | nil =>
      cases bs with
      | nil => rfl
      | cons b bs => exact absurd (h b.1) (not_lookup_beq_of_lt (List.forall_mem_nil _)).2
  | cons a as ih =>
      cases bs with
      | nil => exact absurd (h a.1) (not_lookup_beq_of_lt (List.forall_mem_nil _)).1
      | cons b bs =>
          obtain ⟨x, v⟩ := a
          obtain ⟨y, w⟩ := b
          obtain ⟨hx, has⟩ := List.pairwise_cons.mp ha
          obtain ⟨hy, hbs⟩ := List.pairwise_cons.mp hb
          -- if the first names were different, the lower one would be missing on the other side
          have hxy : ¬ x < y := by
            intro hlt
            refine absurd (h x) (not_lookup_beq_of_lt (List.forall_mem_cons.mpr ⟨hlt, ?_⟩)).1
            exact fun c hc => String.lt_trans hlt (hy c hc)
          have hyx : ¬ y < x := by
            intro hlt
            refine absurd (h y) (not_lookup_beq_of_lt (List.forall_mem_cons.mpr ⟨hlt, ?_⟩)).2
            exact fun c hc => String.lt_trans hlt (hx c hc)
          obtain rfl : x = y := String.le_antisymm (String.not_lt.mp hyx) (String.not_lt.mp hxy)
          have hvalue := h x
          rw [lookup_cons_eq_ite, lookup_cons_eq_ite, if_pos rfl, if_pos rfl] at hvalue
          refine (beq_cons ..).mpr ⟨rfl, hvalue, ih has hbs ?_⟩
          intro z
          by_cases hz : z = x
          · rw [hz, lookup_eq_none_of_lt hx, lookup_eq_none_of_lt hy]
            rfl
          · have hrest := h z
            rwa [lookup_cons_eq_ite, lookup_cons_eq_ite, if_neg hz, if_neg hz] at hrest

/-- Environments are equal if they answer each look-up with equal values. -/
theorem beq_iff_lookup {env env' : Environment} :
    (env == env') = true ↔ ∀ x, (env.lookup x == env'.lookup x) = true :=
  ⟨lookup_beq_of_beq, beq_of_lookup_beq env.sorted env'.sorted⟩

/-- An environment differs from itself exactly if it has a NaN. -/
theorem beq_self_eq_false {env : Environment} :
    (env == env) = false ↔ ∃ x v, env.lookup x = some v ∧ v.isNaN = true := by
  rw [← Bool.not_eq_true, beq_iff_lookup, Classical.not_forall]
  apply exists_congr
  intro x
  cases env.lookup x with
  | none => simp
  | some v => simp [Value.beq_self]

/-! ### Names -/

theorem not_mem_names_iff {bs : List Binding} {x : String} :
    x ∉ bs.map (·.1) ↔ ∀ b ∈ bs, (x != b.1) = true := by
  constructor
  · intro h b hb
    rw [bne_iff_ne]
    rintro rfl
    exact h (List.mem_map_of_mem hb)
  · intro h hx
    obtain ⟨b, hb, rfl⟩ := List.mem_map.mp hx
    exact bne_iff_ne.mp (h b hb) rfl

theorem lookup_isSome_iff_mem {bs : List Binding} {x : String} :
    (bs.lookup x).isSome = true ↔ x ∈ bs.map (·.1) := by
  rw [← Decidable.not_iff_not, not_mem_names_iff, ← List.lookup_eq_none_iff,
    Option.not_isSome_iff_eq_none]

/-- The names of an environment rise strictly, by their code points. -/
theorem names_pairwise (env : Environment) :
    env.names.Pairwise (codePoints · < codePoints ·) := by
  refine List.pairwise_map.mpr (env.sorted.imp ?_)
  intro a b hab
  exact List.map_lt (fun _ _ hlt => hlt) (String.lt_iff.mp hab)

end Environment

/-! ### The last binding -/

/-- The last of some bindings for a name gives it this value. -/
def LastFor (x : String) (v : Value) (bs : List Binding) : Prop :=
  ∃ before behind, bs = before ++ (x, v) :: behind ∧ x ∉ behind.map (·.1)

namespace Environment

theorem lookup_bindAll_empty (bs : List Binding) (x : String) :
    (empty.bindAll bs).lookup x = bs.reverse.lookup x := by
  rw [lookup_bindAll]
  exact Option.or_none

/-- The last binding of a name counts. -/
theorem lookup_bindAll_eq_some {bs : List Binding} {x : String} {v : Value} :
    (empty.bindAll bs).lookup x = some v ↔ LastFor x v bs := by
  rw [lookup_bindAll_empty, List.lookup_eq_some_iff]
  constructor
  · rintro ⟨us, ws, hreverse, hus⟩
    refine ⟨ws.reverse, us.reverse, ?_, ?_⟩
    · rw [← List.reverse_reverse bs, hreverse]
      simp
    · rw [List.map_reverse, List.mem_reverse]
      exact not_mem_names_iff.mpr hus
  · rintro ⟨before, behind, rfl, hbehind⟩
    refine ⟨behind.reverse, before.reverse, by simp, ?_⟩
    rw [← List.mem_reverse, ← List.map_reverse] at hbehind
    exact not_mem_names_iff.mp hbehind

/-- The names that were bound are the names of the environment. -/
theorem mem_names_bindAll {bs : List Binding} {x : String} :
    x ∈ (empty.bindAll bs).names ↔ x ∈ bs.map (·.1) := by
  have hlookup : x ∈ (empty.bindAll bs).names ↔ ((empty.bindAll bs).lookup x).isSome = true :=
    lookup_isSome_iff_mem.symm
  rw [hlookup, lookup_bindAll_empty, lookup_isSome_iff_mem, List.map_reverse, List.mem_reverse]

/-- Bindings for other names have no part in a look-up. -/
theorem lookup_filter (bs : List Binding) (x : String) :
    (bs.filter (·.1 == x)).lookup x = bs.lookup x := by
  induction bs with
  | nil => rfl
  | cons b bs ih =>
      obtain ⟨y, v⟩ := b
      rw [List.filter_cons, lookup_cons_eq_ite]
      by_cases hx : x = y
      · rw [if_pos hx, if_pos (beq_iff_eq.mpr hx.symm), lookup_cons_eq_ite, if_pos hx]
      · rw [if_neg hx, if_neg (mt beq_iff_eq.mp (Ne.symm hx)), ih]

/-- Bindings that are made in the same order for each name leave the same environment, however those
for different names are mixed. -/
theorem bindAll_eq_of_filter_eq {bs cs : List Binding}
    (h : ∀ x, bs.filter (·.1 == x) = cs.filter (·.1 == x)) :
    empty.bindAll bs = empty.bindAll cs := by
  apply ext_lookup
  intro x
  calc
    (empty.bindAll bs).lookup x = (bs.filter (·.1 == x)).reverse.lookup x := by
      rw [lookup_bindAll_empty, ← List.filter_reverse, lookup_filter]
    _ = (cs.filter (·.1 == x)).reverse.lookup x := by rw [h]
    _ = (empty.bindAll cs).lookup x := by
      rw [lookup_bindAll_empty, ← List.filter_reverse, lookup_filter]

/-- Environments are equal if they have the same names and equal values for them. -/
theorem beq_iff_names {env env' : Environment} :
    (env == env') = true ↔
      (∀ x, x ∈ env.names ↔ x ∈ env'.names) ∧
        ∀ x v w, env.lookup x = some v → env'.lookup x = some w → (v == w) = true := by
  rw [beq_iff_lookup, ← forall_and]
  apply forall_congr'
  intro x
  have hname : ∀ e : Environment, x ∈ e.names ↔ (e.lookup x).isSome = true := fun _ =>
    lookup_isSome_iff_mem.symm
  rw [hname, hname]
  cases env.lookup x <;> cases env'.lookup x <;> simp

end Environment

/-- **The last binding of each name counts.**  Let bindings `bs` be made in order in an empty
environment.  Then a name has a value exactly if it was bound, and it is the value of its last
binding.  The names are those that were bound, each of them once, rising by their code points; the
size is how many there are.  The environment is equal to one made by bindings `cs` exactly if the same
names were bound and their last values are equal.  It is the very same if the bindings for each name
are, whatever the order between different names.  It differs from itself exactly if the last value of
some name is a NaN. -/
theorem bindAll_lastFor (bs : List Binding) :
    let env := Environment.empty.bindAll bs
    (∀ x v, env.lookup x = some v ↔ LastFor x v bs) ∧
    (∀ x, env.lookup x = none ↔ x ∉ bs.map (·.1)) ∧
    (∀ x, env.contains x = true ↔ x ∈ bs.map (·.1)) ∧
    env.names.Pairwise (codePoints · < codePoints ·) ∧
    (∀ x, x ∈ env.names ↔ x ∈ bs.map (·.1)) ∧
    env.size = env.names.length ∧
    (∀ cs, (env == Environment.empty.bindAll cs) = true ↔
      (∀ x, x ∈ bs.map (·.1) ↔ x ∈ cs.map (·.1)) ∧
        ∀ x v w, LastFor x v bs → LastFor x w cs → (v == w) = true) ∧
    (∀ cs, (∀ x, bs.filter (·.1 == x) = cs.filter (·.1 == x)) →
      env = Environment.empty.bindAll cs) ∧
    ((env == env) = false ↔ ∃ x v, LastFor x v bs ∧ v.isNaN = true) := by
  intro env
  have hlast : ∀ cs x v, (Environment.empty.bindAll cs).lookup x = some v ↔ LastFor x v cs :=
    fun _ _ _ => Environment.lookup_bindAll_eq_some
  have hnames : ∀ cs x, x ∈ (Environment.empty.bindAll cs).names ↔ x ∈ cs.map (·.1) :=
    fun _ _ => Environment.mem_names_bindAll
  have hcontains : ∀ x, env.contains x = true ↔ x ∈ bs.map (·.1) := fun x =>
    Environment.lookup_isSome_iff_mem.trans (hnames bs x)
  refine ⟨hlast bs, ?_, hcontains, env.names_pairwise, hnames bs, ?_, ?_, ?_, ?_⟩
  · intro x
    rw [← hcontains x, Environment.contains, Option.not_isSome_iff_eq_none]
  · exact (List.length_map _).symm
  · intro cs
    simp only [Environment.beq_iff_names, env, hnames, hlast]
  · exact fun cs => Environment.bindAll_eq_of_filter_eq
  · simp only [Environment.beq_self_eq_false, env, hlast]

/-- The name `a` is bound to a NaN and then to a zero, and the name `b` in between.  What is left is
the zero, in its place before `b`; moved behind the second binding of `a` the binding of `b` leaves
the same.  With the other zero the environment is equal, and with the NaN last it differs from
itself. -/
theorem bindAll_lastFor_rebound :
    let nan := Value.real Binary64.nan
    let bs : List Binding := [("a", nan), ("b", .int 1), ("a", .real 0.0)]
    let cs : List Binding := [("a", nan), ("a", .real 0.0), ("b", .int 1)]
    let env := Environment.empty.bindAll bs
    env.lookup "a" = some (.real 0.0) ∧ env.names = ["a", "b"] ∧
      (∀ x, bs.filter (·.1 == x) = cs.filter (·.1 == x)) ∧
      env = Environment.empty.bindAll cs ∧
      (env == Environment.empty.bindAll [("b", .int 1), ("a", .real (-0.0))]) = true ∧
      (let env' := Environment.empty.bindAll (bs ++ [("a", nan)]); env' == env') = false := by
  intro nan bs cs env
  have hsame : ∀ x, bs.filter (·.1 == x) = cs.filter (·.1 == x) := by
    intro x
    by_cases ha : x = "a"
    · rw [ha]
      rfl
    · have hbeq : ("a" == x) = false := beq_false_of_ne (Ne.symm ha)
      simp [bs, cs, List.filter_cons, hbeq]
  obtain ⟨hlast, -, -, -, -, -, -, hmixed, -⟩ := bindAll_lastFor bs
  obtain ⟨-, -, -, -, -, -, -, -, hself⟩ := bindAll_lastFor (bs ++ [("a", nan)])
  refine ⟨?_, by decide +kernel, hsame, hmixed cs hsame, by decide +kernel, ?_⟩
  · exact (hlast "a" _).mpr ⟨[("a", nan), ("b", .int 1)], [], rfl, List.not_mem_nil⟩
  · exact hself.mpr ⟨"a", nan, ⟨bs, [], rfl, List.not_mem_nil⟩, Binary64.status_nan.2.2⟩

end LetCalc
