import LetCalc.Command
import LetCalc.Proofs.Reading

/-!
# Reports of the command

The command does what reading and running a text do, and says so.  A call goes through four stages:
its arguments, the input, the reading and the run.  Each of them may fail, and a failure is told
from the report alone: the exit code is 1, something is written to the second output, and nothing to
the first, unless the outline of the program has been written before the run.  So a call ends in one
of three ways (`ends_execute`), and the exit code tells whether it has succeeded.

The arguments are looked at from left to right.  One of them **offends** if it does not fit behind
those to its left, and the first that does is the fault (`ofArgs_error_iff`); a call without any is
accepted if it has an input (`ofArgs_ok_iff`).

Main statement: `execute_report`.
-/

namespace LetCalc.Command

/-! ### Arguments that fit -/

/-- Whether an argument starts with two dashes, as options do. -/
def Dashed (arg : String) : Prop :=
  ['-', '-'] <+: arg.toList

instance decidableDashed (arg : String) : Decidable (Dashed arg) :=
  inferInstanceAs (Decidable (['-', '-'] <+: arg.toList))

/-- The arguments that are not written as options. -/
def inputs (args : List String) : List String :=
  args.filter fun arg => ¬ Dashed arg

/-- `Offends before arg fault`: the argument `arg` does not fit behind the arguments `before`.  It
is an option other than the one there is, or a further input. -/
inductive Offends (before : List String) (arg : String) : UsageFault → Prop where
  | unknownOption (hoption : Dashed arg) (hne : arg ≠ "--ast") :
      Offends before arg (.unknownOption arg)
  | unexpectedArgument (hinput : ¬ Dashed arg) (hbefore : inputs before ≠ []) :
      Offends before arg (.unexpectedArgument arg)

/-- `OffendsAt args i fault`: the argument at position `i` does not fit behind those to its left. -/
def OffendsAt (args : List String) (i : Nat) (fault : UsageFault) : Prop :=
  ∃ hi : i < args.length, Offends (args.take i) args[i] fault

/-- Whether no argument before position `i` offends. -/
def Clear (args : List String) (i : Nat) : Prop :=
  ∀ j, j < i → ∀ fault, ¬ OffendsAt args j fault

/-- Whether arguments are accepted with an input: it is the only one that is not written as an
option, and all that are ask for the outline. -/
structure Accepted (args : List String) (input : String) : Prop where
  inputs_eq : inputs args = [input]
  options : ∀ arg ∈ args, Dashed arg → arg = "--ast"

/-- Whether arguments are rejected with a fault: it is that of the first argument that offends, or
there is no input, and nothing but options that fit. -/
def Rejected (args : List String) (fault : UsageFault) : Prop :=
  (∃ i, OffendsAt args i fault ∧ Clear args i) ∨
    (fault = .noInput ∧ ∀ arg ∈ args, arg = "--ast")

/-! ### Reading them from left to right -/

/-- An argument is taken for an option if it starts with two dashes. -/
theorem isOption_iff {arg : String} : isOption arg = true ↔ Dashed arg :=
  List.isPrefixOf_iff_prefix

theorem dashed_ast : Dashed "--ast" := by decide

theorem inputs_append (xs ys : List String) : inputs (xs ++ ys) = inputs xs ++ inputs ys :=
  List.filter_append xs ys

/-- An option is no input. -/
theorem inputs_of_dashed {arg : String} (h : Dashed arg) : inputs [arg] = [] := by
  simp [inputs, h]

/-- Any other argument is one. -/
theorem inputs_of_not_dashed {arg : String} (h : ¬ Dashed arg) : inputs [arg] = [arg] := by
  simp [inputs, h]

/-- Reading stops at an argument that offends. -/
theorem read_of_offends {before : List String} {arg : String} {fault : UsageFault}
    (h : Offends before arg fault) (outline : Bool) (rest : List String) :
    Options.read outline (inputs before).head? (arg :: rest) = .error fault := by
  cases h with
  | unknownOption hoption hne =>
      rw [Options.read, if_neg hne, if_pos (isOption_iff.mpr hoption)]
  | unexpectedArgument hinput hbefore =>
      have hne : arg ≠ "--ast" := by
        rintro rfl
        exact hinput dashed_ast
      have hsome : (inputs before).head?.isSome = true := by
        cases hb : inputs before with
        | nil => exact absurd hb hbefore
        | cons b bs => rfl
      rw [Options.read, if_neg hne, if_neg (mt isOption_iff.mp hinput), if_pos hsome]

/-- An argument that does not offend is the option there is, or the first input. -/
theorem cases_of_fits {before : List String} {arg : String}
    (h : ∀ fault, ¬ Offends before arg fault) :
    arg = "--ast" ∨ (arg ≠ "--ast" ∧ ¬ Dashed arg ∧ inputs before = []) := by
  by_cases hast : arg = "--ast"
  · exact .inl hast
  · have hinput : ¬ Dashed arg := fun hoption => h _ (.unknownOption hoption hast)
    refine .inr ⟨hast, hinput, Decidable.byContradiction fun hbefore => ?_⟩
    exact h _ (.unexpectedArgument hinput hbefore)

/-- Reading goes on behind an argument that does not offend. -/
theorem read_of_fits {before : List String} {arg : String}
    (h : ∀ fault, ¬ Offends before arg fault) (rest : List String) :
    Options.read (before.contains "--ast") (inputs before).head? (arg :: rest) =
      Options.read ((before ++ [arg]).contains "--ast") (inputs (before ++ [arg])).head? rest := by
  rw [Options.read, inputs_append, List.contains_append]
  rcases cases_of_fits h with rfl | ⟨hast, hinput, hbefore⟩
  · rw [if_pos rfl, inputs_of_dashed dashed_ast, List.append_nil]
    simp
  · rw [if_neg hast, if_neg (mt isOption_iff.mp hinput), hbefore, inputs_of_not_dashed hinput]
    simp [hast, eq_comm]

/-- No argument offends before the next position: none before this one, and not the one here. -/
theorem Clear.of_succ {args : List String} {i : Nat} (h : Clear args (i + 1))
    (hi : i < args.length) : Clear args i ∧ ∀ fault, ¬ Offends (args.take i) args[i] fault :=
  ⟨fun j hj => h j (Nat.lt_succ_of_lt hj),
    fun fault hoffends => h i (Nat.lt_succ_self i) fault ⟨hi, hoffends⟩⟩

/-- Behind arguments of which none offends, reading has found the options and the inputs among them.
-/
theorem ofArgs_of_clear {args : List String} {i : Nat} (hi : i ≤ args.length)
    (h : Clear args i) :
    Options.ofArgs args = Options.read ((args.take i).contains "--ast")
      (inputs (args.take i)).head? (args.drop i) := by
  induction i with
  | zero => rfl
  | succ i ih =>
      obtain ⟨hclear, hfits⟩ := h.of_succ hi
      rw [ih (Nat.le_of_succ_le hi) hclear, List.drop_eq_getElem_cons hi, read_of_fits hfits,
        List.take_append_getElem hi]

/-- Of arguments of which none offends at most one is an input. -/
theorem length_inputs_of_clear {args : List String} {i : Nat} (hi : i ≤ args.length)
    (h : Clear args i) : (inputs (args.take i)).length ≤ 1 := by
  induction i with
  | zero => exact Nat.zero_le 1
  | succ i ih =>
      obtain ⟨hclear, hfits⟩ := h.of_succ hi
      have hbefore := ih (Nat.le_of_succ_le hi) hclear
      rw [← List.take_append_getElem hi, inputs_append]
      rcases cases_of_fits hfits with hast | ⟨-, hinput, hnone⟩
      · rwa [hast, inputs_of_dashed dashed_ast, List.append_nil]
      · rw [hnone, inputs_of_not_dashed hinput]
        exact Nat.le_refl 1

/-- No argument offends, or there is a first that does. -/
theorem clear_or_exists (args : List String) (n : Nat) :
    Clear args n ∨ ∃ i fault, OffendsAt args i fault ∧ Clear args i := by
  induction n with
  | zero => exact .inl fun j hj => absurd hj (Nat.not_lt_zero j)
  | succ n ih =>
      rcases ih with hclear | hfirst
      · by_cases hoffends : ∃ fault, OffendsAt args n fault
        · obtain ⟨fault, hoffends⟩ := hoffends
          exact .inr ⟨n, fault, hoffends, hclear⟩
        · refine .inl fun j hj fault hj' => ?_
          rcases Nat.lt_succ_iff_lt_or_eq.mp hj with hlt | rfl
          · exact hclear j hlt fault hj'
          · exact hoffends ⟨fault, hj'⟩
      · exact .inr hfirst

/-! ### What becomes of the arguments -/

/-- If options ask for the outline and there is no second input, then no argument offends. -/
theorem clear_of_options {args : List String}
    (hoptions : ∀ arg ∈ args, Dashed arg → arg = "--ast")
    (hinputs : (inputs args).length ≤ 1) (i : Nat) : Clear args i := by
  rintro j - fault ⟨hj, hoffends⟩
  cases hoffends with
  | unknownOption hoption hne => exact hne (hoptions _ (List.getElem_mem hj) hoption)
  | unexpectedArgument hinput hbefore =>
      have hpos := List.length_pos_iff.mpr hbefore
      rw [← List.take_append_drop j args, List.drop_eq_getElem_cons hj, ← List.singleton_append,
        inputs_append, inputs_append, inputs_of_not_dashed hinput] at hinputs
      simp only [List.length_append, List.length_singleton] at hinputs
      omega

/-- What is accepted is read as the input and the flag. -/
theorem ofArgs_of_accepted {args : List String} {input : String} (h : Accepted args input) :
    Options.ofArgs args = .ok ⟨args.contains "--ast", input⟩ := by
  have hinputs := h.inputs_eq
  have hclear := clear_of_options h.options (by rw [hinputs]; exact Nat.le_refl 1) args.length
  rw [ofArgs_of_clear (Nat.le_refl _) hclear, List.take_length, List.drop_length, hinputs]
  rfl

/-- What is rejected is read as the fault. -/
theorem ofArgs_of_rejected {args : List String} {fault : UsageFault} (h : Rejected args fault) :
    Options.ofArgs args = .error fault := by
  rcases h with ⟨i, ⟨hi, hoffends⟩, hclear⟩ | ⟨rfl, hall⟩
  · rw [ofArgs_of_clear (Nat.le_of_lt hi) hclear, List.drop_eq_getElem_cons hi]
    exact read_of_offends hoffends _ _
  · have hinputs : inputs args = [] := by
      refine List.filter_eq_nil_iff.mpr fun arg harg => ?_
      rw [hall arg harg]
      decide
    have hclear := clear_of_options (fun arg harg _ => hall arg harg)
      (by rw [hinputs]; exact Nat.zero_le 1) args.length
    rw [ofArgs_of_clear (Nat.le_refl _) hclear, List.take_length, List.drop_length, hinputs]
    rfl

/-- Where no argument offends, options ask for the outline. -/
theorem eq_ast_of_clear {args : List String} (h : Clear args args.length) {arg : String}
    (harg : arg ∈ args) (hoption : Dashed arg) : arg = "--ast" := by
  obtain ⟨i, hi, rfl⟩ := List.mem_iff_getElem.mp harg
  refine Decidable.byContradiction fun hne => ?_
  exact h i hi _ ⟨hi, .unknownOption hoption hne⟩

/-- Arguments are rejected or accepted. -/
theorem rejected_or_accepted (args : List String) :
    (∃ fault, Rejected args fault) ∨ ∃ input, Accepted args input := by
  rcases clear_or_exists args args.length with hclear | ⟨i, fault, hoffends, hclear⟩
  · have hlen := length_inputs_of_clear (Nat.le_refl _) hclear
    rw [List.take_length] at hlen
    cases hinputs : inputs args with
    | nil =>
        refine .inl ⟨.noInput, .inr ⟨rfl, fun arg harg => eq_ast_of_clear hclear harg ?_⟩⟩
        have hnot := List.filter_eq_nil_iff.mp hinputs arg harg
        simpa using hnot
    | cons input others =>
        rw [hinputs, List.length_cons] at hlen
        have hothers : others = [] := List.length_eq_zero_iff.mp (by omega)
        rw [hothers] at hinputs
        exact .inr ⟨input, hinputs, fun arg => eq_ast_of_clear hclear⟩
  · exact .inl ⟨fault, .inl ⟨i, hoffends, hclear⟩⟩

/-- Arguments are read exactly if they are accepted. -/
theorem ofArgs_ok_iff {args : List String} {o : Options} :
    Options.ofArgs args = .ok o ↔ Accepted args o.input ∧ o.outline = args.contains "--ast" := by
  constructor
  · intro hok
    rcases rejected_or_accepted args with ⟨fault, h⟩ | ⟨input, h⟩
    · rw [ofArgs_of_rejected h] at hok
      cases hok
    · rw [ofArgs_of_accepted h] at hok
      cases hok
      exact ⟨h, rfl⟩
  · rintro ⟨h, houtline⟩
    rw [ofArgs_of_accepted h, ← houtline]

/-- They have a fault exactly if they are rejected with it. -/
theorem ofArgs_error_iff {args : List String} {fault : UsageFault} :
    Options.ofArgs args = .error fault ↔ Rejected args fault := by
  refine ⟨fun herror => ?_, ofArgs_of_rejected⟩
  rcases rejected_or_accepted args with ⟨fault', h⟩ | ⟨input, h⟩
  · rw [ofArgs_of_rejected h] at herror
    cases herror
    exact h
  · rw [ofArgs_of_accepted h] at herror
    cases herror

/-! ### The text of the input -/

/-- Bytes are decoded to the text that they encode, and to no other. -/
theorem decode_ok_iff {content : ByteArray} {text : String} :
    decode content = .ok text ↔ content = text.toUTF8 := by
  unfold decode
  constructor
  · intro h
    split at h
    · rename_i text' hdecode
      cases h
      by_cases hvalid : content.IsValidUTF8
      · have hsome : String.fromUTF8? content = some (.fromUTF8 content hvalid) := dif_pos hvalid
        rw [hsome] at hdecode
        cases hdecode
        rfl
      · have hnone : String.fromUTF8? content = none := dif_neg hvalid
        rw [hnone] at hdecode
        cases hdecode
    · cases h
  · rintro rfl
    have hsome : String.fromUTF8? text.toUTF8 = some text := dif_pos text.isValidUTF8
    rw [hsome]

/-- Bytes that encode no text have one fault only. -/
theorem eq_notText_of_decode {content : ByteArray} {fault : ReadFault}
    (h : decode content = .error fault) : fault = .notText := by
  unfold decode at h
  split at h
  · cases h
  · cases h
    rfl

namespace World

variable {w : World Id} {input : String}

/-- `w.Holds input content`: this is what comes of reading the input.  A dash stands for standard
input, all else is the path of a file. -/
inductive Holds (w : World Id) : String → Except ReadFault ByteArray → Prop where
  | stdin {content : Except ReadFault ByteArray} (h : w.stdin = content) : w.Holds "-" content
  | file {input : String} {content : Except ReadFault ByteArray} (hne : input ≠ "-")
      (h : w.file input = content) : w.Holds input content

/-- `w.Supplies input text`: the input is there, and its bytes are the encoding of the text. -/
def Supplies (w : World Id) (input text : String) : Prop :=
  w.Holds input (.ok text.toUTF8)

/-- `w.Refuses input fault`: the input cannot be read, or its bytes are the encoding of no text. -/
def Refuses (w : World Id) (input : String) (fault : ReadFault) : Prop :=
  w.Holds input (.error fault) ∨
    (fault = .notText ∧
      ∃ content, w.Holds input (.ok content) ∧ ∀ text : String, content ≠ text.toUTF8)

/-- Fetching an input gives what the world holds for it. -/
theorem holds_iff {content : Except ReadFault ByteArray} :
    w.Holds input content ↔ w.fetch input = content := by
  rw [fetch]
  constructor
  · rintro (h | ⟨hne, h⟩)
    · rw [if_pos rfl, h]
    · rw [if_neg hne, h]
  · intro h
    by_cases hdash : input = "-"
    · rw [if_pos hdash] at h
      rw [hdash]
      exact .stdin h
    · rw [if_neg hdash] at h
      exact .file hdash h

/-- A text that is supplied is decoded. -/
theorem Supplies.decoded {text : String} (h : w.Supplies input text) :
    Except.bind (w.fetch input) decode = .ok text := by
  rw [holds_iff.mp h]
  exact decode_ok_iff.mpr rfl

/-- An input that is refused has its fault when it is decoded. -/
theorem Refuses.decoded {fault : ReadFault} (h : w.Refuses input fault) :
    Except.bind (w.fetch input) decode = .error fault := by
  rcases h with h | ⟨rfl, content, h, hnone⟩
  · rw [holds_iff.mp h]
    rfl
  · rw [holds_iff.mp h]
    show decode content = _
    cases hdecode : decode content with
    | ok text => exact absurd (decode_ok_iff.mp hdecode) (hnone text)
    | error fault => rw [eq_notText_of_decode hdecode]

/-- An input supplies a text or is refused. -/
theorem supplies_or_refuses (w : World Id) (input : String) :
    (∃ text, w.Supplies input text) ∨ ∃ fault, w.Refuses input fault := by
  cases hfetch : w.fetch input with
  | error fault => exact .inr ⟨fault, .inl (holds_iff.mpr hfetch)⟩
  | ok content =>
      have hholds := holds_iff.mpr hfetch
      by_cases htext : ∃ text : String, content = text.toUTF8
      · obtain ⟨text, rfl⟩ := htext
        exact .inl ⟨text, hholds⟩
      · exact .inr ⟨.notText, .inr ⟨rfl, content, hholds, fun text h => htext ⟨text, h⟩⟩⟩

end World

/-- `Reads args w text`: the arguments are accepted, and their input supplies the text. -/
def Reads (args : List String) (w : World Id) (text : String) : Prop :=
  ∃ input, Accepted args input ∧ w.Supplies input text

/-! ### What the stages write -/

section

variable {line : List String} {w : World Id} {s : String}

/-- Arguments that are rejected are told with their fault and the usage. -/
theorem execute_of_rejected {fault : UsageFault} (h : Rejected line.tail fault) (w : World Id) :
    (execute line w).run =
      ⟨1, "", "Error: " ++ fault.message ++ "\n" ++ usage (line.headD "mfl")⟩ := by
  rw [execute, ofArgs_of_rejected h]
  rfl

/-- With arguments that are accepted the input is fetched. -/
theorem execute_of_accepted {input : String} (h : Accepted line.tail input) (w : World Id) :
    (execute line w).run = finish ⟨line.tail.contains "--ast", input⟩ (w.fetch input) := by
  rw [execute, ofArgs_of_accepted h]
  rfl

/-- An input that is refused is told with the reason. -/
theorem execute_of_refused {input : String} {fault : ReadFault}
    (haccepted : Accepted line.tail input) (h : w.Refuses input fault) :
    (execute line w).run =
      ⟨1, "", "Error: cannot read '" ++ input ++ "': " ++ fault.message ++ "\n"⟩ := by
  rw [execute_of_accepted haccepted, finish, h.decoded]
  rfl

/-- A text that is there is run. -/
theorem execute_of_reads (h : Reads line.tail w s) :
    (execute line w).run = runText (line.tail.contains "--ast") s := by
  obtain ⟨input, haccepted, hsupplies⟩ := h
  rw [execute_of_accepted haccepted, finish, hsupplies.decoded]

/-- A text that is no program is told with the error of the reader. -/
theorem execute_of_reading {e : SyntaxError} (h : Reads line.tail w s)
    (hrun : run s = .error (.reading e)) :
    (execute line w).run = ⟨1, "", "Parser error: " ++ e.message ++ "\n"⟩ := by
  obtain ⟨e', hparse, hsame⟩ | ⟨p, err, -, -, hsame⟩ | ⟨p, v, -, -, hsame⟩ := run_stages s <;>
    cases hrun.symm.trans hsame
  rw [execute_of_reads h, runText, hparse]
  rfl

/-- A program that fails is told with the error of the run, behind its outline. -/
theorem execute_of_running {err : EvalError} (h : Reads line.tail w s)
    (hrun : run s = .error (.running err)) :
    ∃ p, parse s = .ok p ∧ (execute line w).run =
      ⟨1, if "--ast" ∈ line.tail then p.outlineText else "",
        "Runtime error: " ++ err.message ++ "\n"⟩ := by
  obtain ⟨e, -, hsame⟩ | ⟨p, err', hparse, hresult, hsame⟩ | ⟨p, v, -, -, hsame⟩ :=
    run_stages s <;> cases hrun.symm.trans hsame
  refine ⟨p, hparse, ?_⟩
  simp only [execute_of_reads h, runText, hparse, hresult, List.contains_iff_mem]
  rfl

/-- A program with a value is told with the value, behind its outline. -/
theorem execute_of_ok {v : Option Value} (h : Reads line.tail w s) (hrun : run s = .ok v) :
    ∃ p, parse s = .ok p ∧ (execute line w).run =
      ⟨0, (if "--ast" ∈ line.tail then p.outlineText else "") ++ resultText v ++ "\n", ""⟩ := by
  obtain ⟨e, -, hsame⟩ | ⟨p, err, -, -, hsame⟩ | ⟨p, v', hparse, hresult, hsame⟩ :=
    run_stages s <;> cases hrun.symm.trans hsame
  refine ⟨p, hparse, ?_⟩
  simp only [execute_of_reads h, runText, hparse, hresult, List.contains_iff_mem]

end

/-! ### How a call ends -/

/-- `Ends line w r`: a call can end with the report `r`, in one of three ways. -/
inductive Ends (line : List String) (w : World Id) : Report → Prop where
  /-- It fails before there is a program to run. -/
  | early {message : String} (hne : message ≠ "") : Ends line w ⟨1, "", message⟩
  /-- It fails in the run. -/
  | failed {s stdout message : String} {err : EvalError} (hne : message ≠ "")
      (hreads : Reads line.tail w s) (hrun : run s = .error (.running err)) :
      Ends line w ⟨1, stdout, message⟩
  /-- It succeeds. -/
  | done {s stdout : String} {v : Option Value} (hreads : Reads line.tail w s)
      (hrun : run s = .ok v) : Ends line w ⟨0, stdout, ""⟩

theorem append_ne_empty (s : String) {t : String} (ht : t ≠ "") : s ++ t ≠ "" :=
  fun h => ht (String.append_eq_empty_iff.mp h).2

theorem usage_ne_empty (name : String) : usage name ≠ "" :=
  append_ne_empty _ (by decide)

/-- Every call ends. -/
theorem ends_execute (line : List String) (w : World Id) : Ends line w (execute line w).run := by
  rcases rejected_or_accepted line.tail with ⟨fault, hrejected⟩ | ⟨input, haccepted⟩
  · rw [execute_of_rejected hrejected]
    exact .early (append_ne_empty _ (usage_ne_empty _))
  · rcases w.supplies_or_refuses input with ⟨s, hsupplies⟩ | ⟨fault, hrefuses⟩
    · have hreads : Reads line.tail w s := ⟨input, haccepted, hsupplies⟩
      cases hrun : run s with
      | error e =>
          cases e with
          | reading e =>
              rw [execute_of_reading hreads hrun]
              exact .early (append_ne_empty _ (by decide))
          | running err =>
              obtain ⟨p, -, hreport⟩ := execute_of_running hreads hrun
              rw [hreport]
              exact .failed (append_ne_empty _ (by decide)) hreads hrun
      | ok v =>
          obtain ⟨p, -, hreport⟩ := execute_of_ok hreads hrun
          rw [hreport]
          exact .done hreads hrun
    · rw [execute_of_refused haccepted hrefuses]
      exact .early (append_ne_empty _ (by decide))

namespace Ends

variable {line : List String} {w : World Id} {r : Report}

/-- With the exit code 0 the text has a value. -/
theorem exists_value (h : Ends line w r) (hcode : r.exitCode = 0) :
    ∃ s v, Reads line.tail w s ∧ run s = .ok v := by
  have hone : (1 : UInt32) ≠ 0 := by decide
  cases h with
  | early hne => exact absurd hcode hone
  | failed hne hreads hrun => exact absurd hcode hone
  | done hreads hrun => exact ⟨_, _, hreads, hrun⟩

/-- A failure is told by the exit code and the second output.  The first one is empty, unless the
program has been run. -/
theorem of_failure (h : Ends line w r) (hcode : r.exitCode ≠ 0) :
    r.exitCode = 1 ∧ r.stderr ≠ "" ∧
    ((∀ s err, Reads line.tail w s → run s ≠ .error (.running err)) → r.stdout = "") := by
  cases h with
  | early hne => exact ⟨rfl, hne, fun _ => rfl⟩
  | failed hne hreads hrun => exact ⟨rfl, hne, fun hother => absurd hrun (hother _ _ hreads)⟩
  | done hreads hrun => exact absurd rfl hcode

end Ends

/-- The exit code tells whether a text has been read and has a value. -/
theorem exitCode_eq_zero_iff {line : List String} {w : World Id} :
    (execute line w).run.exitCode = 0 ↔ ∃ s v, Reads line.tail w s ∧ run s = .ok v := by
  refine ⟨(ends_execute line w).exists_value, ?_⟩
  rintro ⟨s, v, hreads, hrun⟩
  obtain ⟨p, -, hreport⟩ := execute_of_ok hreads hrun
  rw [hreport]

/-- **The command reports what reading and running a text give.**  Arguments are accepted if exactly
one is not written as an option and the options ask for the outline; otherwise the first that
offends is reported, or that there is no input.  An input that cannot be read as text is reported,
and so is the error of a text that is no program, or of a program that fails.  If the text has a
value, it is written to the first output, or that there is no result, and nothing to the second.
The outline of the program, if it was asked for, is written before the program is run.

The exit code is 0 exactly if the arguments are accepted, their input supplies a text, and the text
has a value.  Otherwise it is 1, something is written to the second output, and nothing to the first
unless the run of a program has failed. -/
theorem execute_report (line : List String) (w : World Id) :
    let args := line.tail
    let report := (execute line w).run
    (∀ o : Options, Options.ofArgs args = .ok o ↔
      Accepted args o.input ∧ o.outline = args.contains "--ast") ∧
    (∀ fault, Options.ofArgs args = .error fault ↔ Rejected args fault) ∧
    (∀ arg, Rejected args (.unknownOption arg) → report =
      ⟨1, "", "Error: " ++ ("Unknown option '" ++ arg ++ "'") ++ "\n" ++
        usage (line.headD "mfl")⟩) ∧
    (∀ arg, Rejected args (.unexpectedArgument arg) → report =
      ⟨1, "", "Error: " ++ ("Unexpected argument '" ++ arg ++ "'") ++ "\n" ++
        usage (line.headD "mfl")⟩) ∧
    (Rejected args .noInput → report =
      ⟨1, "", "Error: " ++ "No input file provided" ++ "\n" ++ usage (line.headD "mfl")⟩) ∧
    (∀ input fault, Accepted args input → w.Refuses input fault → report =
      ⟨1, "", "Error: cannot read '" ++ input ++ "': " ++ fault.message ++ "\n"⟩) ∧
    (∀ s e, Reads args w s → run s = .error (.reading e) → report =
      ⟨1, "", "Parser error: " ++ e.message ++ "\n"⟩) ∧
    (∀ s err, Reads args w s → run s = .error (.running err) → ∃ p, parse s = .ok p ∧ report =
      ⟨1, if "--ast" ∈ args then p.outlineText else "",
        "Runtime error: " ++ err.message ++ "\n"⟩) ∧
    (∀ s v, Reads args w s → run s = .ok (some v) → ∃ p, parse s = .ok p ∧ report =
      ⟨0, (if "--ast" ∈ args then p.outlineText else "") ++ v.text ++ "\n", ""⟩) ∧
    (∀ s, Reads args w s → run s = .ok none → ∃ p, parse s = .ok p ∧ report =
      ⟨0, (if "--ast" ∈ args then p.outlineText else "") ++ "(no result)" ++ "\n", ""⟩) ∧
    (report.exitCode = 0 ↔ ∃ s v, Reads args w s ∧ run s = .ok v) ∧
    (report.exitCode ≠ 0 → report.exitCode = 1 ∧ report.stderr ≠ "" ∧
      ((∀ s err, Reads args w s → run s ≠ .error (.running err)) → report.stdout = "")) := by
  intro args report
  refine ⟨fun _ => ofArgs_ok_iff, fun _ => ofArgs_error_iff, ?_, ?_, ?_, ?_, ?_, ?_, ?_, ?_,
    exitCode_eq_zero_iff, (ends_execute line w).of_failure⟩
  · exact fun arg h => execute_of_rejected h w
  · exact fun arg h => execute_of_rejected h w
  · exact fun h => execute_of_rejected h w
  · exact fun input fault => execute_of_refused
  · exact fun s e => execute_of_reading
  · exact fun s err => execute_of_running
  · exact fun s v => execute_of_ok
  · exact fun s => execute_of_ok

/-- Each file has its own path as its text here, and standard input is a folder.  The outline is
written before the division by zero, however often it is asked for, and before a value.  The empty
program has an outline too, but no result.  `-x` is the path of an input, so of `-x -- -` the second
argument is reported, and not the third. -/
theorem execute_report_own_path :
    let w : World Id := ⟨.error .isFolder, fun path => .ok path.toUTF8⟩
    (Reads ["--ast", "1 / 0;", "--ast"] w "1 / 0;" ∧
      (execute ["mfl", "--ast", "1 / 0;", "--ast"] w).run =
        ⟨1, "Prog\n  BinOp(/)\n    Literal(1)\n    Literal(0)\n",
          "Runtime error: " ++ (EvalError.mk .divisionByZero 1).message ++ "\n"⟩) ∧
    (Reads ["1 + 2;", "--ast"] w "1 + 2;" ∧
      (execute ["mfl", "1 + 2;", "--ast"] w).run =
        ⟨0, "Prog\n  BinOp(+)\n    Literal(1)\n    Literal(2)\n3\n", ""⟩) ∧
    (Reads ["--ast", ""] w "" ∧
      (execute ["mfl", "--ast", ""] w).run = ⟨0, "EMPTY TREE\n(no result)\n", ""⟩) ∧
    (w.Refuses "-" .isFolder ∧
      (execute ["mfl", "-"] w).run =
        ⟨1, "", "Error: cannot read '-': Is a directory (os error 21)\n"⟩) ∧
    (Rejected ["-x", "--", "-"] (.unknownOption "--") ∧
      (execute ["mfl", "-x", "--", "-"] w).run =
        ⟨1, "", "Error: Unknown option '--'\n" ++ usage "mfl"⟩) := by
  intro w
  have hreads : ∀ {args : List String} {path : String}, Accepted args path → path ≠ "-" →
      Reads args w path :=
    fun haccepted hne => ⟨_, haccepted, .file hne rfl⟩
  refine ⟨?_, ?_, ?_, ?_, ?_⟩
  · have htext : Reads ["--ast", "1 / 0;", "--ast"] w "1 / 0;" :=
      hreads ⟨by decide, by decide⟩ (by decide)
    have hparse : parse "1 / 0;" = .ok ⟨[.binary (.arith .div) (.literal ⟨.intLit, "1", 1⟩)
        (.literal ⟨.intLit, "0", 1⟩) 1], 1⟩ := by
      decide +kernel
    have hrun : run "1 / 0;" = .error (.running ⟨.divisionByZero, 1⟩) := by
      rw [run, hparse]
      rfl
    obtain ⟨-, -, -, -, -, -, -, hrunning, -⟩ :=
      execute_report ["mfl", "--ast", "1 / 0;", "--ast"] w
    obtain ⟨p, hp, hreport⟩ := hrunning _ _ htext hrun
    cases hparse.symm.trans hp
    refine ⟨htext, hreport.trans ?_⟩
    decide
  · have htext : Reads ["1 + 2;", "--ast"] w "1 + 2;" :=
      hreads ⟨by decide, by decide⟩ (by decide)
    have hparse : parse "1 + 2;" = .ok ⟨[.binary (.arith .add) (.literal ⟨.intLit, "1", 1⟩)
        (.literal ⟨.intLit, "2", 1⟩) 1], 1⟩ := by
      decide +kernel
    have hrun : run "1 + 2;" = .ok (some (.int 3)) := by
      rw [run, hparse]
      rfl
    obtain ⟨-, -, -, -, -, -, -, -, hvalue, -⟩ := execute_report ["mfl", "1 + 2;", "--ast"] w
    obtain ⟨p, hp, hreport⟩ := hvalue _ _ htext hrun
    cases hparse.symm.trans hp
    refine ⟨htext, hreport.trans ?_⟩
    decide
  · have htext : Reads ["--ast", ""] w "" := hreads ⟨by decide, by decide⟩ (by decide)
    have hparse : parse "" = .ok ⟨[], 1⟩ := by decide +kernel
    have hrun : run "" = .ok none := by
      rw [run, hparse]
      rfl
    obtain ⟨-, -, -, -, -, -, -, -, -, hnone, -⟩ := execute_report ["mfl", "--ast", ""] w
    obtain ⟨p, hp, hreport⟩ := hnone _ htext hrun
    cases hparse.symm.trans hp
    refine ⟨htext, hreport.trans ?_⟩
    decide
  · have hrefuses : w.Refuses "-" .isFolder := .inl (.stdin rfl)
    obtain ⟨-, -, -, -, -, hrefused, -⟩ := execute_report ["mfl", "-"] w
    refine ⟨hrefuses, (hrefused _ _ ⟨by decide, by decide⟩ hrefuses).trans ?_⟩
    decide
  · obtain ⟨-, hrejected, hunknown, -⟩ := execute_report ["mfl", "-x", "--", "-"] w
    have hoffence := (hrejected (.unknownOption "--")).mp (by decide)
    refine ⟨hoffence, (hunknown _ hoffence).trans ?_⟩
    decide +kernel

end LetCalc.Command
