import Linewise.Directive
import Mathlib.Data.List.Induction

/-!
# Reading the directives of a text

The directives on consecutive lines, read line by line and from left to right, are one list.
Whether a rule is off at the end of the lines depends on the last directive for it alone.
-/

namespace Linewise.Directive

/-- The directives on consecutive lines, of which the first has the given number. The error is the
first directive without a rule id. -/
def readLines (number : Nat) : List Bytes → Except MalformedDirective (List Directive)
  | [] => .ok []
  | line :: rest =>
    match parse line number with
    | .error e => .error e
    | .ok ds =>
      match readLines (number + 1) rest with
      | .error e => .error e
      | .ok more => .ok (ds ++ more)

/-- The last directive for a rule. -/
def lastFor? (rule : Bytes) (ds : List Directive) : Option Directive :=
  (ds.filter (·.rule == rule)).getLast?

/-- Whether a rule is off after the lines from the first one of a text on. -/
def offAfter (rule : Bytes) (lines : List Bytes) : Except MalformedDirective Bool :=
  match readLines 1 lines with
  | .error e => .error e
  | .ok ds => .ok (apply rule false ds)

@[simp] theorem apply_append (rule : Bytes) (off : Bool) (ds more : List Directive) :
    apply rule off (ds ++ more) = apply rule (apply rule off ds) more :=
  List.foldl_append

theorem lastFor?_concat (rule : Bytes) (ds : List Directive) (d : Directive) :
    lastFor? rule (ds ++ [d]) = if d.rule == rule then some d else lastFor? rule ds := by
  by_cases hd : d.rule = rule
  · simp [lastFor?, List.filter_append, hd]
  · simp [lastFor?, List.filter_append, hd]

/-- What some directives make of a rule is decided by the last one for it. -/
theorem apply_eq_lastFor? (rule : Bytes) (off : Bool) (ds : List Directive) :
    apply rule off ds = ((lastFor? rule ds).map (!·.enable)).getD off := by
  induction ds using List.reverseRecOn with
  | nil => rfl
  | append_singleton ds d ih =>
    rw [apply_append, lastFor?_concat, ih]
    by_cases hd : d.rule = rule
    · simp [apply, hd]
    · simp [apply, hd]

theorem apply_false_eq_true_iff (rule : Bytes) (ds : List Directive) :
    apply rule false ds = true ↔ ∃ d, lastFor? rule ds = some d ∧ d.enable = false := by
  rw [apply_eq_lastFor?]
  cases lastFor? rule ds with
  | none => simp
  | some d => simp

theorem readLines_append (number : Nat) (above below : List Bytes) :
    readLines number (above ++ below) =
      match readLines number above with
      | .error e => .error e
      | .ok ds =>
        match readLines (number + above.length) below with
        | .error e => .error e
        | .ok more => .ok (ds ++ more) := by
  induction above generalizing number with
  | nil =>
    simp only [List.nil_append, readLines, List.length_nil, Nat.add_zero]
    cases readLines number below <;> rfl
  | cons line above ih =>
    have hn : number + 1 + above.length = number + (above.length + 1) := by omega
    simp only [List.cons_append, readLines, ih, List.length_cons, hn]
    cases parse line number with
    | error e => rfl
    | ok ds =>
      cases readLines (number + 1) above with
      | error e => rfl
      | ok more =>
        cases readLines (number + (above.length + 1)) below with
        | error e => rfl
        | ok rest => simp

theorem readLines_singleton (number : Nat) (line : Bytes) :
    readLines number [line] = parse line number := by
  cases h : parse line number <;> simp [readLines, h]

@[simp] theorem offAfter_nil (rule : Bytes) : offAfter rule [] = .ok false := rfl

/-- One more line is read from where the lines before it have led. -/
theorem offAfter_concat {rule : Bytes} {above : List Bytes} {off : Bool}
    (h : offAfter rule above = .ok off) (line : Bytes) :
    offAfter rule (above ++ [line]) = applyLine rule off line (above.length + 1 : Nat) := by
  unfold offAfter at h ⊢
  rw [readLines_append, readLines_singleton, Nat.add_comm 1]
  cases hr : readLines 1 above with
  | error e => simp [hr] at h
  | ok ds =>
    simp only [hr, Except.ok.injEq] at h
    unfold applyLine
    cases parse line (above.length + 1 : Nat) with
    | error e => rfl
    | ok more => simp [h]

/-- A malformed directive stays one, whatever follows. -/
theorem offAfter_append_of_error {rule : Bytes} {above : List Bytes} {e : MalformedDirective}
    (h : offAfter rule above = .error e) (below : List Bytes) :
    offAfter rule (above ++ below) = .error e := by
  unfold offAfter at h ⊢
  rw [readLines_append]
  cases hr : readLines 1 above with
  | error e' => simpa [hr] using h
  | ok ds => simp [hr] at h

theorem offAfter_take_of_ok {rule : Bytes} {lines : List Bytes} {i j : Nat} {off : Bool}
    (h : offAfter rule (lines.take j) = .ok off) (hij : i ≤ j) :
    ∃ off, offAfter rule (lines.take i) = .ok off := by
  cases hi : offAfter rule (lines.take i) with
  | ok off => exact ⟨off, rfl⟩
  | error e =>
    have hj : lines.take j = lines.take i ++ (lines.drop i).take (j - i) := by
      rw [← List.take_add, Nat.add_sub_cancel' hij]
    rw [hj, offAfter_append_of_error hi] at h
    simp at h

/-- The last line of a text that can be read can be read. -/
theorem parse_of_offAfter_concat {rule : Bytes} {above : List Bytes} {line : Bytes} {off : Bool}
    (h : offAfter rule (above ++ [line]) = .ok off) :
    ∃ ds, parse line (above.length + 1 : Nat) = .ok ds := by
  have habove : ∃ before, offAfter rule above = .ok before := by
    cases ha : offAfter rule above with
    | ok before => exact ⟨before, rfl⟩
    | error e => simp [offAfter_append_of_error ha] at h
  obtain ⟨before, hbefore⟩ := habove
  rw [offAfter_concat hbefore, applyLine] at h
  cases hp : parse line (above.length + 1 : Nat) with
  | ok ds => exact ⟨ds, rfl⟩
  | error e =>
    rw [hp] at h
    simp at h

/-- A text whose end is known to be off or on reads without an error. -/
theorem readLines_of_offAfter {rule : Bytes} {lines : List Bytes} {off : Bool}
    (h : offAfter rule lines = .ok off) :
    ∃ ds, readLines 1 lines = .ok ds ∧
      (off = true ↔ ∃ d, lastFor? rule ds = some d ∧ d.enable = false) := by
  unfold offAfter at h
  cases hr : readLines 1 lines with
  | error e => simp [hr] at h
  | ok ds =>
    simp only [hr, Except.ok.injEq] at h
    exact ⟨ds, rfl, by rw [← h, apply_false_eq_true_iff]⟩

end Linewise.Directive
