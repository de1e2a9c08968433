import Linewise.Proofs.PatternSearch
import Linewise.Proofs.TextBelowHeaders

/-!
# Reports on patterns

A rule for a pattern reads a file to its end and changes nothing. It reports exactly the lines in which
the pattern occurs, among those at which the rule is on, and keeps silent when a directive anywhere in
the file is malformed.
-/

namespace Linewise

namespace Scan
open Cursor Directive

variable {σ : Type} {rule : Bytes} {react : Reader σ} {lines : List Bytes}

/-- A reader that never leaves a text gets as far as the text can be read. -/
theorem exists_reached (m₀ : σ) (hstays : ∀ m n line, (react m n line).leaves = false) {off : Bool}
    (hread : offAfter rule lines = .ok off) :
    ∃ m flagged, Reached rule react m₀ lines off m flagged := by
  induction lines using List.reverseRecOn generalizing off with
  | nil =>
    obtain rfl : false = off := Except.ok.inj hread
    exact ⟨m₀, [], .start⟩
  | append_singleton above line ih =>
    cases habove : offAfter rule above with
    | error e => simp [offAfter_append_of_error habove] at hread
    | ok before =>
      obtain ⟨m, flagged, hreached⟩ := ih habove
      rw [offAfter_concat habove] at hread
      cases off with
      | true => exact ⟨m, flagged, hreached.off hread⟩
      | false => exact ⟨_, _, hreached.stay hread (hstays ..)⟩

/-- The pass of such a reader comes to the end of a text that can be read. -/
theorem pass_of_readable (rule : Bytes) (m₀ : σ)
    (hstays : ∀ m n line, (react m n line).leaves = false)
    (hnone : firstMalformed? lines = none) :
    ∃ off m flagged, Reached rule react m₀ lines off m flagged ∧
      pass rule react false 1 m₀ [] lines = (m, flagged, .finished) := by
  cases hread : offAfter rule lines with
  | error e =>
    have htake : offAfter rule (lines.take lines.length) = .error e := by rwa [List.take_length]
    obtain ⟨m, -, hblames⟩ := (offAfter_take_eq_error_iff rule lines lines.length e).mp htake
    simp [hblames.1] at hnone
  | ok off =>
    obtain ⟨m, flagged, hreached⟩ := exists_reached m₀ hstays hread
    have hpass := hreached.pass_append []
    rw [List.append_nil, pass_nil] at hpass
    exact ⟨off, m, flagged, hreached, hpass⟩

/-- It fails at the first malformed directive of any other. -/
theorem pass_of_malformed (rule : Bytes) (m₀ : σ)
    (hstays : ∀ m n line, (react m n line).leaves = false) {k : Nat}
    (hk : firstMalformed? lines = some k) :
    ∃ m flagged, ∃ e : MalformedDirective, e.line = k + 1 ∧
      pass rule react false 1 m₀ [] lines = (m, flagged, .failed (.directive e)) := by
  obtain ⟨e, hblames⟩ := exists_blames hk
  have hlt : k < lines.length := (List.findIdx?_eq_some_iff_getElem.mp hk).1
  have herror : offAfter rule (lines.take (k + 1)) = .error e :=
    (offAfter_take_eq_error_iff rule lines (k + 1) e).mpr ⟨k, Nat.lt_succ_self k, hblames⟩
  cases habove : offAfter rule (lines.take k) with
  | error e' =>
    obtain ⟨j, hj, hblames'⟩ := (offAfter_take_eq_error_iff rule lines k e').mp habove
    obtain rfl := (hblames.unique hblames').1
    exact absurd hj (Nat.lt_irrefl k)
  | ok off =>
    obtain ⟨m, flagged, hreached⟩ := exists_reached m₀ hstays habove
    have hlength : (lines.take k).length = k := by rw [List.length_take]; omega
    have hline : offAfter rule (lines.take k ++ [lines[k]]) = .error e := by
      rwa [List.take_append_getElem hlt]
    rw [offAfter_concat habove] at hline
    refine ⟨m, flagged, e, hblames.line_eq, ?_⟩
    have hpass := hreached.pass_append (lines.drop k)
    rw [List.take_append_drop, List.drop_eq_getElem_cons hlt] at hpass
    rw [hpass]
    exact pass_error hline

end Scan

namespace LinePattern
open Directive Scan

/-- Marks the lines with a property. -/
def marking (p : Bytes → Bool) : Reader Unit := fun _ n line =>
  { memory := (), marks := if p line then [(n : Int)] else [] }

theorem visitor_eq_reacting (p : Pattern) : visitor p = reacting (marking p.occursIn) := by
  funext _ c
  cases hoccurs : p.occursIn c.line with
  | true => simp [visitor, reacting, marking, hoccurs, markAll, Cursor.mark, Cursor.markLine]
  | false => simp [visitor, reacting, marking, hoccurs, markAll]

/-- The marks on the lines that have been read: exactly those with the property at which the rule is
on, in order. -/
theorem flagged_of_reached {rule : Bytes} {p : Bytes → Bool} {lines : List Bytes} {off : Bool}
    {m : Unit} {flagged : List Int} (h : Reached rule (marking p) () lines off m flagged) :
    ∃ numbers : List Nat, flagged = numbers.map Int.ofNat ∧ numbers.Pairwise (· < ·) ∧
      ∀ n, n ∈ numbers ↔ Shows rule lines (p · = true) n := by
  induction h with
  | start => exact ⟨[], rfl, .nil, fun n => by simp [Shows]⟩
  | @off above before m flagged line hreached happly ih =>
    obtain ⟨numbers, hflagged, hincreasing, hmem⟩ := ih
    have hon := leavesOn_iff_of_offAfter (hreached.off happly).offAfter_eq
    refine ⟨numbers, hflagged, hincreasing, fun n => ?_⟩
    rw [hmem, shows_concat, hon]
    simp
  | @stay above before m flagged line hreached happly hstays ih =>
    obtain ⟨numbers, rfl, hincreasing, hmem⟩ := ih
    have hon := leavesOn_iff_of_offAfter (hreached.stay happly hstays).offAfter_eq
    have hbelow : ∀ n ∈ numbers, n < above.length + 1 := fun n hn =>
      Nat.lt_succ_of_le ((hmem n).mp hn).le_length
    cases hp : p line with
    | false =>
      refine ⟨numbers, by simp [marking, hp, markAll], hincreasing, fun n => ?_⟩
      rw [hmem, shows_concat]
      simp [hp]
    | true =>
      refine ⟨numbers ++ [above.length + 1], ?_, ?_, fun n => ?_⟩
      · have hmark : ∀ k ∈ numbers.map Int.ofNat, k < (above.length + 1 : Nat) := by
          intro k hk
          obtain ⟨n, hn, rfl⟩ := List.mem_map.mp hk
          exact Int.ofNat_lt.mpr (hbelow n hn)
        simp only [marking, hp, if_true, markAll, List.foldl_cons, List.foldl_nil,
          Cursor.insertNumber_of_lt hmark, List.map_append, List.map_singleton]
        rfl
      · refine List.pairwise_append.mpr ⟨hincreasing, List.pairwise_singleton .., ?_⟩
        intro n hn k hk
        obtain rfl := List.mem_singleton.mp hk
        exact hbelow n hn
      · rw [List.mem_append, List.mem_singleton, hmem, shows_concat, hon]
        simp [hp]

/-- A rule for a pattern leaves a file as it is. It gives up at the first malformed directive and
reports nothing then; else it reports exactly the lines with the pattern at which it is on, if there
are any, and is content if there are none. -/
theorem run_reports_exactly (id description message : Bytes) (p : Pattern) (extensions : List Bytes)
    (context : Context) {tree : FileTree} {t u : Target} (hfile : t.kind = .file)
    (hload : t.load tree = .ok u) (hsize : u.lines.size < 2 ^ 63) :
    let out := (rule id description message p extensions).run context tree t
    let lines := u.lines.toList
    out.target = u ∧
      (∀ k ∈ firstMalformed? lines,
        out.log = [] ∧ ∃ e : MalformedDirective,
          e.line = k + 1 ∧ out.verdict = .failed false (.directive e)) ∧
      (firstMalformed? lines = none → ∃ numbers : List Nat,
        numbers.Pairwise (· < ·) ∧
          (∀ n, n ∈ numbers ↔ Shows id lines (fun line => p.Occurs (Utf8.chars line)) n) ∧
          out.log = (if numbers = [] then []
            else [⟨.error, violationText t.path (numbers.map Int.ofNat) message⟩]) ∧
          out.verdict = .done (decide (numbers = []))) := by
  intro out lines
  obtain ⟨-, -, hkept, -⟩ := Target.load_of_load hfile hload
  have hstays (m : Unit) (n : Nat) (line : Bytes) : (marking p.occursIn m n line).leaves = false :=
    rfl
  have hscan := ofLines_reacting (marking p.occursIn) () id hsize
  have hout : out = Rule.report u t.path message []
      (ofLines (reacting (marking p.occursIn)) u.lines.size () u.lines id) := by
    simp only [out, rule, Target.scan_of_load hfile hload, Option.getD_none, visitor_eq_reacting,
      hscan, hkept, Target.path_load hload]
  rw [hout, hscan]
  refine ⟨Rule.target_report .., fun k hk => ?_, fun hnone => ?_⟩
  · obtain ⟨m, flagged, e, hline, hpass⟩ := pass_of_malformed id () hstays hk
    rw [hpass]
    exact ⟨rfl, e, hline, rfl⟩
  · obtain ⟨off, m, flagged, hreached, hpass⟩ := pass_of_readable id () hstays hnone
    obtain ⟨numbers, rfl, hincreasing, hmem⟩ := flagged_of_reached hreached
    rw [hpass]
    refine ⟨numbers, hincreasing, fun n => ?_, ?_, ?_⟩
    · simp only [hmem, Pattern.occursIn_iff]
    · cases numbers <;> rfl
    · cases numbers <;> rfl

/-- The rule is off on the third line, and the last one has no line feed. -/
theorem run_reports_exactly_windowed :
    let lines := #[utf8 "exit\n", utf8 "X11_FUZZ: disable check_exit_keyword\n", utf8 "exit\n",
      utf8 "X11_FUZZ: enable check_exit_keyword\n", utf8 "\texit\r\n", utf8 "exited\n", utf8 "an exit"]
    let t : Target := ⟨utf8 "f.c", utf8 "/f.c", .file, some ⟨lines, lines⟩⟩
    let out := exitKeyword.run ⟨true, []⟩ default t
    out.log = [⟨.error, utf8 "f.c:[1,5,7] detected use of exit"⟩] ∧ out.target = t ∧
      ∃ numbers : List Nat, (∀ n, n ∈ numbers ↔ Shows exitKeyword.id lines.toList
        (fun line => exitKeywordPattern.Occurs (Utf8.chars line)) n) ∧ numbers ≠ [] := by
  intro lines t out
  have hlog : out.log = [⟨.error, utf8 "f.c:[1,5,7] detected use of exit"⟩] := by decide +kernel
  have hnone : firstMalformed? lines.toList = none := by decide +kernel
  have hload : t.load default = .ok t := rfl
  obtain ⟨htarget, -, hreports⟩ := run_reports_exactly exitKeyword.id exitKeyword.description
    exitKeyword.message exitKeywordPattern sourceExtensions ⟨true, []⟩ rfl hload (by decide)
  obtain ⟨numbers, -, hmem, hlog', -⟩ := hreports hnone
  refine ⟨hlog, htarget, numbers, hmem, ?_⟩
  rintro rfl
  exact absurd (hlog.symm.trans hlog') (by simp)

end LinePattern

end Linewise
