import Linewise.Proofs.ScanCoverage
import Linewise.Proofs.SuppressedText

/-!
# Reports on blanks and tabs

A run that only checks reports exactly the lines that end in a blank and exactly those with a tab,
among the lines at which the rule is on, and leaves the file as it is. A malformed directive anywhere
keeps it from reporting at all, and so does a width of tabs for which there is no text: the text is
made before anything else, although only mending needs it.
-/

namespace Linewise.Whitespace
open Bytes Cursor Directive Scan

/-- The text of a line, without a line feed at its end, ends in a space, a tab, a form feed, a carriage
return or a vertical tab. -/
def EndsInBlank (line : Bytes) : Prop :=
  ∃ text b, b ∈ ([32, 9, 12, 13, 11] : Bytes) ∧ (line = text ++ [b] ∨ line = text ++ [b, newline])

theorem isBlank_iff (b : UInt8) : isBlank b = true ↔ b ∈ ([32, 9, 12, 13, 11] : Bytes) := by
  simp [isBlank, or_assoc]

theorem hasTrailing_iff (line : Bytes) : hasTrailing line = true ↔ EndsInBlank line := by
  have hlast (body : Bytes) : body.getLast?.any isBlank = true ↔
      ∃ text b, b ∈ ([32, 9, 12, 13, 11] : Bytes) ∧ body = text ++ [b] := by
    rw [Option.any_eq_true]
    constructor
    · rintro ⟨b, hb, hblank⟩
      obtain ⟨text, rfl⟩ := List.getLast?_eq_some_iff.mp hb
      exact ⟨text, b, (isBlank_iff b).mp hblank, rfl⟩
    · rintro ⟨text, b, hblank, rfl⟩
      exact ⟨b, by simp, (isBlank_iff b).mpr hblank⟩
  unfold EndsInBlank
  by_cases hterminated : line.getLast? = some newline
  · obtain ⟨body, rfl⟩ := List.getLast?_eq_some_iff.mp hterminated
    rw [hasTrailing_terminated, hlast]
    -- A line feed is not a blank.
    refine exists_congr fun text => exists_congr fun b => and_congr_right fun hb => ?_
    have hne : newline ≠ b := by
      rintro rfl
      exact absurd hb (by decide)
    have happend : text ++ [b, newline] = (text ++ [b]) ++ [newline] := by simp
    rw [happend, List.append_left_inj, or_iff_right]
    intro hsame
    exact hne (by simpa using congrArg List.getLast? hsame)
  · have hopen : hasTrailing line = line.getLast?.any isBlank := by
      simp [hasTrailing, splitTerminator, hterminated]
    rw [hopen, hlast]
    refine exists_congr fun text => exists_congr fun b => and_congr_right fun hb => ?_
    rw [or_iff_left]
    rintro rfl
    simp at hterminated

theorem hasTab_iff (line : Bytes) : hasTab line = true ↔ tab ∈ line := by
  simp [hasTab]

/-- The line with a number has a property, and the directives down to it leave the rule on. -/
def Offends (lines : List Bytes) (p : Bytes → Prop) (number : Nat) : Prop :=
  ∃ i line, number = i + 1 ∧ lines[i]? = some line ∧ LeavesOn id (lines.take (i + 1)) ∧ p line

theorem offends_concat (above : List Bytes) (line : Bytes) (p : Bytes → Prop) (number : Nat) :
    Offends (above ++ [line]) p number ↔ Offends above p number ∨
      number = above.length + 1 ∧ LeavesOn id (above ++ [line]) ∧ p line :=
  shows_concat id above line p number

/-- The numbers of exactly the offending lines, in order. -/
structure Lists (lines : List Bytes) (p : Bytes → Prop) (numbers : List Nat) : Prop where
  increasing : numbers.Pairwise (· < ·)
  mem_iff : ∀ n, n ∈ numbers ↔ Offends lines p n

namespace Lists

variable {above : List Bytes} {line : Bytes} {p : Bytes → Prop} {numbers : List Nat}

theorem nil (p : Bytes → Prop) : Lists [] p [] := ⟨.nil, fun n => by simp [Offends]⟩

theorem skip (h : Lists above p numbers) (hnot : LeavesOn id (above ++ [line]) → ¬p line) :
    Lists (above ++ [line]) p numbers := by
  refine ⟨h.increasing, fun n => ?_⟩
  rw [offends_concat, h.mem_iff, or_iff_left]
  rintro ⟨-, hon, hp⟩
  exact hnot hon hp

theorem add (h : Lists above p numbers) (hon : LeavesOn id (above ++ [line])) (hp : p line) :
    Lists (above ++ [line]) p (numbers ++ [above.length + 1]) := by
  refine ⟨List.pairwise_append.mpr ⟨h.increasing, by simp, fun n hn k hk => ?_⟩, fun n => ?_⟩
  · obtain ⟨i, text, rfl, htext, -⟩ := (h.mem_iff n).mp hn
    have hi : i < above.length := (List.getElem?_eq_some_iff.mp htext).1
    obtain rfl := List.mem_singleton.mp hk
    omega
  · rw [offends_concat, List.mem_append, List.mem_singleton, h.mem_iff]
    simp [hon, hp]

theorem look {q : Bool} (h : Lists above p numbers) (hon : LeavesOn id (above ++ [line]))
    (hq : q = true ↔ p line) :
    Lists (above ++ [line]) p (if q then numbers ++ [above.length + 1] else numbers) := by
  cases q with
  | true => exact h.add hon (hq.mp rfl)
  | false => exact h.skip fun _ hp => absurd (hq.mpr hp) (by simp)

end Lists

/-- What holds at every turn of a scan that checks: the findings are those of the lines above the
cursor. -/
structure Checking (lines : Array Bytes) (a : Findings × Cursor) : Prop where
  reading : Reading lines a.2
  trailing : Lists (lines.toList.take a.2.index) EndsInBlank a.1.trailing
  tabs : Lists (lines.toList.take a.2.index) (tab ∈ ·) a.1.tabs

theorem checkVisitor_eq (found : Findings) (c : Cursor) :
    checkVisitor found c =
      ({ found with
          trailing := if hasTrailing c.line then found.trailing ++ [c.lineNumber] else found.trailing
          tabs := if hasTab c.line then found.tabs ++ [c.lineNumber] else found.tabs }, c, .next) := by
  cases ht : hasTrailing c.line <;> cases htab : hasTab c.line <;> simp [checkVisitor, ht, htab]

section Checking

variable {lines : Array Bytes} {found found' : Findings} {c c' d : Cursor}

/-- The lines down to a cursor are those above it and its own. -/
theorem Reading.take_succ (h : Reading lines c) (hsize : lines.size < 2 ^ 63) (hin : c.atEnd = false) :
    lines.toList.take (c.index + 1) = lines.toList.take c.index ++ [c.line] := by
  have hline := line_eq (by rw [h.lines_eq]; exact hsize) hin
  rw [h.lines_eq] at hline
  rw [List.take_add_one, Array.getElem?_toList, hline, Option.toList_some]

theorem Reading.leavesOn_iff (h : Reading lines c) (hin : c.atEnd = false) :
    LeavesOn id (lines.toList.take (c.index + 1)) ↔ c.suppressed = false := by
  rw [← Scan.leavesOn_iff (h.landed hin), linesRead, h.rule_eq, h.lines_eq]

theorem checking_start (h : Cursor.start lines id = .ok c) : Checking lines ({}, c) := by
  have hindex : c.index = 0 := by
    obtain ⟨off, states, rfl⟩ := start_frame h
    rfl
  refine ⟨reading_start h, ?_, ?_⟩
  · rw [hindex]
    exact .nil _
  · rw [hindex]
    exact .nil _

theorem Checking.turn (hsize : lines.size < 2 ^ 63) {a b : Findings × Cursor} (h : Checking lines a)
    (hturn : Turn checkVisitor a b) : Checking lines b := by
  obtain ⟨hreading, htrailing, htabs⟩ := h
  have hnext {c c' : Cursor} (hin : c.atEnd = false) (hmove : c.advance 1 = (c', none)) :
      c'.index = c.index + 1 := by
    have hindex := (advance_one_frame hin).2
    rwa [hmove] at hindex
  cases hturn with
  | @skip found c c' hin hoff hmove =>
    have hon : LeavesOn id (lines.toList.take (c.index + 1)) → False := by
      simp [hreading.leavesOn_iff hin, hoff]
    rw [hreading.take_succ hsize hin] at hon
    refine ⟨hreading.next hin hmove, ?_, ?_⟩
    · rw [hnext hin hmove, hreading.take_succ hsize hin]
      exact htrailing.skip fun h _ => hon h
    · rw [hnext hin hmove, hreading.take_succ hsize hin]
      exact htabs.skip fun h _ => hon h
  | @look found found' c d c' hin hon hvisit hmove =>
    rw [checkVisitor_eq] at hvisit
    obtain ⟨rfl, rfl⟩ : _ ∧ c = d := by simpa using hvisit
    have hon' := (hreading.leavesOn_iff hin).mpr hon
    have hlength : c.lineNumber = (lines.toList.take c.index).length + 1 := by
      have hlt : c.index < c.lines.size := by simpa [atEnd] using hin
      rw [hreading.lines_eq] at hlt
      simp only [lineNumber, List.length_take, Array.length_toList]
      omega
    rw [hreading.take_succ hsize hin] at hon'
    refine ⟨hreading.next hin hmove, ?_, ?_⟩
    · rw [hnext hin hmove, hreading.take_succ hsize hin, hlength]
      exact htrailing.look hon' (hasTrailing_iff _)
    · rw [hnext hin hmove, hreading.take_succ hsize hin, hlength]
      exact htabs.look hon' (hasTab_iff _)

end Checking

/-- A scan that checks: how it ends depends on the directives alone, it edits nothing, and when it
finishes it has found all that offends. -/
theorem ofLines_check {lines : Array Bytes} (hsize : lines.size < 2 ^ 63) :
    let s := ofLines checkVisitor lines.size {} lines id
    s.lines = lines ∧ s.memory.log = [] ∧
      (∀ m ∈ firstMalformed? lines.toList,
        ∃ e : MalformedDirective, e.line = m + 1 ∧ s.ending = .failed (.directive e)) ∧
      (firstMalformed? lines.toList = none →
        s.ending = .finished ∧ Lists lines.toList EndsInBlank s.memory.trailing ∧
          Lists lines.toList (tab ∈ ·) s.memory.tabs) := by
  intro s
  let plan : Unit → Cursor → Unit × List Operation := fun _ _ => ((), [])
  have hplan : OnlyMarks plan := fun _ _ _ hop => absurd hop List.not_mem_nil
  have hfollows : Follows (fun _ (found : Findings) => found.log = []) (accounting plan)
      checkVisitor := by
    intro m found c hlog
    rw [checkVisitor_eq]
    exact ⟨hlog, rfl⟩
  have halike : Alike (fun _ (found : Findings) => found.log = [])
      (ofLines (accounting plan) lines.size ((), []) lines id) s :=
    alike_ofLines hfollows lines.size rfl lines id
  obtain ⟨hlog, hlines, -, hending⟩ := halike
  obtain ⟨hsame, -, n, -, hends⟩ := complete_ofLines hplan () lines id
  rw [hlines] at hsame
  rw [hending] at hends
  refine ⟨hsame, hlog, fun m hm => ?_, fun hnone => ?_⟩
  · rcases hends with ⟨-, hnone, -⟩ | ⟨e, hblames, hfailed⟩
    · simp [hnone] at hm
    · obtain rfl : n = m := Option.some.inj (hblames.1.symm.trans hm)
      exact ⟨e, hblames.line_eq, hfailed⟩
  · rcases hends with ⟨-, -, hfinished⟩ | ⟨e, hblames, -⟩
    · obtain ⟨c, hc, hend, -⟩ := kept_of_finished (P := Checking lines)
        (fun c hs => checking_start hs) (fun _ _ ha => ha.turn hsize) hfinished
      have hall : lines.toList.take c.index = lines.toList := by
        have hend' : c.lines.size ≤ c.index := by simpa [atEnd] using hend
        rw [hc.reading.lines_eq] at hend'
        exact List.take_of_length_le (by simpa using hend')
      exact ⟨hfinished, hall ▸ hc.trailing, hall ▸ hc.tabs⟩
    · simp [hblames.1] at hnone

/-- What a run that only checks comes to on the file `u`: it leaves the file as it is. It gives up at
the first malformed directive and reports nothing then; else it reports exactly the lines that end in a
blank and then exactly those with a tab, each if there are any, and is content if there are none. -/
structure Exact (u : Target) (out : Run) : Prop where
  target_eq : out.target = u
  gives_up : ∀ m ∈ firstMalformed? u.lines.toList,
    out.log = [] ∧ ∃ e : MalformedDirective,
      e.line = m + 1 ∧ out.verdict = .failed false (.directive e)
  reports : firstMalformed? u.lines.toList = none → ∃ trailing tabs,
    Lists u.lines.toList EndsInBlank trailing ∧ Lists u.lines.toList (tab ∈ ·) tabs ∧
      out.log =
        (if trailing = [] then []
          else [⟨.error, violationText u.path (trailing.map Int.ofNat) message⟩]) ++
        (if tabs = [] then []
          else [⟨.error, violationText u.path (tabs.map Int.ofNat) tabMessage⟩]) ∧
      out.verdict = .done (decide (trailing = [] ∧ tabs = []))

/-- A run that only checks is exact when the text for a tab can be made, and breaks down before it has
read the file when it cannot. -/
theorem check_reports_exactly (flag : Int) (settings : Settings) {tree : FileTree} {t u : Target}
    (hfile : t.kind = .file) (hload : t.load tree = .ok u) (hsize : u.lines.size < 2 ^ 63) :
    let out := run flag ⟨false, settings⟩ tree t
    (Fits flag settings → Exact u out) ∧
      (¬Fits flag settings → out = ⟨t, [], .panicked oversized⟩) := by
  intro out
  refine ⟨fun hfits => ?_, fun hfits => run_of_not_fits ⟨false, settings⟩ hfits tree t⟩
  obtain ⟨hlines, hlog, hfails, hfinishes⟩ := ofLines_check hsize
  obtain ⟨-, -, hkept, -⟩ := Target.load_of_load hfile hload
  have hout : out = conclude u (ofLines checkVisitor u.lines.size {} u.lines id) := by
    have hrun := run_of_fits ⟨false, settings⟩ hfits tree t
    simpa only [visitor, Bool.false_eq_true, ↓reduceIte, Target.scan_of_load hfile hload,
      Option.getD_none, hlines, hkept] using hrun
  rw [hout]
  generalize ofLines checkVisitor u.lines.size {} u.lines id = s at hlog hfails hfinishes
  refine ⟨target_conclude u s, fun m hm => ?_, fun hnone => ?_⟩
  · obtain ⟨e, hline, hfailed⟩ := hfails m hm
    simp [conclude, hfailed, hlog, hline]
  · obtain ⟨hfinished, htrailing, htabs⟩ := hfinishes hnone
    refine ⟨_, _, htrailing, htabs, ?_, ?_⟩
    · simp [conclude, hfinished, hlog, offence]
    · simp only [conclude, hfinished, Verdict.done.injEq]
      exact Bool.eq_iff_iff.mpr (by simp)

/-- The rule is off on the third line, and the last one has no line feed. -/
theorem check_reports_exactly_windowed :
    let lines := #[utf8 "a\r\n", utf8 "X11_FUZZ: disable check_whitespace\n", utf8 "\tb \n",
      utf8 "X11_FUZZ: enable check_whitespace\n", utf8 "\tc\n", utf8 "\n", utf8 "d\t"]
    let t : Target := ⟨utf8 "f", utf8 "/f", .file, some ⟨lines, lines⟩⟩
    let out := run 0 ⟨false, []⟩ default t
    out.log = [⟨.error, utf8 "f:[1,7] " ++ message⟩, ⟨.error, utf8 "f:[5,7] " ++ tabMessage⟩] ∧
      out.target = t ∧ ∃ trailing tabs, Lists lines.toList EndsInBlank trailing ∧
        Lists lines.toList (tab ∈ ·) tabs ∧ trailing ≠ [] ∧ tabs ≠ [] := by
  intro lines t out
  have hlog : out.log =
      [⟨.error, utf8 "f:[1,7] " ++ message⟩, ⟨.error, utf8 "f:[5,7] " ++ tabMessage⟩] := by
    decide +kernel
  have hnone : firstMalformed? lines.toList = none := by decide +kernel
  have hload : t.load default = .ok t := rfl
  obtain ⟨htarget, -, hreports⟩ :=
    (check_reports_exactly 0 [] rfl hload (by decide)).1 (by decide)
  obtain ⟨trailing, tabs, htrailing, htabs, hlog', -⟩ := hreports hnone
  have hlength := congrArg List.length (hlog.symm.trans hlog')
  refine ⟨hlog, htarget, trailing, tabs, htrailing, htabs, ?_, ?_⟩
  · rintro rfl
    by_cases htabs : tabs = [] <;> simp [htabs] at hlength
  · rintro rfl
    by_cases htrailing : trailing = [] <;> simp [htrailing] at hlength

/-- A width that no text has keeps a run that only checks from finding that there is nothing wrong. -/
theorem check_breaks_down_on_wide_tabs :
    let settings : Settings := [(utf8 "tab_spacing", .int 9223372036854775807)]
    let lines := #[utf8 "x\n"]
    let t : Target := ⟨utf8 "f", utf8 "/f", .file, some ⟨lines, lines⟩⟩
    ¬Fits 0 settings ∧ firstMalformed? lines.toList = none ∧
      (run 0 ⟨false, settings⟩ default t).verdict = .panicked oversized ∧
      (run 0 ⟨false, []⟩ default t).verdict = .done true := by
  decide +kernel

end Linewise.Whitespace
