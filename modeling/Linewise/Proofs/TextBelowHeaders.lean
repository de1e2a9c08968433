import Linewise.Proofs.HeaderReading

/-!
# Text below a header

A scan has read nothing below the line at which its visitor goes to the end. So two files with the same
first lines, down to the one at which the rule for headers leaves the first of them, are judged alike,
whatever stands below that line.
-/

namespace Linewise

namespace Scan
open Cursor Directive Relation

variable {σ : Type}

/-- The visitor goes to the end of the text while it is shown line `k`. -/
def LeavesAt (visit : Visitor σ) (m₀ : σ) (rule : Bytes) (lines : Array Bytes) (k : Nat) : Prop :=
  ∃ c₀ m c, Cursor.start lines rule = .ok c₀ ∧ ReflTransGen (Turn visit) (m₀, c₀) (m, c) ∧
    c.atEnd = false ∧ c.suppressed = false ∧ c.lineNumber = k ∧ (visit m c).2.1.atEnd = true

/-- What the first lines of a text have made of a reader that has not left it: whether the rule is off
below them, what the reader remembers and what it has marked. -/
inductive Reached (rule : Bytes) (react : Reader σ) (m₀ : σ) :
    List Bytes → Bool → σ → List Int → Prop where
  | start : Reached rule react m₀ [] false m₀ []
  | off {above off m flagged line} (h : Reached rule react m₀ above off m flagged)
      (happly : applyLine rule off line (above.length + 1 : Nat) = .ok true) :
      Reached rule react m₀ (above ++ [line]) true m flagged
  | stay {above off m flagged line} (h : Reached rule react m₀ above off m flagged)
      (happly : applyLine rule off line (above.length + 1 : Nat) = .ok false)
      (hstays : (react m (above.length + 1) line).leaves = false) :
      Reached rule react m₀ (above ++ [line]) false (react m (above.length + 1) line).memory
        (markAll flagged (react m (above.length + 1) line).marks)

namespace Reached

variable {rule : Bytes} {react : Reader σ} {m₀ m : σ} {above : List Bytes} {off : Bool}
  {flagged : List Int}

theorem offAfter_eq (h : Reached rule react m₀ above off m flagged) :
    offAfter rule above = .ok off := by
  induction h with
  | start => exact offAfter_nil rule
  | off _ happly ih => rw [offAfter_concat ih, happly]
  | stay _ happly _ ih => rw [offAfter_concat ih, happly]

/-- The pass over a text goes on below its first lines from what they have made of the reader. -/
theorem pass_append (h : Reached rule react m₀ above off m flagged) (below : List Bytes) :
    pass rule react false 1 m₀ [] (above ++ below) =
      pass rule react off (above.length + 1) m flagged below := by
  induction h generalizing below with
  | start => rfl
  | off _ happly ih =>
    rw [List.append_assoc, ih, List.singleton_append, pass_off happly, List.length_append]
    rfl
  | stay _ happly hstays ih =>
    rw [List.append_assoc, ih, List.singleton_append, pass_stay happly hstays, List.length_append]
    rfl

/-- A pass that leaves the text ends there, whatever stands below. -/
theorem pass_leaves (h : Reached rule react m₀ above off m flagged) {line : Bytes}
    (happly : applyLine rule off line (above.length + 1 : Nat) = .ok false)
    (hleaves : (react m (above.length + 1) line).leaves = true) (below : List Bytes) :
    pass rule react false 1 m₀ [] (above ++ line :: below) =
      ((react m (above.length + 1) line).memory,
        markAll flagged (react m (above.length + 1) line).marks, .finished) := by
  rw [h.pass_append, pass_leave happly hleaves]

end Reached

variable {rule : Bytes} {react : Reader σ} {m₀ m : σ} {lines : Array Bytes} {c c' : Cursor}

/-- A move to the next line keeps the marks. -/
theorem frame_of_advance_one {error : Option MalformedDirective} (hin : c.atEnd = false)
    (hmove : c.advance 1 = (c', error)) : c'.index = c.index + 1 ∧ c'.flagged = c.flagged := by
  obtain ⟨off, states, hframe⟩ := land_frame { c with index := c.index + 1 }
  rw [advance_one hin] at hmove
  rw [hmove] at hframe
  obtain rfl : c' = _ := hframe
  exact ⟨rfl, rfl⟩

/-- What holds at every turn of a scan for a reader: the lines above the cursor have brought the reader
where it is. -/
structure Underway (rule : Bytes) (react : Reader σ) (m₀ : σ) (lines : Array Bytes)
    (a : σ × Cursor) : Prop where
  ahead : Ahead rule react lines (pass rule react false 1 m₀ [] lines.toList) a
  reached : a.2.atEnd = false →
    ∃ off, Reached rule react m₀ (lines.toList.take a.2.index) off a.1 a.2.flagged

namespace Underway

/-- The lines of the text at a cursor: those that were read, the one under the cursor, and others. -/
theorem split (h : Underway rule react m₀ lines (m, c)) (hsize : lines.size < 2 ^ 63)
    (hin : c.atEnd = false) :
    ∃ above off, lines.toList.take c.index = above ∧ above.length = c.index ∧
      lines.toList.take (c.index + 1) = above ++ [c.line] ∧
      Reached rule react m₀ above off m c.flagged ∧
      applyLine rule off c.line (above.length + 1 : Nat) = .ok c.suppressed := by
  obtain ⟨off, hreached⟩ := h.reached hin
  obtain ⟨hread, -⟩ := h.ahead.cons hsize hin
  have hlt : c.index < c.lines.size := by simpa [atEnd] using hin
  have hline : lines[c.index]? = some c.line := by
    rw [← h.ahead.lines_eq]
    exact line_eq (by rwa [h.ahead.lines_eq]) hin
  have hlength : (lines.toList.take c.index).length = c.index := by
    have hlines : c.lines = lines := h.ahead.lines_eq
    rw [hlines] at hlt
    simp only [List.length_take, Array.length_toList]
    omega
  rw [offAfter_take_succ hline hreached.offAfter_eq] at hread
  refine ⟨_, off, rfl, hlength, ?_, hreached, by rwa [hlength]⟩
  rw [List.take_add_one, Array.getElem?_toList, hline, Option.toList_some]

theorem turn (hsize : lines.size < 2 ^ 63) {a b : σ × Cursor} (h : Underway rule react m₀ lines a)
    (hturn : Turn (reacting react) a b) : Underway rule react m₀ lines b := by
  refine ⟨h.ahead.turn hsize hturn, fun hend => ?_⟩
  cases hturn with
  | @skip m c c' hin hoff hmove =>
    obtain ⟨above, off, -, -, htake, hreached, happly⟩ := h.split hsize hin
    obtain ⟨hindex, hflagged⟩ := frame_of_advance_one hin hmove
    rw [hoff] at happly
    refine ⟨true, ?_⟩
    simp only
    rw [hindex, htake, hflagged]
    exact .off hreached happly
  | @look m m' c d c' hin hon hvisit hmove =>
    obtain ⟨above, off, -, hlength, htake, hreached, happly⟩ := h.split hsize hin
    rw [hon] at happly
    have hnumber : c.lineNumber = above.length + 1 := by rw [hlength, lineNumber]
    simp only [reacting, hnumber, Prod.mk.injEq, and_true] at hvisit
    obtain ⟨rfl, rfl⟩ := hvisit
    cases hleaves : (react m (above.length + 1) c.line).leaves with
    | true =>
      -- Behind the end there is nothing to move on to.
      simp only [hleaves, if_true, advance_one_of_atEnd (atEnd_skipToEnd _), Prod.mk.injEq,
        and_true] at hmove
      simp [← hmove] at hend
    | false =>
      simp only [hleaves, Bool.false_eq_true, if_false] at hmove
      obtain ⟨hindex, hflagged⟩ := frame_of_advance_one (by exact hin) hmove
      refine ⟨false, ?_⟩
      simp only at hindex hflagged ⊢
      rw [hindex, htake, hflagged]
      exact .stay hreached happly hleaves

end Underway

theorem underway_start (h : Cursor.start lines rule = .ok c) :
    Underway rule react m₀ lines (m₀, c) := by
  refine ⟨ahead_start h, fun _ => ⟨false, ?_⟩⟩
  obtain ⟨off, states, rfl⟩ := start_frame h
  exact .start

/-- A reader that leaves a text was shown one of its lines, and reads nothing below it. -/
theorem LeavesAt.split {k : Nat} (h : LeavesAt (reacting react) m₀ rule lines k)
    (hsize : lines.size < 2 ^ 63) :
    ∃ above line off m flagged, lines.toList.take k = above ++ [line] ∧ above.length + 1 = k ∧
      Reached rule react m₀ above off m flagged ∧
      applyLine rule off line (above.length + 1 : Nat) = .ok false ∧
      (react m (above.length + 1) line).leaves = true := by
  obtain ⟨c₀, m, c, hstart, hturns, hin, hon, rfl, hend⟩ := h
  have hc : Underway rule react m₀ lines (m, c) :=
    turns_keep (fun _ _ ha => ha.turn hsize) (underway_start hstart) hturns
  obtain ⟨above, off, -, hlength, htake, hreached, happly⟩ := hc.split hsize hin
  have hnumber : c.lineNumber = above.length + 1 := by rw [hlength, lineNumber]
  refine ⟨above, c.line, off, m, c.flagged, htake, hnumber.symm, hreached, hon ▸ happly, ?_⟩
  rw [← hnumber]
  by_contra hstays
  have hsame : (reacting react m c).2.1.atEnd = c.atEnd := by
    simp only [reacting, Bool.eq_false_of_not_eq_true hstays, Bool.false_eq_true, if_false]
    rfl
  rw [hsame, hin] at hend
  cases hend

end Scan

namespace Header
open Cursor Directive Scan Relation

variable {name : Bytes} {lines : Array Bytes} {k : Nat}

/-- What is marked about a line is that line or the first one. -/
theorem marks_reader_le (name : Bytes) (p : Progress) {n : Nat} (hn : 1 ≤ n) (line : Bytes) :
    ∀ i ∈ (reader name p n line).marks, i ≤ n := by
  have hone : (1 : Int) ≤ n := Int.ofNat_le.mpr hn
  simp only [reader]
  split_ifs <;> simp_all

theorem markAll_le {flagged marks : List Int} {n : Int} (hflagged : ∀ i ∈ flagged, i ≤ n)
    (hmarks : ∀ i ∈ marks, i ≤ n) : ∀ i ∈ markAll flagged marks, i ≤ n := by
  induction marks generalizing flagged with
  | nil => exact hflagged
  | cons j marks ih =>
    obtain ⟨hj, hrest⟩ := List.forall_mem_cons.mp hmarks
    refine ih (fun i hi => ?_) hrest
    rcases mem_insertNumber.mp hi with rfl | hi
    · exact hj
    · exact hflagged i hi

/-- The marks of a reader that is on its way are numbers of lines that it has read. -/
theorem le_length_of_reached {rule : Bytes} {above : List Bytes} {off : Bool} {p : Progress}
    {flagged : List Int} (h : Reached rule (reader name) {} above off p flagged) :
    ∀ i ∈ flagged, i ≤ above.length := by
  induction h with
  | start => simp
  | off _ _ ih =>
    intro i hi
    have := ih i hi
    simp only [List.length_append, List.length_singleton]
    omega
  | @stay above off p flagged line _ _ _ ih =>
    rw [List.length_append, List.length_singleton]
    refine markAll_le (fun i hi => ?_) (marks_reader_le name p (Nat.succ_pos _) line)
    have := ih i hi
    omega

/-- A scan that leaves the text at a line comes to the same marks in every text with the same lines
down to that one, and marks none further down. -/
theorem ofLines_leaves {lines' : Array Bytes} (hsize : lines.size < 2 ^ 63)
    (hsize' : lines'.size < 2 ^ 63) (hleaves : LeavesAt (visitor name) {} id lines k)
    (hsame : lines'.toList.take k = lines.toList.take k) :
    ∃ p flagged, (∀ i ∈ flagged, i ≤ (k : Int)) ∧
      ofLines (visitor name) lines.size {} lines id = ⟨p, lines, flagged, .finished⟩ ∧
      ofLines (visitor name) lines'.size {} lines' id = ⟨p, lines', flagged, .finished⟩ := by
  rw [visitor_eq_reacting] at hleaves ⊢
  obtain ⟨above, line, off, p, flagged, htake, rfl, hreached, happly, hleft⟩ := hleaves.split hsize
  have hpass {lines : Array Bytes} (hsize : lines.size < 2 ^ 63)
      (htake : lines.toList.take (above.length + 1) = above ++ [line]) :
      ofLines (reacting (reader name)) lines.size {} lines id =
        ⟨(reader name p (above.length + 1) line).memory, lines,
          markAll flagged (reader name p (above.length + 1) line).marks, .finished⟩ := by
    have hsplit : lines.toList = above ++ line :: lines.toList.drop (above.length + 1) := by
      rw [← List.singleton_append, ← List.append_assoc, ← htake, List.take_append_drop]
    rw [ofLines_reacting (reader name) {} id hsize, hsplit, hreached.pass_leaves happly hleft]
  refine ⟨_, _, ?_, hpass hsize htake, hpass hsize' (hsame.trans htake)⟩
  refine markAll_le (fun i hi => ?_) (marks_reader_le name p (Nat.succ_pos _) line)
  have := le_length_of_reached hreached i hi
  omega

/-- What stands below the line at which the rule leaves a file has no influence: on every file at the
same path with the same lines down to that one the rule comes to its end, is as content, marks the same
lines, none of them further down, and says the same. -/
theorem ignores_text_below (ctx ctx' : Context) {tree tree' : FileTree} {t t' u u' : Target}
    (hfile : t.kind = .file) (hfile' : t'.kind = .file) (hpath : t'.path = t.path)
    (hload : t.load tree = .ok u) (hload' : t'.load tree' = .ok u')
    (hsize : u.lines.size < 2 ^ 63) (hsize' : u'.lines.size < 2 ^ 63)
    (hleaves : LeavesAt (visitor t.name) {} id u.lines k)
    (hsame : u'.lines.toList.take k = u.lines.toList.take k) :
    let flagged := (t.scan tree id (visitor t.name) {}).2.flagged
    let flagged' := (t'.scan tree' id (visitor t'.name) {}).2.flagged
    flagged' = flagged ∧ (∀ n ∈ flagged, n ≤ (k : Int)) ∧
      ∃ clean log, run ctx tree t = ⟨u, log, .done clean⟩ ∧
        run ctx' tree' t' = ⟨u', log, .done clean⟩ := by
  have hname : t'.name = t.name := by rw [Target.name, hpath, Target.name]
  obtain ⟨p, flagged, hle, hscan, hscan'⟩ := ofLines_leaves hsize hsize' hleaves hsame
  have hkept := (Target.load_of_load hfile hload).2.2.1
  have hkept' := (Target.load_of_load hfile' hload').2.2.1
  simp only [run, Target.scan_of_load hfile hload, Target.scan_of_load hfile' hload', Option.getD_none,
    hname, hscan, hscan', hkept, hkept', Rule.report, Target.path_load hload, Target.path_load hload',
    hpath]
  refine ⟨trivial, hle, ?_⟩
  cases flagged with
  | nil => exact ⟨true, [], rfl, rfl⟩
  | cons n more => exact ⟨false, _, rfl, rfl⟩

/-- A header that is too short, with lines at which the rule is off. -/
def shortHeader : List Bytes :=
  [utf8 "#\n", utf8 "# X11_FUZZ: disable check_fileheader\n", utf8 "*/\n",
    utf8 "# X11_FUZZ: enable check_fileheader\n", utf8 "print 1;\n"]

/-- A file that starts with the header, read already. -/
def shortHeaderFile (below : List Bytes) : Target :=
  let lines := (shortHeader ++ below).toArray
  ⟨utf8 "run.pl", utf8 "/run.pl", .file, some ⟨lines, lines⟩⟩

/-- The cursor on a line of the header, when the states down to it are known. -/
def headerCursor (states : Array Bool) : Cursor :=
  { lines := shortHeader.toArray
    rule := id
    index := states.size - 1
    suppressed := states.back?.getD false
    states := states }

/-- The fifth line has no `#`; the second one switches the rule off and the fourth one on again. -/
theorem leavesAt_shortHeader : LeavesAt (visitor (utf8 "run.pl")) {} id shortHeader.toArray 5 := by
  have hone : Turn (visitor (utf8 "run.pl")) ({}, headerCursor #[false])
      (⟨1, true⟩, headerCursor #[false, true]) :=
    .look (d := headerCursor #[false]) rfl rfl (by decide +kernel) (by decide +kernel)
  have htwo : Turn (visitor (utf8 "run.pl")) (⟨1, true⟩, headerCursor #[false, true])
      (⟨1, true⟩, headerCursor #[false, true, true]) :=
    .skip rfl rfl (by decide +kernel)
  have hthree : Turn (visitor (utf8 "run.pl")) (⟨1, true⟩, headerCursor #[false, true, true])
      (⟨1, true⟩, headerCursor #[false, true, true, false]) :=
    .skip rfl rfl (by decide +kernel)
  have hfour : Turn (visitor (utf8 "run.pl")) (⟨1, true⟩, headerCursor #[false, true, true, false])
      (⟨1, true⟩, headerCursor #[false, true, true, false, false]) :=
    .look (d := headerCursor #[false, true, true, false]) rfl rfl (by decide +kernel)
      (by decide +kernel)
  refine ⟨headerCursor #[false], ⟨1, true⟩, headerCursor #[false, true, true, false, false],
    by decide +kernel, ?_, by decide +kernel⟩
  exact .head hone (.head htwo (.head hthree (.single hfour)))

/-- More lines below the header, with a malformed directive among them, change nothing. -/
theorem ignores_text_below_shortHeader :
    let t := shortHeaderFile []
    let t' := shortHeaderFile [utf8 "X11_FUZZ: enable\n", utf8 "# run.pl\n"]
    let log := [⟨.error, utf8 "run.pl:[5] " ++ message⟩]
    LeavesAt (visitor t.name) {} id t.lines 5 ∧ run {} default t = ⟨t, log, .done false⟩ ∧
      run {} default t' = ⟨t', log, .done false⟩ := by
  intro t t' log
  have hrun : run {} default t = ⟨t, log, .done false⟩ := by decide +kernel
  obtain ⟨-, -, clean, log', hsame, hrun'⟩ := ignores_text_below {} {}
    (rfl : t.kind = .file) (rfl : t'.kind = .file) rfl (rfl : t.load default = .ok t)
    (rfl : t'.load default = .ok t') (by decide) (by decide) leavesAt_shortHeader rfl
  have heq := hrun.symm.trans hsame
  simp only [Run.mk.injEq, Verdict.done.injEq, true_and] at heq
  obtain ⟨rfl, rfl⟩ := heq
  exact ⟨leavesAt_shortHeader, hrun, hrun'⟩

end Header

end Linewise
