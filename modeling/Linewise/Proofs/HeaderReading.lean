import Linewise.Proofs.LinePasses
import Linewise.Proofs.ScanCoverage
import Linewise.Proofs.SuppressedText

/-!
# Headers that are accepted

The rule for headers passes through the lines of a file up to the one that closes the header. On a
file without directives it is content exactly when the header opens on the first or second line, names
the file on its second line and does not close too early.
-/

namespace Linewise

namespace Bytes

theorem occursIn_iff (part text : Bytes) : occursIn part text = true ↔ part <:+: text := by
  induction text with
  | nil => simp [occursIn]
  | cons b rest ih =>
    rw [occursIn, Bool.or_eq_true, List.isPrefixOf_iff_prefix, ih, List.infix_cons_iff]

end Bytes

namespace Header
open Bytes Directive Scan

/-! ## The rule as a reader -/

/-- Whether a line closes a header of which is known how it opened. -/
def closes (p : Progress) (line : Bytes) : Bool :=
  occursIn closer line || (p.script && !line.contains hash)

/-- The visitor without its cursor. -/
def reader (name : Bytes) : Reader Progress := fun p n line =>
  if n == 1 then
    { memory :=
        ⟨if opens line && !isInterpreterLine line then 1 else p.start, startsWithHash line⟩ }
  else if n == 2 && p.start == 0 then
    if opens line then { memory := ⟨2, p.script || startsWithHash line⟩ }
    else { memory := p, marks := [1], leaves := true }
  else if n == 2 then
    { memory := p
      marks := (if occursIn closer line then [2] else []) ++ if occursIn name line then [] else [2] }
  else if p.start > 0 then
    let unnamed := if n == 3 && p.start == 2 && !occursIn name line then [(n : Int)] else []
    if closes p line then
      { memory := p
        marks := unnamed ++ if 1 + n - p.start < leastLines then [(n : Int)] else []
        leaves := true }
    else { memory := p, marks := unnamed }
  else { memory := p }

theorem visitor_eq_reacting (name : Bytes) : visitor name = reacting (reader name) := by
  funext p c
  have hnumber (flagged : List Int) :
      Cursor.lineNumber { c with flagged := flagged } = c.lineNumber := rfl
  simp only [visitor, reacting, reader, closes]
  split_ifs <;> simp_all [markAll, Cursor.mark, Cursor.markLine, Cursor.skipToEnd]

/-! ## Files without directives -/

/-- There is no directive on a line. -/
def Plain (line : Bytes) : Prop := scanFrom 0 line = .ok []

instance (line : Bytes) : Decidable (Plain line) := inferInstanceAs (Decidable (_ = _))

theorem Plain.applyLine_eq {line : Bytes} (h : Plain line) (rule : Bytes) (off : Bool) (number : Int) :
    applyLine rule off line number = .ok off := by
  rw [Plain] at h
  simp [applyLine, parse, h, Directive.apply]

/-- A pass over lines without directives comes to its end. -/
theorem pass_finished {σ : Type} (rule : Bytes) (react : Reader σ) (n : Nat) (m : σ)
    (flagged : List Int) {lines : List Bytes} (hplain : ∀ line ∈ lines, Plain line) :
    (pass rule react false n m flagged lines).2.2 = .finished := by
  induction lines generalizing n m flagged with
  | nil => rfl
  | cons line rest ih =>
    have happly := (hplain line List.mem_cons_self).applyLine_eq rule false n
    have hrest := fun line hline => hplain line (List.mem_cons_of_mem _ hline)
    cases hleaves : (react m n line).leaves with
    | true => rw [pass_leave happly hleaves]
    | false =>
      rw [pass_stay happly hleaves]
      exact ih _ _ _ hrest

variable {name line first second : Bytes} {rest lines : List Bytes} {p : Progress} {n : Nat}
  {flagged : List Int}

/-- The marks at the end of a pass over lines without directives. -/
def marksFrom (name : Bytes) (n : Nat) (p : Progress) (flagged : List Int) (lines : List Bytes) :
    List Int :=
  (pass id (reader name) false n p flagged lines).2.1

theorem marksFrom_cons (hplain : Plain line) :
    marksFrom name n p flagged (line :: rest) =
      let r := reader name p n line
      if r.leaves then markAll flagged r.marks
      else marksFrom name (n + 1) r.memory (markAll flagged r.marks) rest := by
  cases hleaves : (reader name p n line).leaves with
  | true => simp [marksFrom, pass_leave (hplain.applyLine_eq id false n) hleaves, hleaves]
  | false => simp [marksFrom, pass_stay (hplain.applyLine_eq id false n) hleaves, hleaves]

theorem insertNumber_ne_nil (n : Int) (flagged : List Int) : Cursor.insertNumber n flagged ≠ [] :=
  List.ne_nil_of_mem (Cursor.mem_insertNumber.mpr (.inl rfl))

theorem markAll_eq_nil_iff (flagged marks : List Int) :
    markAll flagged marks = [] ↔ flagged = [] ∧ marks = [] := by
  induction marks generalizing flagged with
  | nil => simp [markAll]
  | cons n marks ih =>
    have hstep : markAll flagged (n :: marks) = markAll (Cursor.insertNumber n flagged) marks := rfl
    simp [hstep, ih, insertNumber_ne_nil]

/-- What is done about a line below the second one. -/
theorem reader_below (name line : Bytes) (hstart : 0 < p.start) (hn : 3 ≤ n) :
    (reader name p n line).memory = p ∧ (reader name p n line).leaves = closes p line ∧
      ((reader name p n line).marks = [] ↔
        (n = 3 → p.start = 2 → name <:+: line) ∧ (closes p line = true → p.start + 5 ≤ n)) := by
  have h1 : n ≠ 1 := by omega
  have h2 : n ≠ 2 := by omega
  have hshort : 1 + n - p.start < leastLines ↔ ¬p.start + 5 ≤ n := by
    simp only [leastLines]
    omega
  simp only [← occursIn_iff, reader, h1, h2, hstart, beq_iff_eq, Bool.and_eq_true, false_and, if_false,
    if_true, hshort]
  cases hclosed : closes p line with
  | true => simp
  | false => simp

/-- Below the second line nothing is marked when the third one names the file, if the header opened on
the second, and every line that would close it is far enough down. -/
theorem marksFrom_eq_nil_iff (hstart : 0 < p.start) (hn : 3 ≤ n) (hplain : ∀ line ∈ lines, Plain line) :
    marksFrom name n p flagged lines = [] ↔
      flagged = [] ∧ (n = 3 → p.start = 2 → ∀ line ∈ lines.head?, name <:+: line) ∧
        ∀ j line, lines[j]? = some line → closes p line = true → p.start + 5 ≤ n + j := by
  induction lines generalizing n flagged with
  | nil => simp [marksFrom]
  | cons line rest ih =>
    obtain ⟨hmemory, hleaves, hmarks⟩ := reader_below name line hstart hn
    have hindices : (∀ j text, (line :: rest)[j]? = some text → closes p text = true →
        p.start + 5 ≤ n + j) ↔ (closes p line = true → p.start + 5 ≤ n) ∧
          ∀ j text, rest[j]? = some text → closes p text = true → p.start + 5 ≤ n + 1 + j := by
      constructor
      · intro h
        exact ⟨fun hclosed => h 0 line rfl hclosed,
          fun j text htext hclosed => by have := h (j + 1) text htext hclosed; omega⟩
      · rintro ⟨hfirst, hrest⟩ (_ | j) text htext hclosed
        · obtain rfl : line = text := by simpa using htext
          exact hfirst hclosed
        · have := hrest j text htext hclosed
          omega
    rw [marksFrom_cons (hplain line List.mem_cons_self), hindices]
    simp only [hmemory, hleaves, List.head?_cons, Option.mem_some_iff, forall_eq']
    cases hclosed : closes p line with
    | true =>
      simp only [if_true, markAll_eq_nil_iff, hmarks, hclosed, forall_const]
      -- The lines further down are further down than this one.
      refine and_congr_right fun _ => and_congr_right fun _ => (and_iff_left_of_imp fun hn j => ?_).symm
      omega
    | false =>
      have hrest := @ih (n + 1) (markAll flagged (reader name p n line).marks) (by omega)
        fun line hline => hplain line (List.mem_cons_of_mem _ hline)
      have hlater : n + 1 ≠ 3 := by omega
      simp only [Bool.false_eq_true, if_false, hrest, markAll_eq_nil_iff, hmarks, hclosed, hlater,
        false_imp_iff, and_true, true_and, and_assoc]

/-- A line that opens a header: it starts with `/*`, or with `#` but not with `#!`. -/
def Opening (line : Bytes) : Prop :=
  utf8 "/*" <+: line ∨ utf8 "#" <+: line ∧ ¬utf8 "#!" <+: line

instance (line : Bytes) : Decidable (Opening line) := inferInstanceAs (Decidable (_ ∨ _))

theorem startsWithHash_iff (line : Bytes) : startsWithHash line = true ↔ utf8 "#" <+: line := by
  have hsign : utf8 "#" = [hash] := by decide
  cases line with
  | nil => simp [startsWithHash, hsign]
  | cons b rest =>
    rw [hsign, List.cons_prefix_cons, startsWithHash, List.head?_cons, beq_iff_eq, Option.some.injEq]
    simpa using eq_comm

theorem opens_iff (line : Bytes) : opens line = true ↔ utf8 "/*" <+: line ∨ utf8 "#" <+: line := by
  rw [opens, Bool.or_eq_true, List.isPrefixOf_iff_prefix, startsWithHash_iff]

theorem opening_iff (line : Bytes) :
    Opening line ↔ opens line = true ∧ ¬utf8 "#!" <+: line := by
  have hcomment (h : utf8 "/*" <+: line) : ¬utf8 "#!" <+: line := by
    intro h'
    have heq := List.prefix_of_prefix_length_le h h' (by decide)
    exact absurd heq (by decide)
  rw [opens_iff, Opening, or_and_right]
  exact or_congr_left (iff_self_and.mpr hcomment)

theorem opens_and_not_interpreter (line : Bytes) :
    (opens line && !isInterpreterLine line) = true ↔ Opening line := by
  rw [opening_iff, Bool.and_eq_true, isInterpreterLine, Bool.not_eq_true',
    ← List.isPrefixOf_iff_prefix, Bool.not_eq_true]

/-- What is asked of the lines below the second one: the third names the file, if the header opened on
the second, and every line that would close the header is far enough down. -/
def GoesOn (name : Bytes) (p : Progress) (rest : List Bytes) : Prop :=
  (p.start = 2 → ∀ line ∈ rest.head?, name <:+: line) ∧
    ∀ j line, rest[j]? = some line → closes p line = true → p.start + 5 ≤ 3 + j

theorem marksFrom_three_eq_nil_iff (hstart : 0 < p.start) (hplain : ∀ line ∈ rest, Plain line) :
    marksFrom name 3 p flagged rest = [] ↔ flagged = [] ∧ GoesOn name p rest := by
  rw [marksFrom_eq_nil_iff hstart (Nat.le_refl 3) hplain, GoesOn]
  simp

/-- What is asked of a file: a single line is taken as it is; else the header opens on the first line,
and the second line names the file and does not close the header, or it opens on the second line. -/
def Passes (name : Bytes) : List Bytes → Prop
  | first :: second :: rest =>
    Opening first ∧ name <:+: second ∧ ¬closer <:+: second ∧
        GoesOn name ⟨1, startsWithHash first⟩ rest ∨
      ¬Opening first ∧ opens second = true ∧
        GoesOn name ⟨2, startsWithHash first || startsWithHash second⟩ rest
  | _ => True

/-- A file without directives is left unmarked exactly when it passes. -/
theorem marksFrom_one_eq_nil_iff (hplain : ∀ line ∈ lines, Plain line) :
    marksFrom name 1 {} [] lines = [] ↔ Passes name lines := by
  have hone (first : Bytes) : reader name {} 1 first =
      { memory := ⟨if Opening first then 1 else 0, startsWithHash first⟩ } := by
    simp [reader, ← opens_and_not_interpreter]
  rcases lines with _ | ⟨first, _ | ⟨second, rest⟩⟩
  · simp [marksFrom, Passes]
  · rw [marksFrom_cons (hplain first (by simp)), hone]
    simp [marksFrom, markAll, Passes]
  · have hrest : ∀ line ∈ rest, Plain line := fun line hline => hplain line (by simp [hline])
    rw [marksFrom_cons (hplain first (by simp)), hone]
    simp only [Bool.false_eq_true, if_false, markAll, List.foldl_nil]
    rw [marksFrom_cons (hplain second (by simp)), Passes]
    by_cases hopens : Opening first
    · have htwo : reader name ⟨1, startsWithHash first⟩ 2 second =
          { memory := ⟨1, startsWithHash first⟩
            marks := (if occursIn closer second then [2] else []) ++
              if occursIn name second then [] else [2] } := by
        simp [reader]
      simp only [hopens, if_true, htwo, Bool.false_eq_true, if_false]
      rw [marksFrom_three_eq_nil_iff (Nat.one_pos) hrest, markAll_eq_nil_iff, ← occursIn_iff,
        ← occursIn_iff]
      cases occursIn closer second <;> cases occursIn name second <;> simp
    · by_cases hsecond : opens second = true
      · have htwo : reader name ⟨0, startsWithHash first⟩ 2 second =
            { memory := ⟨2, startsWithHash first || startsWithHash second⟩ } := by
          simp [reader, hsecond]
        simp only [hopens, if_false, htwo, Bool.false_eq_true]
        rw [marksFrom_three_eq_nil_iff (Nat.two_pos) hrest, markAll_eq_nil_iff]
        simp [hsecond]
      · simp [hopens, hsecond, reader, markAll, insertNumber_ne_nil]

/-- On a file without directives the rule is content exactly when the file passes. -/
theorem run_eq_done_true_iff (ctx : Context) {tree : FileTree} {t u : Target} (hfile : t.kind = .file)
    (hload : t.load tree = .ok u) (hsize : u.lines.size < 2 ^ 63)
    (hplain : ∀ line ∈ u.lines.toList, Plain line) :
    (run ctx tree t).verdict = .done true ↔ Passes t.name u.lines.toList := by
  rw [← marksFrom_one_eq_nil_iff hplain, marksFrom]
  have hfinished := pass_finished id (reader t.name) 1 {} [] hplain
  have hscan := ofLines_reacting (reader t.name) {} id hsize
  simp only [run, Target.scan_of_load hfile hload, Option.getD_none, visitor_eq_reacting, hscan]
  generalize pass id (reader t.name) false 1 {} [] u.lines.toList = out at hfinished
  obtain ⟨memory, flagged, ending⟩ := out
  obtain rfl : ending = .finished := hfinished
  cases flagged <;> simp [Rule.report]

/-! ## Headers -/

/-- The header that opens on line `s` with `/*` closes on line `k`, the first one from there on with
`*/`. -/
def ClosesComment (lines : List Bytes) (s k : Nat) : Prop :=
  (∃ line ∈ lines[s - 1]?, utf8 "/*" <+: line) ∧ s ≤ k ∧
    (∃ line ∈ lines[k - 1]?, closer <:+: line) ∧
      ∀ j < k, s ≤ j → ∀ line ∈ lines[j - 1]?, ¬closer <:+: line

/-- The header that opens on line `s` with `#` closes on line `k`, the first one further down without
that sign. -/
def ClosesScript (lines : List Bytes) (s k : Nat) : Prop :=
  (∃ line ∈ lines[s - 1]?, utf8 "#" <+: line) ∧ s < k ∧ (∃ line ∈ lines[k - 1]?, hash ∉ line) ∧
    ∀ j < k, s < j → ∀ line ∈ lines[j - 1]?, hash ∈ line

instance (lines : List Bytes) (s k : Nat) : Decidable (ClosesComment lines s k) :=
  inferInstanceAs (Decidable (_ ∧ _))

instance (lines : List Bytes) (s k : Nat) : Decidable (ClosesScript lines s k) :=
  inferInstanceAs (Decidable (_ ∧ _))

/-- The header that opens on line `s` closes on line `k`, which is a line on which that is noticed:
below the opening one for a header in the style of C, and below the second line for one of `#`
lines. -/
def ClosesInSight (lines : List Bytes) (s k : Nat) : Prop :=
  s < k ∧ ClosesComment lines s k ∨ 2 < k ∧ ClosesScript lines s k

/-- A header that closes on the third line or further down is at least six lines long. -/
theorem GoesOn.le_of_closes {s k : Nat} {script : Bool} (h : GoesOn name ⟨s, script⟩ rest)
    (hscript : ∀ line ∈ (first :: second :: rest)[s - 1]?, utf8 "#" <+: line → script = true)
    (hk : 3 ≤ k)
    (hcloses : ClosesComment (first :: second :: rest) s k ∨
      ClosesScript (first :: second :: rest) s k) : s + 5 ≤ k := by
  obtain ⟨j, rfl⟩ := Nat.exists_eq_add_of_le hk
  have hbelow {line : Bytes} (hline : line ∈ (first :: second :: rest)[3 + j - 1]?)
      (hclosed : closes ⟨s, script⟩ line = true) : s + 5 ≤ 3 + j := by
    have hindex : 3 + j - 1 = j + 2 := by omega
    exact h.2 j line (by simpa [hindex] using hline) hclosed
  rcases hcloses with ⟨-, -, ⟨line, hline, hend⟩, -⟩ | ⟨⟨top, htop, hsign⟩, -, ⟨line, hline, hend⟩, -⟩
  · exact hbelow hline (by simp [closes, (occursIn_iff closer line).mpr hend])
  · exact hbelow hline (by simp [closes, hscript top htop hsign, hend])

/-- A file that is accepted, without directives, with two lines or more and no `#!` on the second one
if the first opens no header: a header opens on the first or second line, the next line names the file,
and if the header closes in sight, it is at least six lines long. The line without `#` that closes a
header counts. -/
theorem accepts_header (ctx : Context) {tree : FileTree} {t u : Target} (hfile : t.kind = .file)
    (hload : t.load tree = .ok u) (hsize : u.lines.size < 2 ^ 63) (hlines : u.lines.toList = lines)
    (hplain : ∀ line ∈ lines, Plain line) (haccepts : (run ctx tree t).verdict = .done true)
    (htwo : 2 ≤ lines.length)
    (hsecond : (∃ line ∈ lines[0]?, Opening line) ∨ ∀ line ∈ lines[1]?, ¬utf8 "#!" <+: line) :
    ∃ s ∈ [1, 2], (∃ line ∈ lines[s - 1]?, Opening line) ∧ (∀ line ∈ lines[s]?, t.name <:+: line) ∧
      ∀ k, ClosesInSight lines s k → s + 5 ≤ k := by
  subst hlines
  rw [run_eq_done_true_iff ctx hfile hload hsize hplain] at haccepts
  generalize u.lines.toList = lines at htwo hsecond haccepts
  rcases lines with _ | ⟨first, _ | ⟨second, rest⟩⟩
  · simp at htwo
  · simp at htwo
  · rcases haccepts with ⟨hopens, hname, hopen, hrest⟩ | ⟨hnot, hopens, hrest⟩
    · refine ⟨1, by simp, by simpa using hopens, by simpa using hname, fun k hcloses => ?_⟩
      have hk : 3 ≤ k := by
        rcases hcloses with ⟨hone, -, -, hend, -⟩ | ⟨htwo, -⟩
        · -- The second line does not close the header.
          have hne : k ≠ 2 := by
            rintro rfl
            exact hopen (by simpa using hend)
          omega
        · exact htwo
      exact hrest.le_of_closes (by simp [startsWithHash_iff]) hk (hcloses.imp And.right And.right)
    · have hopening : Opening second :=
        (opening_iff second).mpr ⟨hopens, by simpa [hnot] using hsecond⟩
      refine ⟨2, by simp, by simpa using hopening, ?_, fun k hcloses => ?_⟩
      · simpa [List.head?_eq_getElem?] using hrest.1 rfl
      · have hk : 3 ≤ k := hcloses.elim And.left And.left
        exact hrest.le_of_closes (by simp +contextual [startsWithHash_iff]) hk
          (hcloses.imp And.right And.right)

/-- A file `run.pl` in memory. -/
def scriptFile (text : Bytes) : Target :=
  let lines := (Lines.split text).toArray
  ⟨utf8 "run.pl", utf8 "/run.pl", .file, some ⟨lines, lines⟩⟩

/-- A header of `#` lines on the second line; the seventh line closes it. -/
theorem accepts_header_script :
    let text := utf8 "#!/usr/bin/perl\n#\n# run.pl\n# a\n# b\n# c\nprint 1;\n"
    let lines := Lines.split text
    (run {} default (scriptFile text)).verdict = .done true ∧ ClosesScript lines 2 7 ∧
      ∃ s ∈ [1, 2], (∃ line ∈ lines[s - 1]?, Opening line) ∧
        (∀ line ∈ lines[s]?, utf8 "run.pl" <:+: line) ∧
          ∀ k, ClosesInSight lines s k → s + 5 ≤ k := by
  intro text lines
  have haccepts : (run {} default (scriptFile text)).verdict = .done true := by decide +kernel
  have hload : (scriptFile text).load default = .ok (scriptFile text) := rfl
  have hlines : (scriptFile text).lines.toList = lines := rfl
  exact ⟨haccepts, by decide +kernel,
    accepts_header {} rfl hload (by decide) hlines (by decide +kernel) haccepts (by decide)
      (by decide +kernel)⟩

/-- A file with a header of six lines, to which a line without `#` that ends it does not belong. -/
def Proper (name : Bytes) (lines : List Bytes) : Prop :=
  ∃ s ∈ [1, 2], (∃ line ∈ lines[s - 1]?, Opening line) ∧ (∃ line ∈ lines[s]?, name <:+: line) ∧
    ((∃ k ≤ lines.length, ClosesComment lines s k ∧ s + 5 ≤ k) ∨
      (∃ k ≤ lines.length, ClosesScript lines s k ∧ s + 5 ≤ k - 1) ∨
        (∃ line ∈ lines[s - 1]?, utf8 "#" <+: line) ∧
          (∀ k ≤ lines.length, ¬ClosesScript lines s k) ∧ s + 5 ≤ lines.length)

instance (name : Bytes) (lines : List Bytes) : Decidable (Proper name lines) :=
  inferInstanceAs (Decidable (∃ s ∈ [1, 2], _))

/-- A text without directives that is accepted and has no proper header. -/
def Misjudged (text : Bytes) : Prop :=
  (∀ line ∈ Lines.split text, Plain line) ∧
    (run {} default (scriptFile text)).verdict = .done true ∧
      ¬Proper (utf8 "run.pl") (Lines.split text)

instance (text : Bytes) : Decidable (Misjudged text) := inferInstanceAs (Decidable (_ ∧ _))

/-- The line that closes a header is counted; and the rule does not notice a single line, `#!` on the
second line, a header that goes on to the end of the file or ends there before the file is named, a
header of `#` lines that closes on the second line, and one in the style of C that closes on the line
that opens it. -/
theorem accepts_improper :
    Misjudged (utf8 "#!/usr/bin/perl\n#\n# run.pl\n# a\n# b\n# c\nprint 1;\n") ∧
      Misjudged (utf8 "x\n") ∧
      Misjudged (utf8 "x\n#! run\n# run.pl\n#\n#\n#\n#\n#\ny\n") ∧
      Misjudged (utf8 "/*\n run.pl\n") ∧
      Misjudged (utf8 "#\n# run.pl\n") ∧
      Misjudged (utf8 "x\n/*\n") ∧
      Misjudged (utf8 "#\n run.pl\n#\n#\n#\nx\n") ∧
      Misjudged (utf8 "/* a */\n run.pl\n#\n#\n#\n*/\n") := by
  decide +kernel

end Header

end Linewise
