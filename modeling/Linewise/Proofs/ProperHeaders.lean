import Linewise.Proofs.HeaderReading

/-!
# Proper headers

A header of six lines that names its file is accepted, unless one of the four lines below its first
one closes it too early in the eyes of the rule. The rule takes `*/` for the end of a header of `#`
lines too, and below a `#!` line it takes a line without `#` for the end of a header in the style of C.
-/

namespace Linewise.Header
open Bytes Directive Scan

variable {first second name line : Bytes} {rest lines : List Bytes} {s : Nat}

/-- The first one of the first two lines to open a header is line `s`. -/
def OpensAt (lines : List Bytes) (s : Nat) : Prop :=
  s = 1 ∧ (∃ line ∈ lines[0]?, Opening line) ∨
    s = 2 ∧ (∀ line ∈ lines[0]?, ¬Opening line) ∧ ∃ line ∈ lines[1]?, Opening line

/-- The header that opens on line `s` is closed and at least six lines long. The line with `*/` is part
of it, the line without `#` is not. -/
def SixLines (lines : List Bytes) (s : Nat) : Prop :=
  (∃ k, ClosesComment lines s k ∧ s + 5 ≤ k) ∨ ∃ k, ClosesScript lines s k ∧ s + 6 ≤ k

/-- The header that opens on line `s` stands below a line that names an interpreter. -/
def BelowInterpreter (lines : List Bytes) (s : Nat) : Prop :=
  s = 2 ∧ ∃ top ∈ lines[0]?, utf8 "#!" <+: top

/-- What can close a header too early: a line with `*/`, or one without `#` below an interpreter
line. -/
def Disturbs (lines : List Bytes) (s : Nat) (line : Bytes) : Prop :=
  closer <:+: line ∨ BelowInterpreter lines s ∧ hash ∉ line

instance (lines : List Bytes) (s : Nat) : Decidable (OpensAt lines s) :=
  inferInstanceAs (Decidable (_ ∨ _))

instance (lines : List Bytes) (s : Nat) (line : Bytes) : Decidable (Disturbs lines s line) :=
  inferInstanceAs (Decidable (_ ∨ (_ ∧ _) ∧ _))

/-- A line that starts with `#` and opens no header names an interpreter. -/
theorem interpreter_iff (h : ¬Opening line) :
    startsWithHash line = true ↔ utf8 "#!" <+: line := by
  rw [startsWithHash_iff]
  constructor
  · intro hsign
    by_contra hplain
    exact h (.inr ⟨hsign, hplain⟩)
  · exact (List.prefix_append (utf8 "#") (utf8 "!")).trans

/-- In a header of `#` lines that is long enough, the four lines below the first have that sign. -/
theorem SixLines.hash_mem (h : SixLines lines s) (hscript : ∃ top ∈ lines[s - 1]?, utf8 "#" <+: top)
    {j : Nat} (hs : s < j) (hj : j < s + 5) (hline : lines[j - 1]? = some line) : hash ∈ line := by
  rcases h with ⟨k, ⟨⟨top, htop, hcomment⟩, -⟩, -⟩ | ⟨k, ⟨-, -, -, hsigns⟩, hk⟩
  · obtain ⟨top', htop', hsign⟩ := hscript
    obtain rfl : top = top' := Option.some.inj (htop.symm.trans htop')
    -- A line does not start both ways.
    have heq := List.prefix_of_prefix_length_le hsign hcomment (by decide)
    exact absurd heq (by decide)
  · exact hsigns j (by omega) hs line hline

/-- Which of the four lines below the first line of a long header close it, when `script` says whether
that line or the one above it starts with `#`. -/
theorem SixLines.closes_iff (h : SixLines lines s) {script : Bool}
    (hscript : script = true ↔
      BelowInterpreter lines s ∨ ∃ top ∈ lines[s - 1]?, utf8 "#" <+: top)
    {j : Nat} (hs : s < j) (hj : j < s + 5) (hline : lines[j - 1]? = some line) :
    closes ⟨s, script⟩ line = true ↔ Disturbs lines s line := by
  rw [closes, Bool.or_eq_true, occursIn_iff, Bool.and_eq_true, Bool.not_eq_true', hscript, Disturbs]
  refine or_congr_right ?_
  have hmem : line.contains hash = false ↔ hash ∉ line := by simp
  rw [hmem]
  refine and_congr_left fun habsent => or_iff_left fun hsign => ?_
  exact habsent (h.hash_mem hsign hs hj hline)

/-- The lines from the third one on go on with a header that names its file, if none of them is a line
that closes it too early. -/
theorem goesOn_iff (h : SixLines (first :: second :: rest) s) (hs : s ∈ [1, 2]) {script : Bool}
    (hscript : script = true ↔ BelowInterpreter (first :: second :: rest) s ∨
      ∃ top ∈ (first :: second :: rest)[s - 1]?, utf8 "#" <+: top)
    (hname : s = 2 → ∀ line ∈ rest.head?, name <:+: line) :
    GoesOn name ⟨s, script⟩ rest ↔ ∀ j line, 3 ≤ j → s < j → j < s + 5 →
      (first :: second :: rest)[j - 1]? = some line → ¬Disturbs (first :: second :: rest) s line := by
  have hrest (i : Nat) : (first :: second :: rest)[i + 3 - 1]? = rest[i]? := by simp
  constructor
  · rintro ⟨-, hfar⟩ j line hj habove hbelow hline hdisturbs
    obtain ⟨i, rfl⟩ := Nat.exists_eq_add_of_le' hj
    have hclosed := (h.closes_iff hscript habove hbelow hline).mpr hdisturbs
    have : s + 5 ≤ 3 + i := hfar i line (by rwa [hrest] at hline) hclosed
    omega
  · intro hkept
    refine ⟨hname, fun i line hline hclosed => ?_⟩
    by_contra hnear
    have hs' : s ≤ 2 := by
      rcases List.mem_pair.mp hs with rfl | rfl <;> decide
    have hbelow : i + 3 < s + 5 := by
      simp only at hnear
      omega
    rw [← hrest] at hline
    exact hkept (i + 3) line (by omega) (by omega) hbelow hline
      ((h.closes_iff hscript (by omega) hbelow hline).mp hclosed)

/-- A file with a header that names it and is long enough passes, if none of the four lines below the
first line of the header disturbs it. -/
theorem passes_iff (hopens : OpensAt lines s) (hname : ∃ line ∈ lines[s]?, name <:+: line)
    (hlong : SixLines lines s) :
    Passes name lines ↔
      ∀ j line, s < j → j < s + 5 → lines[j - 1]? = some line → ¬Disturbs lines s line := by
  obtain ⟨named, hnamed, hname⟩ := hname
  rcases lines with _ | ⟨first, _ | ⟨second, rest⟩⟩
  · simp at hnamed
  · rcases hopens with ⟨rfl, -⟩ | ⟨rfl, -⟩ <;> simp at hnamed
  rcases hopens with ⟨rfl, hfirst⟩ | ⟨rfl, hfirst, hsecond⟩
  · replace hfirst : Opening first := by simpa using hfirst
    obtain rfl : second = named := by simpa using hnamed
    have hscript : startsWithHash first = true ↔ BelowInterpreter (first :: second :: rest) 1 ∨
        ∃ top ∈ (first :: second :: rest)[1 - 1]?, utf8 "#" <+: top := by
      simp [BelowInterpreter, startsWithHash_iff]
    rw [Passes, goesOn_iff hlong (by simp) hscript (by simp)]
    simp only [hfirst, hname, not_true_eq_false, true_and, false_and, or_false]
    have hdisturbs : Disturbs (first :: second :: rest) 1 second ↔ closer <:+: second := by
      simp [Disturbs, BelowInterpreter]
    constructor
    · rintro ⟨hopen, hkept⟩ j line hj hbelow hline
      by_cases htwo : j = 2
      · subst htwo
        obtain rfl : second = line := by simpa using hline
        exact hdisturbs.not.mpr hopen
      · exact hkept j line (by omega) hj hbelow hline
    · intro hkept
      exact ⟨hdisturbs.not.mp (hkept 2 second (by omega) (by omega) rfl),
        fun j line _ => hkept j line⟩
  · replace hfirst : ¬Opening first := by simpa using hfirst
    replace hsecond : Opening second := by simpa using hsecond
    have hscript : (startsWithHash first || startsWithHash second) = true ↔
        BelowInterpreter (first :: second :: rest) 2 ∨
          ∃ top ∈ (first :: second :: rest)[2 - 1]?, utf8 "#" <+: top := by
      rw [Bool.or_eq_true, interpreter_iff hfirst, startsWithHash_iff]
      simp [BelowInterpreter]
    have hthird : ∀ line ∈ rest.head?, name <:+: line := by
      intro line hline
      obtain rfl : named = line := by
        rw [List.head?_eq_getElem?] at hline
        exact Option.some.inj (hnamed.symm.trans hline)
      exact hname
    rw [Passes, goesOn_iff hlong (by simp) hscript fun _ => hthird]
    simp only [hfirst, ((opening_iff second).mp hsecond).1, not_false_eq_true, false_and, true_and,
      false_or]
    exact forall₂_congr fun j line => ⟨fun h hj => h hj hj, fun h _ hj => h hj⟩

/-- A run that is content has nothing to say and leaves the file as it is. -/
theorem run_eq_iff (ctx : Context) {tree : FileTree} {t u : Target} (hfile : t.kind = .file)
    (hload : t.load tree = .ok u) (hsize : u.lines.size < 2 ^ 63) :
    run ctx tree t = ⟨u, [], .done true⟩ ↔ (run ctx tree t).verdict = .done true := by
  refine ⟨fun h => by rw [h], fun hverdict => ?_⟩
  have hkept := (Target.load_of_load hfile hload).2.2.1
  have hscan := ofLines_reacting (reader t.name) {} id hsize
  simp only [run, Target.scan_of_load hfile hload, Option.getD_none, visitor_eq_reacting, hscan,
    hkept] at hverdict ⊢
  generalize pass id (reader t.name) false 1 {} [] u.lines.toList = out at hverdict ⊢
  obtain ⟨memory, flagged, ending⟩ := out
  cases ending with
  | finished =>
    cases flagged with
    | nil => rfl
    | cons n more => simp [Rule.report] at hverdict
  | failed e => simp [Rule.report] at hverdict
  | panicked value => simp [Rule.report] at hverdict
  | exhausted => simp [Rule.report] at hverdict

/-- On a file without directives, with a header on its first or second line that names the file on its
second line and is at least six lines long, the rule is content and says nothing exactly when none of
the four lines below the first line of the header has `*/` or, below an interpreter line, lacks `#`. -/
theorem accepts_proper_iff (ctx : Context) {tree : FileTree} {t u : Target} (hfile : t.kind = .file)
    (hload : t.load tree = .ok u) (hsize : u.lines.size < 2 ^ 63) (hlines : u.lines.toList = lines)
    (hplain : ∀ line ∈ lines, Plain line) (hopens : OpensAt lines s)
    (hname : ∃ line ∈ lines[s]?, t.name <:+: line) (hlong : SixLines lines s) :
    run ctx tree t = ⟨u, [], .done true⟩ ↔
      ∀ j line, s < j → j < s + 5 → lines[j - 1]? = some line → ¬Disturbs lines s line := by
  subst hlines
  rw [run_eq_iff ctx hfile hload hsize, run_eq_done_true_iff ctx hfile hload hsize hplain]
  exact passes_iff hopens hname hlong

/-- A header of `#` lines below an interpreter line, with `*/` on its sixth line. -/
theorem accepts_proper_script :
    let text := utf8 "#!/usr/bin/perl\n#\n# run.pl\n#\n#\n#\n# */\nprint 1;\n"
    let t := scriptFile text
    (OpensAt (Lines.split text) 2 ∧ ClosesScript (Lines.split text) 2 8) ∧
      run {} default t = ⟨t, [], .done true⟩ := by
  intro text t
  have hopens : OpensAt (Lines.split text) 2 := by decide +kernel
  have hcloses : ClosesScript (Lines.split text) 2 8 := by decide +kernel
  have hname : ∃ line ∈ (Lines.split text)[2]?, t.name <:+: line := by decide +kernel
  have hlines : t.lines.toList = Lines.split text := rfl
  refine ⟨⟨hopens, hcloses⟩, ?_⟩
  rw [accepts_proper_iff {} rfl rfl (by decide) hlines (by decide +kernel) hopens hname
    (.inr ⟨8, hcloses, by decide⟩)]
  have hlines : ∀ j < 7, 2 < j → ∀ line ∈ (Lines.split text)[j - 1]?,
      ¬Disturbs (Lines.split text) 2 line := by decide +kernel
  exact fun j line hj hbelow hline => hlines j hbelow hj line hline

/-- A text without directives that is not accepted, although its header opens on line `s`, names the
file, closes on line `k` and is six lines long. -/
def Refused (s k : Nat) (text : Bytes) : Prop :=
  let lines := Lines.split text
  (∀ line ∈ lines, Plain line) ∧ OpensAt lines s ∧ (∃ line ∈ lines[s]?, utf8 "run.pl" <:+: line) ∧
    (ClosesComment lines s k ∧ s + 5 ≤ k ∨ ClosesScript lines s k ∧ s + 6 ≤ k) ∧
      (run {} default (scriptFile text)).verdict = .done false

instance (s k : Nat) (text : Bytes) : Decidable (Refused s k text) :=
  inferInstanceAs (Decidable (_ ∧ _))

/-- The sign that ends a comment of the other style disturbs a header of `#` lines, and an interpreter
line above a header in the style of C has the rule look for `#` in it. -/
theorem proper_header_refused :
    Refused 1 7 (utf8 "#\n# run.pl */\n#\n#\n#\n#\nx\n") ∧
      Refused 1 7 (utf8 "#\n# run.pl\n# */\n#\n#\n#\nx\n") ∧
      Refused 2 7 (utf8 "#!/usr/bin/perl\n/*\n run.pl\n a\n b\n c\n*/\n") := by
  decide +kernel

end Linewise.Header
