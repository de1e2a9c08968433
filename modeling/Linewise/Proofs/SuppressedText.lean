import Linewise.Proofs.FixingWalk
import Linewise.Proofs.PairedScans
import Linewise.Proofs.TargetHistories
import Linewise.Rule.Header
import Linewise.Rule.LinePattern

/-!
# Text that a rule is not shown

The rules for patterns, for blanks and tabs and for headers look at nothing but the lines they are
shown, so that text at which a directive has switched them off has no influence on what they say and
do.
-/

namespace Linewise

namespace Scan
open Cursor Directive

variable {σ : Type}

section Visitors

variable {c c' : Cursor}

/-- Two cursors that were marked alike, on their lines or at the end. -/
structure Marked (c c' d d' : Cursor) : Prop where
  eq : d = { c with flagged := d.flagged, index := d.index }
  eq' : d' = { c' with flagged := d.flagged, index := d.index }
  index : d.index = c.index ∨ d.index = c.lines.size

namespace Marked

variable {d d' e e' : Cursor}

theorem refl (hindex : c'.index = c.index) (hflagged : c'.flagged = c.flagged) : Marked c c' c c' :=
  ⟨rfl, by rw [← hindex, ← hflagged], .inl rfl⟩

theorem markLine (h : Marked c c' d d') (n : Int) : Marked c c' (d.markLine n) (d'.markLine n) := by
  obtain ⟨heq, heq', hindex⟩ := h
  refine ⟨?_, ?_, hindex⟩
  · rw [heq]
    rfl
  · rw [heq']
    rfl

theorem mark (h : Marked c c' d d') : Marked c c' d.mark d'.mark := by
  have hnumber : d'.lineNumber = d.lineNumber := by
    rw [h.eq']
    rfl
  rw [Cursor.mark, Cursor.mark, hnumber]
  exact h.markLine _

theorem skipToEnd (h : Marked c c' d d') (hlength : c'.lines.size = c.lines.size) :
    Marked c c' d.skipToEnd d'.skipToEnd := by
  obtain ⟨heq, heq', hindex⟩ := h
  rw [Cursor.skipToEnd, Cursor.skipToEnd]
  refine ⟨?_, ?_, .inr ?_⟩
  · rw [heq]
  · rw [heq', heq, hlength]
  · rw [heq]

theorem ite (h : Marked c c' d d') (he : Marked c c' e e') (p : Prop) [Decidable p] :
    Marked c c' (if p then d else e) (if p then d' else e') := by
  by_cases hp : p
  · rwa [if_pos hp, if_pos hp]
  · rwa [if_neg hp, if_neg hp]

end Marked

/-- A visit that only marks is the same for both. -/
theorem Marked.sameVisit {d d' : Cursor} (h : Marked c c' d d') (hcons : Consistent c)
    (hcons' : Consistent c') (hsize : c.lines.size < 2 ^ 63)
    (hlength : c'.lines.size = c.lines.size) (hin : c.atEnd = false) (hindex : c'.index = c.index)
    (hline : c'.line = c.line) (m : σ) (request : Visit) :
    SameVisit c c' (m, d, request) (m, d', request) := by
  obtain ⟨heq, heq', hi⟩ := h
  have hle : d.index ≤ c.lines.size := by
    rcases hi with hi | hi
    · rw [hi]
      exact hcons.index_le
    · rw [hi]
  have hself := setIfInBounds_line hsize hin
  have hself' := setIfInBounds_line (c := c') (by rwa [hlength])
    (by rw [atEnd, hlength, hindex]; exact hin)
  rw [hline, hindex] at hself'
  refine ⟨rfl, rfl, ?_, ⟨c.line, ?_, ?_⟩, ?_, hi, ?_, ?_, ?_, ?_⟩
  · rw [heq']
  · rw [heq]
    exact hself.symm
  · rw [heq']
    exact hself'.symm
  · rw [heq']
  · rw [heq]
  · rw [heq']
  · rw [heq]
    exact ⟨hle, hcons.size_le, hcons.state_eq⟩
  · rw [heq']
    exact ⟨hlength.symm ▸ hle, hcons'.size_le, hcons'.state_eq⟩

theorem discreet_linePattern (p : Pattern) : Discreet (LinePattern.visitor p) := by
  intro m c c' hcons hcons' hsize hlength hin hindex hflagged hline
  have hfirst : Marked c c' c c' := .refl hindex hflagged
  simp only [LinePattern.visitor, hline]
  exact (hfirst.mark.ite hfirst _).sameVisit hcons hcons' hsize hlength hin hindex hline () .next

theorem discreet_check : Discreet Whitespace.checkVisitor := by
  intro found c c' hcons hcons' hsize hlength hin hindex hflagged hline
  have hfirst : Marked c c' c c' := .refl hindex hflagged
  simp only [Whitespace.checkVisitor, hline, lineNumber, hindex]
  exact hfirst.sameVisit hcons hcons' hsize hlength hin hindex hline _ .next

theorem discreet_header (name : Bytes) : Discreet (Header.visitor name) := by
  intro progress c c' hcons hcons' hsize hlength hin hindex hflagged hline
  have hfirst : Marked c c' c c' := .refl hindex hflagged
  have hnumber : c'.lineNumber = c.lineNumber := by rw [lineNumber, lineNumber, hindex]
  have hsame {d d' : Cursor} (h : Marked c c' d d') (m : Header.Progress) :
      SameVisit c c' (m, d, .next) (m, d', .next) :=
    h.sameVisit hcons hcons' hsize hlength hin hindex hline m .next
  simp only [Header.visitor, hline, hnumber]
  split
  · exact hsame hfirst _
  split
  · split
    · exact hsame hfirst _
    · exact hsame ((hfirst.markLine 1).skipToEnd hlength) _
  split
  · have hclosed := hfirst.mark.ite hfirst (Bytes.occursIn Header.closer c.line)
    exact hsame (hclosed.ite hclosed.mark _) _
  split
  · have hnamed := hfirst.mark.ite hfirst
      (c.lineNumber == 3 && progress.start == 2 && !Bytes.occursIn name c.line)
    split
    · exact hsame ((hnamed.mark.ite hnamed _).skipToEnd hlength) _
    · exact hsame hnamed _
  · exact hsame hfirst _

theorem setLine_frame (c : Cursor) (text : Bytes) :
    (c.setLine text).1.flagged = c.flagged ∧ (c.setLine text).1.lineNumber = c.lineNumber := by
  unfold setLine setText
  cases c.target? 0 with
  | none => exact ⟨rfl, rfl⟩
  | some i => exact ⟨rfl, rfl⟩

theorem flagged_fixVisitor (path : Bytes) (width : Nat) (found : Whitespace.Findings) (c : Cursor) :
    (Whitespace.fixVisitor path width found c).2.1.flagged = c.flagged := by
  rw [Whitespace.fixVisitor_cursor]
  split
  · split
    · rw [(setLine_frame _ _).1, (setLine_frame _ _).1]
    · exact (setLine_frame _ _).1
  · split
    · exact (setLine_frame _ _).1
    · rfl

theorem discreet_fix (path : Bytes) (width : Nat) :
    Discreet (Whitespace.fixVisitor path width) := by
  intro found c c' hcons hcons' hsize hlength hin hindex hflagged hline
  have hsize' : c'.lines.size < 2 ^ 63 := by rwa [hlength]
  have hin' : c'.atEnd = false := by
    rw [atEnd, hlength, hindex]
    exact hin
  obtain ⟨hd, hrule, hi, hlines⟩ := Whitespace.fixVisitor_spec path width found hsize hin hcons
  obtain ⟨hd', hrule', hi', hlines'⟩ :=
    Whitespace.fixVisitor_spec path width found hsize' hin' hcons'
  rw [hline, hindex] at hlines'
  have hnumber : c'.lineNumber = c.lineNumber := by rw [lineNumber, lineNumber, hindex]
  refine ⟨?_, ?_, ?_, ⟨_, hlines, hlines'⟩, ?_, .inl hi, hrule, hrule', hd, hd'⟩
  · cases ht : Whitespace.hasTrailing c.line with
    | true =>
      cases htab : Whitespace.hasTab (Whitespace.strip c.line) <;>
        simp [Whitespace.fixVisitor, hline, ht, htab, setLine_frame, hnumber]
    | false =>
      cases htab : Whitespace.hasTab c.line <;>
        simp [Whitespace.fixVisitor, hline, ht, htab, hnumber]
  · rw [Whitespace.request_fixVisitor, Whitespace.request_fixVisitor]
  · rw [flagged_fixVisitor, flagged_fixVisitor, hflagged]
  · rw [hi, hi', hindex]

end Visitors

end Scan

open Scan

/-- The rules that look at files line by line: those for a pattern, the one for blanks and tabs and
the one for headers. -/
inductive Rule.ByLine : Rule → Prop
  | pattern (id description message : Bytes) (p : Pattern) (extensions : List Bytes) :
      ByLine (LinePattern.rule id description message p extensions)
  | whitespace (flag : Int) : ByLine (Whitespace.rule flag)
  | header : ByLine Header.rule

section Targets

variable {σ : Type} {tree tree' : FileTree} {t t' u u' : Target} {rule : Bytes}

theorem Target.scan_same {visit : Visitor σ} (hvisit : Discreet visit) (m : σ)
    (hfile : t.kind = .file) (hfile' : t'.kind = .file) (hpath : t'.path = t.path)
    (hload : t.load tree = .ok u) (hload' : t'.load tree' = .ok u')
    (hagree : AgreeWhereOn rule u.lines u'.lines) (hsize : u.lines.size < 2 ^ 63) :
    ∃ d d' s s', t.scan tree rule visit m = (d, s) ∧ t'.scan tree' rule visit m = (d', s') ∧
      SameScan rule u.lines u'.lines s s' ∧ d'.path = d.path ∧
      d.load tree = .ok d ∧ d'.load tree' = .ok d' ∧
      Kept rule u.lines u'.lines d.lines d'.lines := by
  have hsame := ofLines_twins hvisit hagree hsize u.lines.size m
  refine ⟨_, _, _, _, scan_of_load hfile hload rule visit m none,
    scan_of_load hfile' hload' rule visit m none, ?_, ?_, load_setLines _ _ _, load_setLines _ _ _,
    ?_⟩
  · rw [hagree.size_eq]
    exact hsame
  · rw [path_setLines, path_setLines, path_load hload, path_load hload', hpath]
  · rw [lines_setLines, lines_setLines, hagree.size_eq]
    exact hsame.lines

theorem Rule.report_same {s s' : Scan σ} {L L' : Array Bytes} (h : SameScan rule L L' s s')
    (hpath : t'.path = t.path) (message : Bytes) :
    (Rule.report t' t'.path message [] s').verdict = (Rule.report t t.path message [] s).verdict ∧
      (Rule.report t' t'.path message [] s').log = (Rule.report t t.path message [] s).log := by
  rw [Rule.report, Rule.report, h.ending, h.flagged, hpath]
  cases s.ending with
  | finished => cases s.flagged <;> exact ⟨rfl, rfl⟩
  | failed | panicked | exhausted => exact ⟨rfl, rfl⟩

theorem Whitespace.conclude_same {s s' : Scan Findings} {L L' : Array Bytes}
    (h : SameScan rule L L' s s') (hpath : t'.path = t.path) :
    (conclude t' s').verdict = (conclude t s).verdict ∧
      (conclude t' s').log = (conclude t s).log := by
  rw [conclude, conclude, h.ending, h.memory, hpath]
  cases s.ending with
  | finished | failed | panicked | exhausted => exact ⟨rfl, rfl⟩

/-- Runs that are concluded from such scans are the same when their conclusions are. -/
theorem Target.run_same {visit : Visitor σ} (hvisit : Discreet visit) (m : σ)
    (finish : Target → Scan σ → Run) (htarget : ∀ d s, (finish d s).target = d)
    (hfinish : ∀ {d d' s s'}, SameScan rule u.lines u'.lines s s' → d'.path = d.path →
      (finish d' s').verdict = (finish d s).verdict ∧ (finish d' s').log = (finish d s).log)
    (hfile : t.kind = .file) (hfile' : t'.kind = .file) (hpath : t'.path = t.path)
    (hload : t.load tree = .ok u) (hload' : t'.load tree' = .ok u')
    (hagree : AgreeWhereOn rule u.lines u'.lines) (hsize : u.lines.size < 2 ^ 63) :
    let run := finish (t.scan tree rule visit m).1 (t.scan tree rule visit m).2
    let run' := finish (t'.scan tree' rule visit m).1 (t'.scan tree' rule visit m).2
    run'.verdict = run.verdict ∧ run'.log = run.log ∧
      ∃ w w', run.target.load tree = .ok w ∧ run'.target.load tree' = .ok w' ∧
        Kept rule u.lines u'.lines w.lines w'.lines := by
  intro run run'
  obtain ⟨d, d', s, s', hscan, hscan', hsame, hname, hd, hd', hkept⟩ :=
    Target.scan_same hvisit m hfile hfile' hpath hload hload' hagree hsize
  simp only [run, run', hscan, hscan', htarget]
  obtain ⟨hverdict, hlog⟩ := hfinish hsame hname
  exact ⟨hverdict, hlog, d, d', hd, hd', hkept⟩

/-- Text at which a rule is off has no influence on what the rule says or does elsewhere, and stays
as it is. The lines after a run are those that the target has then; a rule that broke down before it
has read the file leaves them in the file. -/
theorem Rule.ByLine.ignores_suppressed_text {r : Rule} (hr : r.ByLine) (ctx : Context)
    (hfile : t.kind = .file) (hfile' : t'.kind = .file) (hpath : t'.path = t.path)
    (hload : t.load tree = .ok u) (hload' : t'.load tree' = .ok u')
    (hagree : AgreeWhereOn r.id u.lines u'.lines) (hsize : u.lines.size < 2 ^ 63) :
    let run := r.run ctx tree t
    let run' := r.run ctx tree' t'
    run'.verdict = run.verdict ∧ run'.log = run.log ∧
      ∃ w w', run.target.load tree = .ok w ∧ run'.target.load tree' = .ok w' ∧
        Kept r.id u.lines u'.lines w.lines w'.lines := by
  cases hr with
  | pattern id description message p extensions =>
    exact Target.run_same (discreet_linePattern p) ()
      (fun d s => Rule.report d d.path message [] s)
      (fun d s => Rule.target_report d d.path message [] s)
      (fun hsame hname => report_same hsame hname message)
      hfile hfile' hpath hload hload' hagree hsize
  | whitespace flag =>
    have hvisit : Discreet (Whitespace.visitor flag ctx t.path) := by
      unfold Whitespace.visitor
      split
      · exact discreet_fix _ _
      · exact discreet_check
    by_cases hfits : Whitespace.Fits flag ctx.settings
    · simp only [Whitespace.rule, Whitespace.run_of_fits _ hfits, hpath]
      exact Target.run_same hvisit {} Whitespace.conclude Whitespace.target_conclude
        Whitespace.conclude_same hfile hfile' hpath hload hload' hagree hsize
    · simp only [Whitespace.rule, Whitespace.run_of_not_fits _ hfits]
      exact ⟨trivial, trivial, u, u', hload, hload', hagree.kept⟩
  | header =>
    have hname : t'.name = t.name := by rw [Target.name, hpath, Target.name]
    simp only [Header.rule, Header.run, hname]
    exact Target.run_same (discreet_header t.name) {}
      (fun d s => Rule.report d d.path Header.message [] s)
      (fun d s => Rule.target_report d d.path Header.message [] s)
      (fun hsame hname => report_same hsame hname Header.message)
      hfile hfile' hpath hload hload' hagree hsize

end Targets

theorem Scan.agreeWhereOn_of_check {rule : Bytes} {L L' : Array Bytes} (hsize : L'.size = L.size)
    (h : ∀ j < L.size,
      (Directive.parse (L[j]?.getD []) (j + 1 : Nat)).isOk = true ∧
      Directive.parse (L'[j]?.getD []) (j + 1 : Nat) =
        Directive.parse (L[j]?.getD []) (j + 1 : Nat) ∧
      (Directive.offAfter rule (L.toList.take (j + 1)) = .ok false → L'[j]? = L[j]?)) :
    AgreeWhereOn rule L L' := by
  refine ⟨hsize, fun j line line' hline hline' => ?_, fun j hon => ?_⟩
  · obtain ⟨hok, hsame, -⟩ := h j (Array.getElem?_eq_some_iff.mp hline).1
    rw [hline, Option.getD_some] at hok hsame
    rw [hline', Option.getD_some] at hsame
    cases hp : Directive.parse line (j + 1 : Nat) with
    | ok ds => exact ⟨ds, rfl, hsame.trans hp⟩
    | error e =>
      rw [hp] at hok
      cases hok
  · by_cases hj : j < L.size
    · exact (h j hj).2.2 hon
    · rw [Array.getElem?_eq_none (by omega), Array.getElem?_eq_none (by omega)]

/-- A text with a line of blanks at which the rule for them is off. -/
def windowed : Array Bytes :=
  #[utf8 "a \n", utf8 "X11_FUZZ: disable check_whitespace\n", utf8 "b \n",
    utf8 "X11_FUZZ: enable check_whitespace\t\n"]

/-- The text with other lines where the rule is off, the one that switches it off among them. -/
def rewindowed : Array Bytes :=
  #[utf8 "a \n", utf8 "\t// X11_FUZZ: disable check_whitespace \n", utf8 "\tcd\n",
    utf8 "X11_FUZZ: enable check_whitespace\t\n"]

/-- A file with some lines, read already. -/
def loadedFile (lines : Array Bytes) : Target := ⟨utf8 "f", utf8 "/f", .file, some ⟨lines, lines⟩⟩

theorem Rule.ByLine.ignores_suppressed_text_mending :
    let run := (Whitespace.rule 0).run ⟨true, []⟩ default (loadedFile windowed)
    let run' := (Whitespace.rule 0).run ⟨true, []⟩ default (loadedFile rewindowed)
    run.verdict = .done true ∧ run'.verdict = run.verdict ∧ run'.log = run.log ∧
      run.target.lines[3]? = some (utf8 "X11_FUZZ: enable check_whitespace\n") ∧
      run'.target.lines[3]? = run.target.lines[3]? ∧
      run'.target.lines[1]? = rewindowed[1]? ∧ run'.target.lines[2]? = rewindowed[2]? := by
  have hagree : AgreeWhereOn (Whitespace.rule 0).id windowed rewindowed :=
    agreeWhereOn_of_check (by decide +kernel) (by decide +kernel)
  have hload (lines : Array Bytes) : (loadedFile lines).load default = .ok (loadedFile lines) := rfl
  have hpath (lines : Array Bytes) : (loadedFile lines).path = utf8 "f" := rfl
  have hsame := Rule.ByLine.ignores_suppressed_text (.whitespace 0) ⟨true, []⟩
    (rfl : (loadedFile windowed).kind = .file) (rfl : (loadedFile rewindowed).kind = .file)
    ((hpath rewindowed).trans (hpath windowed).symm) (hload windowed) (hload rewindowed)
    hagree (by decide +kernel)
  have hmended : ((Whitespace.rule 0).run ⟨true, []⟩ default (loadedFile windowed)).verdict =
        .done true ∧
      ((Whitespace.rule 0).run ⟨true, []⟩ default (loadedFile windowed)).target.lines[3]? =
        some (utf8 "X11_FUZZ: enable check_whitespace\n") := by decide +kernel
  have hread (lines : Array Bytes) (h : ((Whitespace.rule 0).run ⟨true, []⟩ default
      (loadedFile lines)).target.content.isSome = true) :
      ((Whitespace.rule 0).run ⟨true, []⟩ default (loadedFile lines)).target.load default =
        .ok ((Whitespace.rule 0).run ⟨true, []⟩ default (loadedFile lines)).target := by
    obtain ⟨c, hc⟩ := Option.isSome_iff_exists.mp h
    exact Target.load_known hc default
  have hknown := hread windowed (by decide +kernel)
  have hknown' := hread rewindowed (by decide +kernel)
  generalize (Whitespace.rule 0).run ⟨true, []⟩ default (loadedFile windowed) = run
    at hsame hmended hknown ⊢
  generalize (Whitespace.rule 0).run ⟨true, []⟩ default (loadedFile rewindowed) = run'
    at hsame hknown' ⊢
  obtain ⟨hverdict, hlog, w, w', hw, hw', hkept⟩ := hsame
  obtain rfl := Except.ok.inj (hknown.symm.trans hw)
  obtain rfl := Except.ok.inj (hknown'.symm.trans hw')
  have hoff {j : Nat} (hj : Directive.offAfter (Whitespace.rule 0).id
      (windowed.toList.take (j + 1)) = .ok true) : run'.target.lines[j]? = rewindowed[j]? :=
    (hkept.off j hj).2
  have hon := hkept.on 3 (by decide +kernel)
  exact ⟨hmended.1, hverdict, hlog, hmended.2, hon, hoff (by decide +kernel),
    hoff (by decide +kernel)⟩

end Linewise
