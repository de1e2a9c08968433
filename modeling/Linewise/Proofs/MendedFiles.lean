import Linewise.Proofs.WhitespaceReports

/-!
# What is left after mending

Every edit changes the text that decides whether the rule is on further down. Still, after a pass
that mends and comes to its end, a line is as it was only where the text that the pass leaves switches
the rule off; every other line has been mended.
-/

namespace Linewise.Whitespace
open Bytes Lines Cursor Directive Scan

/-- The blanks at the end of a line, before its line feed, are left out, and every tab of the rest
becomes spaces. -/
def Tidied (width : Nat) (old new : Bytes) : Prop :=
  ∃ text blanks terminator,
    old = text ++ blanks ++ terminator ∧ (∀ b ∈ blanks, b ∈ ([32, 9, 12, 13, 11] : Bytes)) ∧
      (∀ b ∈ text.getLast?, b ∉ ([32, 9, 12, 13, 11] : Bytes)) ∧
      (terminator = [newline] ∨ terminator = [] ∧ newline ∉ old) ∧
      new = text.flatMap (fun b => if b = tab then List.replicate width 32 else [b]) ++ terminator

/-- A mended line is the old one, tidied. -/
theorem tidied_fixLine (width : Nat) {line : Bytes} (h : IsLine line) :
    Tidied width line (fixLine width line) := by
  obtain ⟨body, hb, hline⟩ := h
  have hbody : body.rdropWhile isBlank ++ body.rtakeWhile isBlank = body :=
    List.rdropWhile_append_rtakeWhile
  have hblanks : ∀ b ∈ body.rtakeWhile isBlank, b ∈ ([32, 9, 12, 13, 11] : Bytes) :=
    fun b hmem => (isBlank_iff b).mp (List.mem_rtakeWhile_imp hmem)
  have hlast : ∀ b ∈ (body.rdropWhile isBlank).getLast?, b ∉ ([32, 9, 12, 13, 11] : Bytes) := by
    intro b hmem hblank
    obtain ⟨hne, rfl⟩ := List.mem_getLast?_eq_getLast hmem
    exact List.rdropWhile_last_not isBlank body hne ((isBlank_iff _).mpr hblank)
  have hmend : mend width body = (body.rdropWhile isBlank).flatMap
      (fun b => if b = tab then List.replicate width 32 else [b]) := by
    simp [mend, expandTabs, replaceByte]
  rcases hline with rfl | rfl
  · exact ⟨_, _, [], by simp [hbody], hblanks, hlast, .inr ⟨rfl, hb⟩,
      by rw [fixLine_open width (getLast?_ne_newline hb), hmend, List.append_nil]⟩
  · exact ⟨_, _, [newline], by rw [hbody], hblanks, hlast, .inl rfl,
      by rw [fixLine_terminated, hmend]⟩

theorem clean_iff (line : Bytes) : Clean line ↔ tab ∉ line ∧ ¬EndsInBlank line := by
  rw [← hasTab_iff, ← hasTrailing_iff, Bool.not_eq_true, Bool.not_eq_true]
  exact And.comm

theorem fixLine_of_clean (width : Nat) {line : Bytes} (h : Clean line) : fixLine width line = line := by
  simp [fixLine, h.1, expandTabs_of_not_hasTab width h.2]

theorem findings_fixVisitor (path : Bytes) (width : Nat) (found : Findings) (c : Cursor) :
    (fixVisitor path width found c).1.trailing = found.trailing ∧
      (fixVisitor path width found c).1.tabs = found.tabs := by
  simp only [fixVisitor]
  split <;> split <;> exact ⟨rfl, rfl⟩

/-- A scan that mends and comes to its end has found nothing to report. -/
theorem findings_of_finished {path : Bytes} {width visits : Nat} {lines : Array Bytes}
    (hfin : (ofLines (fixVisitor path width) visits {} lines id).ending = .finished) :
    (ofLines (fixVisitor path width) visits {} lines id).memory.trailing = [] ∧
      (ofLines (fixVisitor path width) visits {} lines id).memory.tabs = [] := by
  have hturn : ∀ a b : Findings × Cursor, a.1.trailing = [] ∧ a.1.tabs = [] →
      Turn (fixVisitor path width) a b → b.1.trailing = [] ∧ b.1.tabs = [] := by
    rintro _ _ ha (⟨hin, hoff, hmove⟩ | @⟨m, m', c, d, c', hin, hon, hvisit, hmove⟩)
    · exact ha
    · obtain ⟨htrailing, htabs⟩ := findings_fixVisitor path width m c
      rw [hvisit] at htrailing htabs
      exact ⟨htrailing.trans ha.1, htabs.trans ha.2⟩
  obtain ⟨c, hnone, -⟩ := kept_of_finished
    (P := fun a : Findings × Cursor => a.1.trailing = [] ∧ a.1.tabs = [])
    (fun _ _ => ⟨rfl, rfl⟩) hturn hfin
  exact hnone

/-- A line behind which a pass has come: as it was and off there, or tidied. -/
theorem Mending.left {width : Nat} {initial : Array Bytes} {c : Cursor} (h : Mending width initial c)
    (hall : ∀ line ∈ initial.toList, IsLine line) {i : Nat} {old new : Bytes} (hi : i < c.index)
    (hold : initial[i]? = some old) (hnew : c.lines[i]? = some new) :
    new = old ∧ offAfter id (c.lines.toList.take (i + 1)) = .ok true ∨
      Tidied width old new ∧ Clean new := by
  have hline : IsLine old := hall old (by simpa using Array.mem_of_getElem? hold)
  rcases h.lines_eq i with hsame | ⟨-, hfixed⟩
  · obtain rfl : new = old := Option.some.inj (hnew.symm.trans (hsame.trans hold))
    rcases h.settled i new hi hnew with hoff | hclean
    · exact .inl ⟨rfl, hoff⟩
    · have htidied := tidied_fixLine width hline
      rw [fixLine_of_clean width hclean] at htidied
      exact .inr ⟨htidied, hclean⟩
  · obtain rfl : new = fixLine width old := by simpa [hnew, hold] using hfixed
    exact .inr ⟨tidied_fixLine width hline, clean_fixLine width hline⟩

/-- After a pass that mends and meets no error no violation remains. There are as many lines as
before, and each of them is tidied, or it is as it was and the last directive for the rule down to
there, in the text as the pass leaves it, switches the rule off. -/
theorem fix_leaves_no_violation {flag : Int} {settings : Settings} {tree : FileTree} {t u : Target}
    {data : Bytes} {width : Nat} (hfile : t.kind = .file) (hload : t.load tree = .ok u)
    (hlines : u.lines = (split data).toArray) (hsize : data.length < 2 ^ 63)
    (hwidth : tabWidth flag settings = width)
    (hok : ∃ clean, (run flag ⟨true, settings⟩ tree t).verdict = .done clean) :
    let out := run flag ⟨true, settings⟩ tree t
    let final := out.target.lines.toList
    out.verdict = .done true ∧ final.length = (split data).length ∧
      ∀ (i : Nat) (old new : Bytes), (split data)[i]? = some old → final[i]? = some new →
        (new = old ∧ ∃ ds d, readLines 1 (final.take (i + 1)) = .ok ds ∧
            lastFor? id ds = some d ∧ d.enable = false) ∨
          Tidied width old new ∧ tab ∉ new ∧ ¬EndsInBlank new := by
  intro out final
  have hall : ∀ line ∈ u.lines.toList, IsLine line := fun line hline =>
    isLine_of_cut (cut_split data) (by simpa [hlines] using hline)
  have hcount : u.lines.size < 2 ^ 63 := by
    have := length_split_le data
    simp only [hlines, List.size_toArray]
    omega
  let s := ofLines (fixVisitor t.path width) u.lines.size {} u.lines id
  obtain ⟨clean, hdone⟩ := hok
  have hout : run flag ⟨true, settings⟩ tree t = conclude (u.setLines s.lines) s := by
    simp [s, run_of_fits _ (fits_of_done _ hdone), Target.scan_of_load hfile hload, visitor, hwidth]
  have hfin : s.ending = .finished := finished_of_conclude (hout ▸ hdone)
  obtain ⟨htrailing, htabs⟩ := findings_of_finished hfin
  obtain ⟨c, hc, hend, hleft⟩ := mending_of_finished hall hcount hfin
  have hfinal : final = c.lines.toList := by
    simp only [final, out, hout, target_conclude, Target.lines_setLines]
    exact congrArg Array.toList hleft
  have hindex : c.lines.size ≤ c.index := by simpa [atEnd] using hend
  refine ⟨by simp [out, hout, s, conclude, hfin, htrailing, htabs], ?_, fun i old new hold hnew => ?_⟩
  · rw [hfinal, Array.length_toList, hc.size_eq, hlines, List.size_toArray]
  · rw [hfinal] at hnew ⊢
    have hi : i < c.lines.size := by simpa using (List.getElem?_eq_some_iff.mp hnew).1
    rcases hc.left hall (Nat.lt_of_lt_of_le hi hindex) (by simpa [hlines] using hold)
      (by simpa using hnew) with ⟨hsame, hoff⟩ | ⟨htidied, hclean⟩
    · obtain ⟨ds, hread, hiff⟩ := readLines_of_offAfter hoff
      obtain ⟨d, hd, hdisable⟩ := hiff.mp rfl
      exact .inl ⟨hsame, ds, d, hread, hd, hdisable⟩
    · exact .inr ⟨htidied, (clean_iff new).mp hclean⟩

/-- Mending the second line makes it a directive that switches the rule off for the third one. -/
theorem fix_leaves_no_violation_windowed :
    let data := utf8 "a \t\r\nX11_FUZZ:\tdisable check_whitespace\nb\t \n" ++
      utf8 "X11_FUZZ: enable check_whitespace\n\tc\td \n"
    let lines := (split data).toArray
    let t : Target := ⟨utf8 "f", utf8 "/f", .file, some ⟨lines, lines⟩⟩
    let out := run 1 ⟨true, []⟩ default t
    out.verdict = .done true ∧
      out.target.lines = #[utf8 "a\n", utf8 "X11_FUZZ: disable check_whitespace\n", utf8 "b\t \n",
        utf8 "X11_FUZZ: enable check_whitespace\n", utf8 " c d\n"] ∧
      Tidied 1 (utf8 "\tc\td \n") (utf8 " c d\n") := by
  intro data lines t out
  have hdone : out.verdict = .done true := by decide +kernel
  have hlines : out.target.lines = #[utf8 "a\n", utf8 "X11_FUZZ: disable check_whitespace\n",
      utf8 "b\t \n", utf8 "X11_FUZZ: enable check_whitespace\n", utf8 " c d\n"] := by
    decide +kernel
  have hload : t.load default = .ok t := rfl
  have hcontent : t.lines = (split data).toArray := rfl
  have hwidth : tabWidth 1 [] = (1 : Nat) := by decide
  obtain ⟨-, -, hleft⟩ :=
    fix_leaves_no_violation rfl hload hcontent (by decide) hwidth ⟨true, hdone⟩
  refine ⟨hdone, hlines, ?_⟩
  rcases hleft 4 (utf8 "\tc\td \n") (utf8 " c d\n") (by decide) (by rw [hlines]; rfl) with
    ⟨hsame, -⟩ | ⟨htidied, -⟩
  · exact absurd hsame (by decide)
  · exact htidied

end Linewise.Whitespace
