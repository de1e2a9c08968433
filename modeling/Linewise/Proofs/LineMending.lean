import Linewise.Proofs.MendedFiles
import Linewise.Proofs.RespacedDirectives

/-!
# Mending one line

What is mended is what is flagged: mending changes a line exactly when it ends in a blank or has a
tab, and then it does neither any more. Where tabs are at least two spaces wide and the line has no
vertical tab, its directives stay what they are: a tab is no single space, nor is what replaces it.
-/

namespace Linewise.Whitespace
open Bytes Lines Cursor Directive

/-! ## Flagging and mending -/

theorem fixLine_eq_self_iff (width : Nat) {line : Bytes} (h : IsLine line) :
    fixLine width line = line ↔ Clean line := by
  constructor
  · intro hsame
    rw [← hsame]
    exact clean_fixLine width h
  · exact fixLine_of_clean width

theorem not_clean_iff (line : Bytes) : ¬Clean line ↔ hasTrailing line = true ∨ tab ∈ line := by
  rw [Clean, not_and_or, Bool.not_eq_false, Bool.not_eq_false, hasTab_iff]

/-- A mended line is terminated when the line was. -/
theorem getLast?_fixLine_iff (width : Nat) {line : Bytes} (h : IsLine line) :
    (fixLine width line).getLast? = some newline ↔ line.getLast? = some newline := by
  obtain ⟨body, hbody, rfl | rfl⟩ := h
  · have hopen := getLast?_ne_newline hbody
    have hmended := getLast?_ne_newline (newline_not_mem_mend width hbody)
    rw [fixLine_open width hopen]
    exact iff_of_false hmended hopen
  · rw [fixLine_terminated]
    simp

/-- A visit that only looks notes nothing exactly at a clean line. -/
theorem checkVisitor_quiet_iff (found : Findings) (c : Cursor) :
    (checkVisitor found c).1 = found ↔ Clean c.line := by
  obtain ⟨trailing, tabs, log⟩ := found
  rw [checkVisitor_eq]
  cases ht : hasTrailing c.line <;> cases htab : hasTab c.line <;> simp [Clean, ht, htab]

/-- Flagging and mending agree on a line. Mending changes it exactly when it is flagged, a mended line
is flagged no more, mending it again changes nothing, and it is terminated as it was. A visit that
mends leaves the mended line behind, and one that only looks notes nothing exactly when that line is
the same. -/
theorem fixLine_mends_what_is_flagged (width : Nat) {line : Bytes} (hline : IsLine line) :
    (fixLine width line ≠ line ↔ hasTrailing line = true ∨ tab ∈ line) ∧
      (hasTrailing (fixLine width line) = false ∧ tab ∉ fixLine width line) ∧
      fixLine width (fixLine width line) = fixLine width line ∧
      ((fixLine width line).getLast? = some newline ↔ line.getLast? = some newline) ∧
      ∀ (path : Bytes) (found : Findings) (c : Cursor), c.lines.size < 2 ^ 63 → c.atEnd = false →
        c.line = line →
          (fixVisitor path width found c).2.1.lines =
              c.lines.setIfInBounds c.index (fixLine width line) ∧
            ((checkVisitor found c).1 = found ↔ fixLine width line = line) := by
  have hclean := clean_fixLine width hline
  refine ⟨?_, ⟨hclean.1, ((clean_iff _).mp hclean).1⟩, fixLine_of_clean width hclean,
    getLast?_fixLine_iff width hline, ?_⟩
  · rw [Ne, fixLine_eq_self_iff width hline, not_clean_iff]
  · rintro path found c hsize hin rfl
    obtain ⟨-, -, hlines⟩ := fixVisitor_frame path width found hsize hin
    exact ⟨hlines, by rw [checkVisitor_quiet_iff, fixLine_eq_self_iff width hline]⟩

/-- A byte that is no character by itself stays between a tab and the blanks at the end. -/
theorem fixLine_mends_what_is_flagged_latin :
    let line := utf8 "\ta" ++ [0x85, 9, 13, 10]
    let fixed := utf8 "   a" ++ [0x85, 10]
    let c : Cursor := { lines := #[line], rule := id }
    IsLine line ∧ c.atEnd = false ∧ c.line = line ∧ fixLine 3 line = fixed ∧ fixed ≠ line ∧
      hasTrailing fixed = false ∧ tab ∉ fixed ∧ fixLine 3 fixed = fixed ∧
      (fixVisitor [] 3 {} c).2.1.lines = #[fixed] ∧ (checkVisitor {} c).1 ≠ {} := by
  intro line fixed c
  have hline : IsLine line := ⟨utf8 "\ta" ++ [0x85, 9, 13], by decide, .inr rfl⟩
  have hcursor : c.line = line := by decide
  have hfixed : fixLine 3 line = fixed := by decide
  obtain ⟨hchanged, ⟨htrailing, htab⟩, hagain, -, hvisit⟩ := fixLine_mends_what_is_flagged 3 hline
  have hsize : c.lines.size < 2 ^ 63 := by simp [c]
  have hin : c.atEnd = false := by decide
  obtain ⟨hlines, hnoted⟩ := hvisit [] {} c hsize hin hcursor
  rw [hfixed] at hchanged htrailing htab hagain hlines hnoted
  have hne := hchanged.mpr (.inr (by decide))
  exact ⟨hline, hin, hcursor, hfixed, hne, htrailing, htab, hagain, hlines, mt hnoted.mp hne⟩

/-! ## Directives on a mended line -/

theorem isGap_tab : IsGap [tab] := ⟨by decide, by simp [tab, endsId], by decide⟩

theorem isGap_spaces {width : Nat} (h : 2 ≤ width) : IsGap (List.replicate width 32) := by
  refine ⟨?_, fun b hb => ?_, fun hsingle => ?_⟩
  · simp only [ne_eq, List.replicate_eq_nil_iff]
    omega
  · rw [List.eq_of_mem_replicate hb]
    rfl
  · have hlength := congrArg List.length hsingle
    simp only [List.length_replicate, List.length_singleton] at hlength
    omega

/-- All blanks that are stripped end an id, but for vertical tabs. -/
theorem endsId_of_isBlank {b : UInt8} (h : isBlank b = true) (hb : b ≠ 11) : endsId b = true := by
  simp only [isBlank, endsId, Bool.or_eq_true, beq_iff_eq] at h ⊢
  tauto

theorem respaced_expandTabs {width : Nat} (hwidth : 2 ≤ width) (text : Bytes) {rest rest' : Bytes}
    (h : Respaced rest rest') : Respaced (text ++ rest) (expandTabs width text ++ rest') := by
  induction text with
  | nil => exact h
  | cons b text ih =>
    by_cases hb : b = tab
    · have hrespaced := Respaced.gap isGap_tab (isGap_spaces hwidth) ih
      rw [hb, expandTabs_tab_cons, List.append_assoc]
      exact hrespaced
    · rw [expandTabs_cons width hb]
      exact .byte b ih

theorem respaced_mend {width : Nat} (hwidth : 2 ≤ width) {body terminator : Bytes}
    (hbody : 11 ∉ body) (hend : ∀ b ∈ terminator, endsId b = true) :
    Respaced (body ++ terminator) (mend width body ++ terminator) := by
  have hsplit : body.rdropWhile isBlank ++ body.rtakeWhile isBlank = body :=
    List.rdropWhile_append_rtakeWhile
  have hblanks : ∀ b ∈ body.rtakeWhile isBlank ++ terminator, endsId b = true := by
    intro b hb
    rcases List.mem_append.mp hb with hstripped | hterminator
    · have hmem : b ∈ body := (List.rtakeWhile_suffix isBlank body).subset hstripped
      exact endsId_of_isBlank (List.mem_rtakeWhile_imp hstripped) (ne_of_mem_of_not_mem hmem hbody)
    · exact hend b hterminator
  have hrespaced := respaced_expandTabs hwidth (body.rdropWhile isBlank) (.ending hblanks hend)
  rwa [← List.append_assoc, hsplit] at hrespaced

/-- A mended line differs from the line in its blanks only. -/
theorem respaced_fixLine {width : Nat} (hwidth : 2 ≤ width) {line : Bytes} (hline : 11 ∉ line) :
    Respaced line (fixLine width line) := by
  by_cases hterminated : line.getLast? = some newline
  · obtain ⟨body, rfl⟩ := List.getLast?_eq_some_iff.mp hterminated
    have hbody : 11 ∉ body := fun hmem => hline (List.mem_append_left _ hmem)
    rw [fixLine_terminated]
    exact respaced_mend hwidth hbody (by simp [newline, endsId])
  · have hrespaced : Respaced (line ++ []) (mend width line ++ []) :=
      respaced_mend hwidth hline (by simp)
    rw [List.append_nil, List.append_nil] at hrespaced
    rwa [fixLine_open width hterminated]

/-- Mending a line, which is to strip it and to replace its tabs, leaves the directives on it alone, or
the first one without an id, when tabs are two spaces wide or more and the line has no vertical tab. -/
theorem fixLine_keeps_directives {width : Nat} (hwidth : 2 ≤ width) {line : Bytes}
    (hline : 11 ∉ line) (number : Int) :
    fixLine width line = expandTabs width (strip line) ∧
      parse (fixLine width line) number = parse line number :=
  ⟨fixLine_eq width line, ((respaced_fixLine hwidth hline).parse_eq number).symm⟩

/-- Tabs before, inside and behind directives: the first one is none, and the others are read as
before, up to one that has lost its id to a tab. -/
theorem fixLine_keeps_directives_tabbed :
    let line := utf8 "X11_FUZZ:\tenable a\tX11_FUZZ: disable b\t\u000c\r\n"
    let fixed := utf8 "X11_FUZZ:  enable a  X11_FUZZ: disable b\n"
    let bare := utf8 "X11_FUZZ: enable a\tX11_FUZZ: disable\tb\tX11_FUZZ: enable \t\n"
    let still := utf8 "X11_FUZZ: enable a  X11_FUZZ: disable  b  X11_FUZZ: enable\n"
    11 ∉ line ∧ fixLine 2 line = fixed ∧ parse fixed 1 = .ok [⟨false, utf8 "b"⟩] ∧
      11 ∉ bare ∧ fixLine 2 bare = still ∧
      parse still 7 = .error ⟨7, utf8 "X11_FUZZ: disable"⟩ := by
  intro line fixed bare still
  have hline : 11 ∉ line := by decide
  have hbare : 11 ∉ bare := by decide
  have hfixed : fixLine 2 line = fixed := by decide +kernel
  have hstill : fixLine 2 bare = still := by decide +kernel
  obtain ⟨-, hkept⟩ := fixLine_keeps_directives (Nat.le_refl 2) hline 1
  obtain ⟨-, hkept'⟩ := fixLine_keeps_directives (Nat.le_refl 2) hbare 7
  rw [hfixed] at hkept
  rw [hstill] at hkept'
  refine ⟨hline, hfixed, ?_, hbare, hstill, ?_⟩
  · rw [hkept]
    decide
  · rw [hkept']
    decide

end Linewise.Whitespace
