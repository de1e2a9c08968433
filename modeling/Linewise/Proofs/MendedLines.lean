import Linewise.Proofs.LineSplitting
import Linewise.Rule.Whitespace

/-!
# Mended lines

A mended line has neither a blank at its end nor a tab, and it ends where the line ended before.
-/

namespace Linewise.Whitespace
open Bytes Lines

/-- Neither a blank at its end nor a tab. -/
def Clean (line : Bytes) : Prop := hasTrailing line = false ∧ hasTab line = false

/-- The text of a line before its terminator, mended. -/
def mend (width : Nat) (body : Bytes) : Bytes := expandTabs width (body.rdropWhile isBlank)

theorem hasTrailing_terminated (body : Bytes) :
    hasTrailing (body ++ [newline]) = body.getLast?.any isBlank := by
  simp [hasTrailing, splitTerminator]

theorem getLast?_ne_newline {body : Bytes} (h : newline ∉ body) : body.getLast? ≠ some newline :=
  fun hlast => h (List.mem_of_getLast? hlast)

theorem hasTrailing_open {body : Bytes} (h : body.getLast? ≠ some newline) :
    hasTrailing body = body.getLast?.any isBlank := by
  simp [hasTrailing, splitTerminator, h]

theorem rdropWhile_of_not_trailing {body : Bytes} (h : body.getLast?.any isBlank = false) :
    body.rdropWhile isBlank = body := by
  rw [List.rdropWhile_eq_self_iff]
  intro hne
  rw [List.getLast?_eq_some_getLast hne] at h
  simpa using h

@[simp] theorem expandTabs_append (width : Nat) (a b : Bytes) :
    expandTabs width (a ++ b) = expandTabs width a ++ expandTabs width b := by
  simp [expandTabs, replaceByte]

theorem expandTabs_tab_cons (width : Nat) (text : Bytes) :
    expandTabs width (tab :: text) = List.replicate width 32 ++ expandTabs width text := by
  simp [expandTabs, replaceByte]

theorem expandTabs_cons (width : Nat) {b : UInt8} (hb : b ≠ tab) (text : Bytes) :
    expandTabs width (b :: text) = b :: expandTabs width text := by
  simp [expandTabs, replaceByte, hb]

theorem expandTabs_newline (width : Nat) : expandTabs width [newline] = [newline] := rfl

theorem strip_terminated (body : Bytes) :
    strip (body ++ [newline]) = body.rdropWhile isBlank ++ [newline] := by
  simp [strip, splitTerminator, trimRight_eq_rdropWhile]

theorem strip_open {body : Bytes} (h : body.getLast? ≠ some newline) :
    strip body = body.rdropWhile isBlank := by
  simp [strip, splitTerminator, trimRight_eq_rdropWhile, h]

theorem strip_of_not_hasTrailing {line : Bytes} (h : hasTrailing line = false) :
    strip line = line := by
  by_cases hterminated : line.getLast? = some newline
  · obtain ⟨body, rfl⟩ := List.getLast?_eq_some_iff.mp hterminated
    rw [hasTrailing_terminated] at h
    rw [strip_terminated, rdropWhile_of_not_trailing h]
  · rw [hasTrailing_open hterminated] at h
    rw [strip_open hterminated, rdropWhile_of_not_trailing h]

/-- Stripping does no harm where there is nothing to strip. -/
theorem fixLine_eq (width : Nat) (line : Bytes) :
    fixLine width line = expandTabs width (strip line) := by
  cases ht : hasTrailing line with
  | true => rw [fixLine, if_pos ht]
  | false => rw [fixLine, ht, strip_of_not_hasTrailing ht, if_neg Bool.false_ne_true]

theorem fixLine_terminated (width : Nat) (body : Bytes) :
    fixLine width (body ++ [newline]) = mend width body ++ [newline] := by
  rw [fixLine_eq, strip_terminated, expandTabs_append, expandTabs_newline, mend]

theorem fixLine_open (width : Nat) {body : Bytes} (h : body.getLast? ≠ some newline) :
    fixLine width body = mend width body := by
  rw [fixLine_eq, strip_open h, mend]

theorem mem_expandTabs {width : Nat} {b : UInt8} {body : Bytes} (h : b ∈ expandTabs width body) :
    b ≠ tab ∧ (b ∈ body ∨ b = 32) := by
  simp only [expandTabs, replaceByte, List.mem_flatMap] at h
  obtain ⟨a, ha, hb⟩ := h
  by_cases hat : a = tab
  · obtain ⟨-, rfl⟩ : width ≠ 0 ∧ b = 32 := by simpa [hat] using hb
    exact ⟨by decide, Or.inr rfl⟩
  · obtain rfl : b = a := by simpa [hat] using hb
    exact ⟨hat, Or.inl ha⟩

theorem newline_not_mem_mend (width : Nat) {body : Bytes} (h : newline ∉ body) :
    newline ∉ mend width body := by
  intro hm
  rcases (mem_expandTabs hm).2 with hbody | h32
  · exact h ((List.rdropWhile_prefix isBlank body).subset hbody)
  · exact absurd h32 (by decide)

theorem hasTab_mend (width : Nat) (body tail : Bytes) (h : tab ∉ tail) :
    hasTab (mend width body ++ tail) = false := by
  simp only [hasTab, List.contains_eq_mem, decide_eq_false_iff_not, List.mem_append, not_or]
  exact ⟨fun hm => (mem_expandTabs hm).1 rfl, h⟩

/-- What is left of a text after its last byte that is no blank is expanded to nothing. -/
theorem getLast?_mend (width : Nat) (body : Bytes) :
    (mend width body).getLast?.any isBlank = false := by
  rcases List.eq_nil_or_concat (body.rdropWhile isBlank) with hnil | ⟨front, b, hb⟩
  · simp [mend, hnil, expandTabs, replaceByte]
  · have hblank : ¬isBlank b = true := by
      have hlast := List.rdropWhile_last_not isBlank body (by simp [hb])
      simpa [hb] using hlast
    have htab : b ≠ tab := by
      rintro rfl
      exact hblank (by decide)
    have hsingle : expandTabs width [b] = [b] := expandTabs_cons width htab []
    rw [mend, hb, List.concat_eq_append, expandTabs_append, hsingle]
    simpa using hblank

/-- A mended line is clean. -/
theorem clean_fixLine (width : Nat) {line : Bytes} (h : IsLine line) :
    Clean (fixLine width line) := by
  obtain ⟨body, hb, rfl | rfl⟩ := h
  · have htab := hasTab_mend width line [] (by simp)
    have hopen := getLast?_ne_newline (newline_not_mem_mend width hb)
    rw [fixLine_open width (getLast?_ne_newline hb)]
    exact ⟨by rw [hasTrailing_open hopen, getLast?_mend], by simpa using htab⟩
  · rw [fixLine_terminated]
    exact ⟨by rw [hasTrailing_terminated, getLast?_mend], hasTab_mend width body _ (by decide)⟩

theorem cut_fixLine (width : Nat) {old new : List Bytes} (h : Cut old)
    (hr : List.Forall₂ (fun old new => new = old ∨ new = fixLine width old) old new) : Cut new := by
  induction h generalizing new with
  | nil =>
    cases hr
    exact .nil
  | @last body hb =>
    obtain _ | ⟨hline, hnil⟩ := hr
    cases hnil
    rcases hline with rfl | rfl
    · exact .last hb
    · rw [fixLine_open width (getLast?_ne_newline hb)]
      exact .last (newline_not_mem_mend width hb)
  | @cons body rest hb _ ih =>
    obtain _ | ⟨hline, hrest⟩ := hr
    rcases hline with rfl | rfl
    · exact .cons hb (ih hrest)
    · rw [fixLine_terminated]
      exact .cons (newline_not_mem_mend width hb) (ih hrest)

end Linewise.Whitespace
