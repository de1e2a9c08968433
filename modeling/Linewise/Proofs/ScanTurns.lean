import Linewise.Proofs.CursorSuppression
import Linewise.Rule.Scan
import Mathlib

/-!
# The turns of a scan

A scan goes from line to line. In one turn it either passes over a line at which the rule is off or
shows the line to the visitor, and moves on. What holds at the beginning and is kept by every turn
holds where the scan ends.
-/

namespace Linewise.Cursor

variable {c : Cursor}

theorem target?_zero (hsize : c.lines.size < 2 ^ 63) (hin : c.atEnd = false) :
    c.target? 0 = some c.index := by
  have hlt : c.index < c.lines.size := by simpa [atEnd] using hin
  have hindex : (Int64.ofNat c.index + 0).toInt = c.index := by
    rw [Int64.add_zero, Int64.toInt_ofNat_of_lt (by omega)]
  have hrange : ((c.index : Int) < 0 || (c.index : Int) ≥ c.lines.size) = false := by
    simp only [Bool.or_eq_false_iff, decide_eq_false_iff_not]
    omega
  simp only [target?, hindex, hrange]
  rfl

theorem line_eq (hsize : c.lines.size < 2 ^ 63) (hin : c.atEnd = false) :
    c.lines[c.index]? = some c.line := by
  have hlt : c.index < c.lines.size := by simpa [atEnd] using hin
  simp [line, peek, target?_zero hsize hin, Array.getElem?_eq_getElem hlt]

theorem setLine_eq (hsize : c.lines.size < 2 ^ 63) (hin : c.atEnd = false) (text : Bytes) :
    (c.setLine text).1 =
      { c with lines := c.lines.setIfInBounds c.index text, states := c.states.take c.index } := by
  simp [setLine, setText, target?_zero hsize hin]

theorem setIfInBounds_line (hsize : c.lines.size < 2 ^ 63) (hin : c.atEnd = false) :
    c.lines.setIfInBounds c.index c.line = c.lines := by
  apply Array.ext_getElem?
  intro j
  rw [Array.getElem?_setIfInBounds]
  have hlt : c.index < c.lines.size := by simpa [atEnd] using hin
  split
  next hj => rw [← hj, line_eq hsize hin]
  next => rfl

end Linewise.Cursor

namespace Linewise.Scan
open Cursor Relation

variable {σ : Type}

/-- One turn of a scan, from memory and cursor to memory and cursor. -/
inductive Turn (visit : Visitor σ) : σ × Cursor → σ × Cursor → Prop where
  | skip {m : σ} {c c' : Cursor} (hin : c.atEnd = false) (hoff : c.suppressed = true)
      (hmove : c.advance 1 = (c', none)) : Turn visit (m, c) (m, c')
  | look {m m' : σ} {c d c' : Cursor} (hin : c.atEnd = false) (hon : c.suppressed = false)
      (hvisit : visit m c = (m', d, .next)) (hmove : d.advance 1 = (c', none)) :
      Turn visit (m, c) (m', c')

/-- How a scan ends at some memory and cursor. -/
inductive Ends (visit : Visitor σ) : σ × Cursor → Scan σ → Prop where
  | finished {m : σ} {c : Cursor} (hend : c.atEnd = true) : Ends visit (m, c) (stop m c .finished)
  | exhausted {m : σ} {c : Cursor} (hin : c.atEnd = false) :
      Ends visit (m, c) (stop m c .exhausted)
  | skipFailed {m : σ} {c c' : Cursor} {e : MalformedDirective} (hin : c.atEnd = false)
      (hoff : c.suppressed = true) (hmove : c.advance 1 = (c', some e)) :
      Ends visit (m, c) (stop m c' (.failed (.directive e)))
  | moveFailed {m m' : σ} {c d c' : Cursor} {e : MalformedDirective} (hin : c.atEnd = false)
      (hon : c.suppressed = false) (hvisit : visit m c = (m', d, .next))
      (hmove : d.advance 1 = (c', some e)) :
      Ends visit (m, c) (stop m' c' (.failed (.directive e)))
  | visitFailed {m m' : σ} {c d : Cursor} {e : RuleError} (hin : c.atEnd = false)
      (hon : c.suppressed = false) (hvisit : visit m c = (m', d, .fail e)) :
      Ends visit (m, c) (stop m' d (.failed e))
  | visitPanicked {m m' : σ} {c d : Cursor} {value : Bytes} (hin : c.atEnd = false)
      (hon : c.suppressed = false) (hvisit : visit m c = (m', d, .panic value)) :
      Ends visit (m, c) (stop m' d (.panicked value))

theorem advance_one_frame {c : Cursor} (hin : c.atEnd = false) :
    (c.advance 1).1.lines = c.lines ∧ (c.advance 1).1.index = c.index + 1 := by
  obtain ⟨off, states, hl⟩ := land_frame { c with index := c.index + 1 }
  rw [advance_one hin, hl]
  exact ⟨rfl, rfl⟩

theorem lines_advance_one (c : Cursor) : (c.advance 1).1.lines = c.lines := by
  by_cases hend : c.atEnd = true
  · rw [advance_one_of_atEnd hend]
  · exact (advance_one_frame (by simpa using hend)).1

/-- Looking for the next line to show takes turns that pass over lines, and ends at the end of the
text, at a line to show or at a malformed directive. -/
theorem seek_spec (visit : Visitor σ) (n : Nat) (m : σ) (c : Cursor)
    (hn : c.lines.size < n + c.index) :
    ∃ d, ReflTransGen (Turn visit) (m, c) (m, d) ∧ d.lines = c.lines ∧
      ((seek n c = (d, none) ∧ c.index ≤ d.index ∧ (d.atEnd = true ∨ d.suppressed = false)) ∨
        ∃ d' e, d.atEnd = false ∧ d.suppressed = true ∧ d.advance 1 = (d', some e) ∧
          seek n c = (d', some e)) := by
  induction n generalizing c with
  | zero =>
    have hend : c.atEnd = true := by simp only [atEnd, ge_iff_le, decide_eq_true_eq]; omega
    exact ⟨c, .refl, rfl, Or.inl ⟨rfl, Nat.le_refl _, Or.inl hend⟩⟩
  | succ n ih =>
    by_cases hstop : (c.atEnd || !c.suppressed) = true
    · exact ⟨c, .refl, rfl, Or.inl ⟨by simp [seek, hstop], Nat.le_refl _, by simpa using hstop⟩⟩
    · have hin : c.atEnd = false := by simp_all
      have hoff : c.suppressed = true := by simp_all
      obtain ⟨hlines, hindex⟩ := advance_one_frame hin
      cases ha : c.advance 1 with
      | mk c' error =>
        rw [ha] at hlines hindex
        simp only at hlines hindex
        cases error with
        | some e =>
          exact ⟨c, .refl, rfl, Or.inr ⟨c', e, hin, hoff, ha, by simp [seek, hin, hoff, ha]⟩⟩
        | none =>
          have hseek : seek (n + 1) c = seek n c' := by simp [seek, hin, hoff, ha]
          obtain ⟨d, hturns, hd, hcase⟩ := ih c' (by rw [hlines, hindex]; omega)
          refine ⟨d, .head (.skip hin hoff ha) hturns, hd.trans hlines, ?_⟩
          rw [hseek]
          rcases hcase with ⟨hs, hle, hwhere⟩ | herror
          · exact Or.inl ⟨hs, by omega, hwhere⟩
          · exact Or.inr herror

/-- A scan takes turns up to where it ends. -/
theorem drive_ends (visit : Visitor σ) (visits : Nat) (m : σ) (c : Cursor) :
    ∃ last, ReflTransGen (Turn visit) (m, c) last ∧ Ends visit last (drive visit visits m c) := by
  induction visits generalizing m c with
  | zero =>
    obtain ⟨d, hturns, -, ⟨hseek, -, hwhere⟩ | ⟨d', e, hin, hoff, hmove, hseek⟩⟩ :=
      seek_spec visit (c.lines.size + 1) m c (by omega)
    · refine ⟨(m, d), hturns, ?_⟩
      by_cases hend : d.atEnd = true
      · simpa [drive, hseek, hend] using Ends.finished hend
      · simpa [drive, hseek, hend] using Ends.exhausted (by simpa using hend)
    · refine ⟨(m, d), hturns, ?_⟩
      simpa [drive, hseek] using Ends.skipFailed hin hoff hmove
  | succ visits ih =>
    obtain ⟨d, hturns, -, ⟨hseek, -, hwhere⟩ | ⟨d', e, hin, hoff, hmove, hseek⟩⟩ :=
      seek_spec visit (c.lines.size + 1) m c (by omega)
    · by_cases hend : d.atEnd = true
      · exact ⟨(m, d), hturns, by simpa [drive, hseek, hend] using Ends.finished hend⟩
      · have hin : d.atEnd = false := by simpa using hend
        have hon : d.suppressed = false := hwhere.resolve_left hend
        cases hv : visit m d with
        | mk m' rest =>
          obtain ⟨d₁, request⟩ := rest
          cases request with
          | fail e =>
            exact ⟨(m, d), hturns,
              by simpa [drive, hseek, hin, hv] using Ends.visitFailed hin hon hv⟩
          | panic value =>
            exact ⟨(m, d), hturns,
              by simpa [drive, hseek, hin, hv] using Ends.visitPanicked hin hon hv⟩
          | next =>
            cases ha : d₁.advance 1 with
            | mk c' error =>
              cases error with
              | some e =>
                exact ⟨(m, d), hturns,
                  by simpa [drive, hseek, hin, hv, ha] using Ends.moveFailed hin hon hv ha⟩
              | none =>
                obtain ⟨last, hrest, hends⟩ := ih m' c'
                have hdrive : drive visit (visits + 1) m c = drive visit visits m' c' := by
                  rw [drive]
                  simp only [hseek, hin, hv, ha, Bool.false_eq_true, ↓reduceIte]
                rw [hdrive]
                exact ⟨last, (hturns.tail (.look hin hon hv ha)).trans hrest, hends⟩
    · exact ⟨(m, d), hturns, by simpa [drive, hseek] using Ends.skipFailed hin hoff hmove⟩

theorem turns_keep {visit : Visitor σ} {P : σ × Cursor → Prop}
    (hturn : ∀ a b, P a → Turn visit a b → P b) {a b : σ × Cursor} (h : P a)
    (hturns : ReflTransGen (Turn visit) a b) : P b := by
  induction hturns with
  | refl => exact h
  | tail _ hlast ih => exact hturn _ _ ih hlast

/-- The next line is below every line that is not below the cursor. -/
theorem lt_index_advance_one {c : Cursor} {i : Nat} (hi : i ≤ c.index) (hin : i < c.lines.size) :
    i < (c.advance 1).1.index := by
  by_cases hend : c.atEnd = true
  · have : c.lines.size ≤ c.index := by simpa [atEnd] using hend
    rw [advance_one_of_atEnd hend]
    simp only
    omega
  · rw [(advance_one_frame (by simpa using hend)).2]
    omega

/-- A visitor that never moves up is given enough visits. -/
theorem drive_not_exhausted {visit : Visitor σ} {P : σ × Cursor → Prop}
    (hturn : ∀ a b, P a → Turn visit a b → P b)
    (hdown : ∀ m c m' d, P (m, c) → c.atEnd = false → c.suppressed = false →
      visit m c = (m', d, .next) → d.lines.size = c.lines.size ∧ c.index ≤ d.index)
    (visits : Nat) (m : σ) (c : Cursor) (h : P (m, c)) (hn : c.lines.size ≤ visits + c.index) :
    (drive visit visits m c).ending ≠ .exhausted := by
  induction visits generalizing m c with
  | zero =>
    obtain ⟨d, -, hlines, ⟨hseek, hle, -⟩ | ⟨d', e, -, -, -, hseek⟩⟩ :=
      seek_spec visit (c.lines.size + 1) m c (by omega)
    · have hend : d.atEnd = true := by
        simp only [atEnd, ge_iff_le, decide_eq_true_eq, hlines]
        omega
      simp [drive, hseek, hend, stop]
    · simp [drive, hseek, stop]
  | succ visits ih =>
    obtain ⟨d, hturns, hlines, ⟨hseek, hle, hwhere⟩ | ⟨d', e, -, -, -, hseek⟩⟩ :=
      seek_spec visit (c.lines.size + 1) m c (by omega)
    · by_cases hend : d.atEnd = true
      · simp [drive, hseek, hend, stop]
      · have hin : d.atEnd = false := by simpa using hend
        have hon : d.suppressed = false := hwhere.resolve_left hend
        have hd : P (m, d) := turns_keep hturn h hturns
        cases hv : visit m d with
        | mk m' rest =>
          obtain ⟨d₁, request⟩ := rest
          cases request with
          | fail e => simp [drive, hseek, hin, hv, stop]
          | panic value => simp [drive, hseek, hin, hv, stop]
          | next =>
            obtain ⟨hsize, hindex⟩ := hdown m d m' d₁ hd hin hon hv
            have hlines' := lines_advance_one d₁
            have hindex' := lt_index_advance_one hindex (by simpa [atEnd, hsize] using hin)
            cases ha : d₁.advance 1 with
            | mk c' error =>
              rw [ha] at hlines' hindex'
              simp only at hlines' hindex'
              cases error with
              | some e => simp [drive, hseek, hin, hv, ha, stop]
              | none =>
                have hc' : P (m', c') := hturn _ _ hd (.look hin hon hv ha)
                have hdrive : drive visit (visits + 1) m c = drive visit visits m' c' := by
                  rw [drive]
                  simp only [hseek, hin, hv, ha, Bool.false_eq_true, ↓reduceIte]
                rw [hdrive]
                exact ih m' c' hc' (by rw [hlines', hsize, hlines]; omega)
    · simp [drive, hseek, stop]

/-- More visits than a scan has used make no difference to it. -/
theorem drive_add (visit : Visitor σ) (visits extra : Nat) (m : σ) (c : Cursor)
    (h : (drive visit visits m c).ending ≠ .exhausted) :
    drive visit (visits + extra) m c = drive visit visits m c := by
  induction visits generalizing m c with
  | zero =>
    cases hs : seek (c.lines.size + 1) c with
    | mk d error =>
      cases error with
      | some e => cases extra <;> simp [drive, hs]
      | none =>
        by_cases hend : d.atEnd = true
        · cases extra <;> simp [drive, hs, hend]
        · simp [drive, hs, hend, stop] at h
  | succ visits ih =>
    rw [Nat.add_right_comm]
    cases hs : seek (c.lines.size + 1) c with
    | mk d error =>
      cases error with
      | some e => simp [drive, hs]
      | none =>
        by_cases hend : d.atEnd = true
        · simp [drive, hs, hend]
        · cases hv : visit m d with
          | mk m' rest =>
            obtain ⟨d₁, request⟩ := rest
            cases request with
            | fail e => simp [drive, hs, hend, hv]
            | panic value => simp [drive, hs, hend, hv]
            | next =>
              cases ha : d₁.advance 1 with
              | mk c' error =>
                cases error with
                | some e => simp [drive, hs, hend, hv, ha]
                | none =>
                  have hdrive (n : Nat) : drive visit (n + 1) m c = drive visit n m' c' := by
                    rw [drive]
                    simp [hs, hend, hv, ha]
                  rw [hdrive] at h
                  rw [hdrive, hdrive]
                  exact ih m' c' h

/-- What every turn keeps holds at the end of a scan that comes to its end. -/
theorem kept_of_finished {visit : Visitor σ} {lines : Array Bytes} {rule : Bytes} {m : σ}
    {visits : Nat} {P : σ × Cursor → Prop} (hstart : ∀ c, Cursor.start lines rule = .ok c → P (m, c))
    (hturn : ∀ a b, P a → Turn visit a b → P b)
    (hfin : (ofLines visit visits m lines rule).ending = .finished) :
    ∃ c, P ((ofLines visit visits m lines rule).memory, c) ∧ c.atEnd = true ∧
      ofLines visit visits m lines rule =
        stop (ofLines visit visits m lines rule).memory c .finished := by
  unfold ofLines at hfin ⊢
  cases hs : Cursor.start lines rule with
  | error e => simp [hs] at hfin
  | ok c =>
    simp only [hs] at hfin ⊢
    obtain ⟨last, hturns, hends⟩ := drive_ends visit visits m c
    have hlast : P last := turns_keep hturn (hstart c hs) hturns
    generalize drive visit visits m c = s at hfin hends ⊢
    cases hends with
    | finished hend => exact ⟨_, hlast, hend, rfl⟩
    | exhausted | skipFailed | moveFailed | visitFailed | visitPanicked => simp [stop] at hfin

/-- A scan with as many visits as lines is enough for a visitor that never moves up. -/
theorem ofLines_not_exhausted {visit : Visitor σ} {lines : Array Bytes} {rule : Bytes} {m : σ}
    {P : σ × Cursor → Prop} (hstart : ∀ c, Cursor.start lines rule = .ok c → P (m, c))
    (hturn : ∀ a b, P a → Turn visit a b → P b)
    (hdown : ∀ m c m' d, P (m, c) → c.atEnd = false → c.suppressed = false →
      visit m c = (m', d, .next) → d.lines.size = c.lines.size ∧ c.index ≤ d.index) :
    (ofLines visit lines.size m lines rule).ending ≠ .exhausted := by
  unfold ofLines
  cases hs : Cursor.start lines rule with
  | error e => simp
  | ok c =>
    refine drive_not_exhausted hturn hdown _ m c (hstart c hs) ?_
    obtain ⟨off, states, rfl⟩ := start_frame hs
    exact Nat.le_refl _

/-- A visitor that always asks for the next line gives up at malformed directives only. -/
theorem ending_ofLines {visit : Visitor σ} (hnext : ∀ m c, (visit m c).2.2 = .next) (visits : Nat)
    (m : σ) (lines : Array Bytes) (rule : Bytes) :
    (ofLines visit visits m lines rule).ending = .finished ∨
      (ofLines visit visits m lines rule).ending = .exhausted ∨
        ∃ e, (ofLines visit visits m lines rule).ending = .failed (.directive e) := by
  unfold ofLines
  cases hs : Cursor.start lines rule with
  | error e => exact .inr (.inr ⟨e, rfl⟩)
  | ok c =>
    obtain ⟨last, -, hends⟩ := drive_ends visit visits m c
    have hvisited {m m' : σ} {c d : Cursor} {request : Visit} (hvisit : visit m c = (m', d, request)) :
        request = .next := by
      have hrequest := hnext m c
      rwa [hvisit] at hrequest
    change (drive visit visits m c).ending = _ ∨ (drive visit visits m c).ending = _ ∨
      ∃ e, (drive visit visits m c).ending = _
    generalize drive visit visits m c = s at hends ⊢
    cases hends with
    | finished => exact .inl rfl
    | exhausted => exact .inr (.inl rfl)
    | skipFailed | moveFailed => exact .inr (.inr ⟨_, rfl⟩)
    | visitFailed hin hon hvisit | visitPanicked hin hon hvisit => cases hvisited hvisit

/-- A scan whose visitor edits none of the lines that it is shown leaves the lines alone, however it
ends. -/
theorem lines_ofLines {visit : Visitor σ} {lines : Array Bytes} {rule : Bytes} {m : σ}
    {P : σ × Cursor → Prop} (hstart : ∀ c, Cursor.start lines rule = .ok c → P (m, c))
    (hturn : ∀ a b, P a → Turn visit a b → P b) (hlines : ∀ a, P a → a.2.lines = lines)
    (hlook : ∀ m c, P (m, c) → c.atEnd = false → c.suppressed = false →
      (visit m c).2.1.lines = c.lines) (visits : Nat) :
    (ofLines visit visits m lines rule).lines = lines := by
  unfold ofLines
  cases hs : Cursor.start lines rule with
  | error e => rfl
  | ok c =>
    change (drive visit visits m c).lines = lines
    obtain ⟨last, hturns, hends⟩ := drive_ends visit visits m c
    have hlast : P last := turns_keep hturn (hstart c hs) hturns
    have hshown {m m' : σ} {c d : Cursor} {request : Visit} (hc : P (m, c)) (hin : c.atEnd = false)
        (hon : c.suppressed = false) (hvisit : visit m c = (m', d, request)) : d.lines = lines := by
      have hsame := hlook m c hc hin hon
      rw [hvisit] at hsame
      exact hsame.trans (hlines _ hc)
    have hmoved {c c' : Cursor} {error : Option MalformedDirective} (hc : c.lines = lines)
        (hmove : c.advance 1 = (c', error)) : c'.lines = lines := by
      have hsame := lines_advance_one c
      rw [hmove] at hsame
      exact hsame.trans hc
    generalize drive visit visits m c = s at hends ⊢
    cases hends with
    | finished | exhausted => exact hlines _ hlast
    | skipFailed hin hoff hmove => exact hmoved (hlines _ hlast) hmove
    | moveFailed hin hon hvisit hmove => exact hmoved (hshown hlast hin hon hvisit) hmove
    | visitFailed hin hon hvisit | visitPanicked hin hon hvisit =>
      exact hshown hlast hin hon hvisit

end Linewise.Scan
