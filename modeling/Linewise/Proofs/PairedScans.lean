import Linewise.Proofs.ScanTurns

/-!
# Scans side by side

Two scans of texts with the same directives that differ only on lines at which the rule is off go
hand in hand: they stand on lines of the same number, remember the same, mark the same and fail for
the same reason. A mended line can spoil a directive or make one, so the directives that the scans
go by are not those of the original texts. But a line is mended only while the rule is on, and
whatever becomes of it there can only switch the rule off; so no line comes to light that was off at
first.
-/

namespace Linewise

namespace Directive

/-- Directives that leave a rule off do so also when it was off before. -/
theorem apply_mono {rule : Bytes} {ds : List Directive} {off off' : Bool}
    (hle : off = true → off' = true) (h : apply rule off ds = true) :
    apply rule off' ds = true := by
  rw [apply_eq_lastFor?] at h ⊢
  cases hd : (lastFor? rule ds).map (!·.enable) with
  | none =>
    rw [hd] at h
    exact hle h
  | some last =>
    rw [hd] at h
    exact h

/-- What the lines down to one make of a rule is what this line makes of what those above it make of
the rule. -/
theorem offAfter_take_succ {rule : Bytes} {lines : Array Bytes} {k : Nat} {line : Bytes}
    {off : Bool} (hline : lines[k]? = some line)
    (h : offAfter rule (lines.toList.take k) = .ok off) :
    offAfter rule (lines.toList.take (k + 1)) = applyLine rule off line (k + 1 : Nat) := by
  have hlist : lines.toList[k]? = some line := by simpa using hline
  have hlt : k < lines.size := (Array.getElem?_eq_some_iff.mp hline).1
  have hlength : (lines.toList.take k).length = k := by
    simp only [List.length_take, Array.length_toList]
    omega
  rw [List.take_add_one, hlist, Option.toList_some, offAfter_concat h, hlength]

theorem offAfter_take_succ_of_error {rule : Bytes} {lines : List Bytes} {k : Nat}
    {e : MalformedDirective} (h : offAfter rule (lines.take k) = .error e) :
    offAfter rule (lines.take (k + 1)) = .error e := by
  rw [List.take_add_one]
  exact offAfter_append_of_error h _

end Directive

namespace Scan
open Cursor Directive

variable {σ : Type} {rule : Bytes} {L L' : Array Bytes}

/-- Two texts of as many lines, with the same directives on every line, that agree where the
directives leave the rule on. -/
structure AgreeWhereOn (rule : Bytes) (L L' : Array Bytes) : Prop where
  size_eq : L'.size = L.size
  directives : ∀ (j : Nat) line line', L[j]? = some line → L'[j]? = some line' →
    ∃ ds, parse line (j + 1 : Nat) = .ok ds ∧ parse line' (j + 1 : Nat) = .ok ds
  text : ∀ j, offAfter rule (L.toList.take (j + 1)) = .ok false → L'[j]? = L[j]?

theorem AgreeWhereOn.offAfter_take (h : AgreeWhereOn rule L L') (k : Nat) :
    ∃ off, offAfter rule (L.toList.take k) = .ok off := by
  induction k with
  | zero => exact ⟨false, rfl⟩
  | succ k ih =>
    obtain ⟨off, hoff⟩ := ih
    by_cases hk : k < L.size
    · have hline : L[k]? = some L[k] := Array.getElem?_eq_getElem hk
      obtain ⟨ds, hds, -⟩ := h.directives k L[k] _ hline
        (Array.getElem?_eq_getElem (by rw [h.size_eq]; exact hk))
      rw [offAfter_take_succ hline hoff, applyLine, hds]
      exact ⟨_, rfl⟩
    · have hlength : L.toList.length ≤ k := by simpa using hk
      rw [List.take_of_length_le (by omega)]
      rw [List.take_of_length_le hlength] at hoff
      exact ⟨off, hoff⟩

/-- What becomes of two such texts: a line at which the rule was off is as it was, and the other
lines are the same in both. -/
structure Kept (rule : Bytes) (L L' l l' : Array Bytes) : Prop where
  size_eq : l.size = L.size
  size_eq' : l'.size = L.size
  off : ∀ j, offAfter rule (L.toList.take (j + 1)) = .ok true → l[j]? = L[j]? ∧ l'[j]? = L'[j]?
  on : ∀ j, offAfter rule (L.toList.take (j + 1)) = .ok false → l'[j]? = l[j]?

theorem Kept.parse_eq {l l' : Array Bytes} (h : Kept rule L L' l l')
    (hagree : AgreeWhereOn rule L L') {k : Nat} {line line' : Bytes} (hline : l[k]? = some line)
    (hline' : l'[k]? = some line') : parse line' (k + 1 : Nat) = parse line (k + 1 : Nat) := by
  obtain ⟨off, hoff⟩ := hagree.offAfter_take (k + 1)
  cases off with
  | true =>
    obtain ⟨hl, hl'⟩ := h.off k hoff
    obtain ⟨ds, hds, hds'⟩ := hagree.directives k line line' (hl ▸ hline) (hl' ▸ hline')
    rw [hds, hds']
  | false =>
    rw [h.on k hoff, hline] at hline'
    rw [Option.some.inj hline']

/-- The directives go on to leave the rule on or off at the same lines of both. -/
theorem Kept.offAfter_take {l l' : Array Bytes} (h : Kept rule L L' l l')
    (hagree : AgreeWhereOn rule L L') (k : Nat) :
    offAfter rule (l'.toList.take k) = offAfter rule (l.toList.take k) := by
  induction k with
  | zero => rfl
  | succ k ih =>
    by_cases hk : k < L.size
    · obtain ⟨line, hline⟩ : ∃ line, l[k]? = some line :=
        ⟨_, Array.getElem?_eq_getElem (by rw [h.size_eq]; exact hk)⟩
      obtain ⟨line', hline'⟩ : ∃ line', l'[k]? = some line' :=
        ⟨_, Array.getElem?_eq_getElem (by rw [h.size_eq']; exact hk)⟩
      cases hoff : offAfter rule (l.toList.take k) with
      | error e =>
        rw [hoff] at ih
        rw [offAfter_take_succ_of_error hoff, offAfter_take_succ_of_error ih]
      | ok off =>
        rw [hoff] at ih
        rw [offAfter_take_succ hline hoff, offAfter_take_succ hline' ih, applyLine, applyLine,
          h.parse_eq hagree hline hline']
    · have hlength : l.toList.length ≤ k := by simpa [h.size_eq] using hk
      have hlength' : l'.toList.length ≤ k := by simpa [h.size_eq'] using hk
      rw [List.take_of_length_le hlength, List.take_of_length_le hlength'] at ih
      rwa [List.take_of_length_le (by omega), List.take_of_length_le (by omega)]

/-- Two cursors that end a scan of two such texts alike. -/
structure Close (rule : Bytes) (L L' : Array Bytes) (c c' : Cursor) : Prop where
  flagged_eq : c'.flagged = c.flagged
  lines : Kept rule L L' c.lines c'.lines

/-- Two cursors about to land on lines of the same number. The lines from there on are the original
ones, and if the rule was off above them, it still is. -/
structure Paired (rule : Bytes) (L L' : Array Bytes) (c c' : Cursor) : Prop
    extends Close rule L L' c c' where
  consistent : Consistent c
  consistent' : Consistent c'
  rule_eq : c.rule = rule
  rule_eq' : c'.rule = rule
  index_eq : c'.index = c.index
  ahead : ∀ j, c.index ≤ j → c.lines[j]? = L[j]? ∧ c'.lines[j]? = L'[j]?
  floor : c.atEnd = false → offAfter rule (L.toList.take c.index) = .ok true →
    ∀ off, offAfter rule (c.lines.toList.take c.index) = .ok off → off = true

/-- Two cursors that have landed on lines of the same number. -/
structure Twins (rule : Bytes) (L L' : Array Bytes) (c c' : Cursor) : Prop
    extends Paired rule L L' c c' where
  landed : c.atEnd = false → Landed c ∧ Landed c'

section Twins

variable {c c' : Cursor}

theorem Close.atEnd_eq (h : Close rule L L' c c') (hindex : c'.index = c.index) :
    c'.atEnd = c.atEnd := by
  rw [atEnd, atEnd, h.lines.size_eq, h.lines.size_eq', hindex]

/-- Both cursors land, or both meet the same malformed directive. -/
theorem Paired.land (h : Paired rule L L' c c') (hagree : AgreeWhereOn rule L L') :
    c'.land.2 = c.land.2 ∧ Close rule L L' c.land.1 c'.land.1 ∧
      (c.land.2 = none → Twins rule L L' c.land.1 c'.land.1) := by
  obtain ⟨off, states, hframe⟩ := land_frame c
  obtain ⟨off', states', hframe'⟩ := land_frame c'
  obtain ⟨hcons, hlanded, herror⟩ := land_spec h.consistent
  obtain ⟨hcons', hlanded', herror'⟩ := land_spec h.consistent'
  have hclose : Close rule L L' c.land.1 c'.land.1 := by
    rw [hframe, hframe']
    exact ⟨h.flagged_eq, h.lines⟩
  have hatEnd := h.toClose.atEnd_eq h.index_eq
  have hread : offAfter c'.rule c'.linesRead = offAfter c.rule c.linesRead := by
    rw [linesRead, linesRead, h.rule_eq, h.rule_eq', h.index_eq]
    exact h.lines.offAfter_take hagree _
  have hsame : c'.land.2 = c.land.2 := by
    by_cases hend : c.atEnd = true
    · simp [Cursor.land, hend, hatEnd]
    · apply Option.ext
      intro e
      rw [land_failed_iff h.consistent (by simpa using hend),
        land_failed_iff h.consistent' (by simpa [hatEnd] using hend), hread]
  refine ⟨hsame, hclose, fun hnone => ?_⟩
  rw [hframe] at hcons hclose hlanded ⊢
  rw [hframe'] at hcons' hclose hlanded' ⊢
  refine ⟨⟨hclose, hcons, hcons', h.rule_eq, h.rule_eq', h.index_eq, h.ahead, h.floor⟩,
    fun hin => ?_⟩
  exact ⟨hlanded hnone hin, hlanded' (hsame.trans hnone) (hatEnd.trans hin)⟩

theorem Twins.suppressed_eq (h : Twins rule L L' c c') (hagree : AgreeWhereOn rule L L')
    (hin : c.atEnd = false) : c'.suppressed = c.suppressed := by
  obtain ⟨hlanded, hlanded'⟩ := h.landed hin
  rw [Landed, linesRead, h.rule_eq] at hlanded
  rw [Landed, linesRead, h.rule_eq', h.index_eq, h.lines.offAfter_take hagree, hlanded] at hlanded'
  exact (Except.ok.inj hlanded').symm

/-- A line at which the rule was off at first is not shown. -/
theorem Twins.on_of_shown (h : Twins rule L L' c c') (hagree : AgreeWhereOn rule L L')
    (hin : c.atEnd = false) (hon : c.suppressed = false) :
    offAfter rule (L.toList.take (c.index + 1)) = .ok false := by
  obtain ⟨off, hoff⟩ := hagree.offAfter_take (c.index + 1)
  cases off with
  | false => exact hoff
  | true =>
    exfalso
    have hlanded := (h.landed hin).1
    rw [Landed, linesRead, h.rule_eq, hon] at hlanded
    have hlt : c.index < c.lines.size := by simpa [atEnd] using hin
    obtain ⟨line, hline⟩ : ∃ line, c.lines[c.index]? = some line :=
      ⟨_, Array.getElem?_eq_getElem hlt⟩
    have horiginal := (h.ahead c.index (Nat.le_refl _)).1.symm.trans hline
    obtain ⟨before, hbefore⟩ := hagree.offAfter_take c.index
    obtain ⟨above, habove⟩ := offAfter_take_of_ok hlanded (Nat.le_succ c.index)
    rw [offAfter_take_succ horiginal hbefore, applyLine] at hoff
    rw [offAfter_take_succ hline habove, applyLine] at hlanded
    cases hp : parse line (c.index + 1 : Nat) with
    | error e =>
      rw [hp] at hoff
      cases hoff
    | ok ds =>
      simp only [hp, Except.ok.injEq] at hoff hlanded
      have hle : before = true → above = true :=
        fun hb => h.floor hin (hb ▸ hbefore) above habove
      simp [apply_mono hle hoff] at hlanded

theorem Twins.line_eq (h : Twins rule L L' c c') (hagree : AgreeWhereOn rule L L')
    (hsize : L.size < 2 ^ 63) (hin : c.atEnd = false) (hon : c.suppressed = false) :
    c'.line = c.line := by
  have hshown := h.lines.on c.index (h.on_of_shown hagree hin hon)
  have hline := Cursor.line_eq (by rwa [h.lines.size_eq]) hin
  have hline' := Cursor.line_eq (c := c') (by rwa [h.lines.size_eq'])
    (by rw [h.toClose.atEnd_eq h.index_eq, hin])
  rw [h.index_eq, hshown, hline] at hline'
  exact (Option.some.inj hline').symm

/-- Passing over a line leads from twins to twins. -/
theorem Twins.skip (h : Twins rule L L' c c') (hagree : AgreeWhereOn rule L L')
    (hin : c.atEnd = false) (hoff : c.suppressed = true) :
    (c'.advance 1).2 = (c.advance 1).2 ∧ Close rule L L' (c.advance 1).1 (c'.advance 1).1 ∧
      ((c.advance 1).2 = none → Twins rule L L' (c.advance 1).1 (c'.advance 1).1) := by
  have hin' : c'.atEnd = false := by rw [h.toClose.atEnd_eq h.index_eq, hin]
  rw [advance_one hin, advance_one hin']
  refine Paired.land ⟨⟨h.flagged_eq, h.lines⟩, h.consistent.down (by simp [hin]),
    h.consistent'.down (by simp [hin']), h.rule_eq, h.rule_eq', ?_, fun j hj => ?_, ?_⟩ hagree
  · exact congrArg (· + 1) h.index_eq
  · exact h.ahead j (by simp only at hj; omega)
  · intro _ _ off habove
    have hlanded := (h.landed hin).1
    rw [Landed, linesRead, h.rule_eq, hoff] at hlanded
    exact Except.ok.inj (habove.symm.trans hlanded)

end Twins

/-- What a visit of lines with the same text and number comes to: the same memory, the same marks,
the same request, the same new text for the line; and the cursor stays on it or goes to the end. -/
structure SameVisit (c c' : Cursor) (out out' : σ × Cursor × Visit) : Prop where
  memory : out'.1 = out.1
  request : out'.2.2 = out.2.2
  flagged : out'.2.1.flagged = out.2.1.flagged
  edit : ∃ text, out.2.1.lines = c.lines.setIfInBounds c.index text ∧
    out'.2.1.lines = c'.lines.setIfInBounds c.index text
  index_eq : out'.2.1.index = out.2.1.index
  index : out.2.1.index = c.index ∨ out.2.1.index = c.lines.size
  rule_eq : out.2.1.rule = c.rule
  rule_eq' : out'.2.1.rule = c'.rule
  consistent : Consistent out.2.1
  consistent' : Consistent out'.2.1

/-- A visitor that looks at nothing but its line, its number and the marks so far. -/
def Discreet (visit : Visitor σ) : Prop :=
  ∀ m (c c' : Cursor), Consistent c → Consistent c' → c.lines.size < 2 ^ 63 →
    c'.lines.size = c.lines.size → c.atEnd = false → c'.index = c.index →
    c'.flagged = c.flagged → c'.line = c.line → SameVisit c c' (visit m c) (visit m c')

section Drive

variable {visit : Visitor σ} {c c' : Cursor}

theorem SameVisit.close {out out' : σ × Cursor × Visit} (h : SameVisit c c' out out')
    (hc : Close rule L L' c c') (hin : c.index < c.lines.size)
    (hon : offAfter rule (L.toList.take (c.index + 1)) = .ok false) :
    Close rule L L' out.2.1 out'.2.1 := by
  obtain ⟨text, hlines, hlines'⟩ := h.edit
  have hother {j : Nat} (hj : j ≠ c.index) : out.2.1.lines[j]? = c.lines[j]? ∧
      out'.2.1.lines[j]? = c'.lines[j]? := by
    simp [hlines, hlines', hj.symm]
  refine ⟨h.flagged, ?_, ?_, fun j hj => ?_, fun j hj => ?_⟩
  · simpa [hlines] using hc.lines.size_eq
  · simpa [hlines'] using hc.lines.size_eq'
  · have hne : j ≠ c.index := by
      rintro rfl
      simp [hon] at hj
    rw [(hother hne).1, (hother hne).2]
    exact hc.lines.off j hj
  · by_cases hne : j = c.index
    · have hin' : c.index < c'.lines.size := by
        rwa [hc.lines.size_eq', ← hc.lines.size_eq]
      simp [hlines, hlines', hne, hin, hin']
    · rw [(hother hne).1, (hother hne).2]
      exact hc.lines.on j hj

/-- Twins that are shown a line and move on are twins again. -/
theorem Twins.look (h : Twins rule L L' c c') (hagree : AgreeWhereOn rule L L')
    (hin : c.atEnd = false) (hon : c.suppressed = false) {out out' : σ × Cursor × Visit}
    (hout : SameVisit c c' out out') :
    (out'.2.1.advance 1).2 = (out.2.1.advance 1).2 ∧
      Close rule L L' (out.2.1.advance 1).1 (out'.2.1.advance 1).1 ∧
      ((out.2.1.advance 1).2 = none →
        Twins rule L L' (out.2.1.advance 1).1 (out'.2.1.advance 1).1) := by
  have hlt : c.index < c.lines.size := by simpa [atEnd] using hin
  have hfirst := h.on_of_shown hagree hin hon
  have hclose := hout.close h.toClose hlt hfirst
  have hatEnd := hclose.atEnd_eq hout.index_eq
  have hrule := hout.rule_eq.trans h.rule_eq
  have hrule' := hout.rule_eq'.trans h.rule_eq'
  obtain ⟨text, hlines, hlines'⟩ := hout.edit
  by_cases hend : out.2.1.atEnd = true
  · rw [advance_one_of_atEnd hend, advance_one_of_atEnd (hatEnd.trans hend)]
    refine ⟨rfl, hclose, fun _ => ⟨⟨hclose, hout.consistent, hout.consistent', hrule, hrule',
      hout.index_eq, fun j hj => ?_, by simp [hend]⟩, by simp [hend]⟩⟩
    have hj' : L.size ≤ j := by
      have hle : out.2.1.lines.size ≤ out.2.1.index := by simpa [atEnd] using hend
      rw [hclose.lines.size_eq] at hle
      exact hle.trans hj
    simp [hclose.lines.size_eq, hclose.lines.size_eq', hagree.size_eq, hj']
  · have hin₁ : out.2.1.atEnd = false := by simpa using hend
    have hin₁' : out'.2.1.atEnd = false := hatEnd.trans hin₁
    have hindex : out.2.1.index = c.index := by
      refine hout.index.resolve_right fun hsize => hend ?_
      simp [atEnd, hsize, hlines]
    rw [advance_one hin₁, advance_one hin₁']
    refine Paired.land ⟨⟨hclose.flagged_eq, hclose.lines⟩, hout.consistent.down hend,
      hout.consistent'.down (by simp [hin₁']), hrule, hrule', ?_, fun j hj => ?_, ?_⟩ hagree
    · exact congrArg (· + 1) hout.index_eq
    · simp only [hindex] at hj
      have hne : c.index ≠ j := by omega
      simp only [hlines, hlines', Array.getElem?_setIfInBounds, hne, ↓reduceIte]
      exact h.ahead j (by omega)
    · intro _ hoff
      simp only [hindex, hfirst] at hoff
      cases hoff

theorem seek_twins (hagree : AgreeWhereOn rule L L') (n : Nat) (h : Twins rule L L' c c') :
    (seek n c').2 = (seek n c).2 ∧ Close rule L L' (seek n c).1 (seek n c').1 ∧
      ((seek n c).2 = none → Twins rule L L' (seek n c).1 (seek n c').1) := by
  induction n generalizing c c' with
  | zero => exact ⟨rfl, h.toClose, fun _ => h⟩
  | succ n ih =>
    have hatEnd := h.toClose.atEnd_eq h.index_eq
    by_cases hend : c.atEnd = true
    · simp only [seek, hatEnd, hend, Bool.true_or, ↓reduceIte]
      exact ⟨trivial, h.toClose, fun _ => h⟩
    · have hin : c.atEnd = false := by simpa using hend
      have hsuppressed := h.suppressed_eq hagree hin
      cases hon : c.suppressed with
      | false =>
        simp only [seek, hatEnd, hin, hsuppressed, hon, Bool.not_false, Bool.or_true, ↓reduceIte]
        exact ⟨trivial, h.toClose, fun _ => h⟩
      | true =>
        obtain ⟨hsame, hclose, hnext⟩ := h.skip hagree hin hon
        simp only [seek, hatEnd, hin, hsuppressed, hon, Bool.not_true, Bool.or_false,
          Bool.false_eq_true, ↓reduceIte]
        cases ha : c.advance 1 with
        | mk d error =>
          cases ha' : c'.advance 1 with
          | mk d' error' =>
            rw [ha, ha'] at hsame hclose hnext
            simp only at hsame hclose hnext
            subst hsame
            cases error' with
            | some e => exact ⟨rfl, hclose, by simp⟩
            | none => exact ih (hnext rfl)

/-- Two scans that say the same about two such texts. -/
structure SameScan (rule : Bytes) (L L' : Array Bytes) (s s' : Scan σ) : Prop where
  memory : s'.memory = s.memory
  flagged : s'.flagged = s.flagged
  ending : s'.ending = s.ending
  lines : Kept rule L L' s.lines s'.lines

theorem Close.stop (h : Close rule L L' c c') (m : σ) (ending : Ending) :
    SameScan rule L L' (stop m c ending) (stop m c' ending) :=
  ⟨rfl, h.flagged_eq, rfl, h.lines⟩

/-- Where the search for a line to show comes to an end without an error, there is one or none is
left. -/
theorem shown_of_seek {d : Cursor} (h : seek (c.lines.size + 1) c = (d, none)) :
    d.atEnd = true ∨ d.suppressed = false := by
  obtain ⟨d', -, -, ⟨hseek, -, hwhere⟩ | ⟨d'', e, -, -, -, hseek⟩⟩ :=
    seek_spec (fun (m : Unit) c => (m, c, .next)) (c.lines.size + 1) () c (by omega)
  · obtain rfl : d' = d := by simpa using hseek.symm.trans h
    exact hwhere
  · simp [h] at hseek

/-- How a scan goes on after a visit. -/
def visited (visit : Visitor σ) (visits : Nat) (out : σ × Cursor × Visit) : Scan σ :=
  match out with
  | (memory, c, .fail e) => stop memory c (.failed e)
  | (memory, c, .panic value) => stop memory c (.panicked value)
  | (memory, c, .next) =>
    match c.advance 1 with
    | (c, some e) => stop memory c (.failed (.directive e))
    | (c, none) => drive visit visits memory c

/-- The scans go on alike after a visit. -/
theorem drive_twins_shown (hvisit : Discreet visit) (hagree : AgreeWhereOn rule L L')
    (hsize : L.size < 2 ^ 63) (h : Twins rule L L' c c') (hin : c.atEnd = false)
    (hon : c.suppressed = false) (m : σ) {visits : Nat}
    (hrest : ∀ m' d d', Twins rule L L' d d' →
      SameScan rule L L' (drive visit visits m' d) (drive visit visits m' d')) :
    SameScan rule L L' (visited visit visits (visit m c)) (visited visit visits (visit m c')) := by
  have hlt : c.index < c.lines.size := by simpa [atEnd] using hin
  have hout := hvisit m c c' h.consistent h.consistent' (by rwa [h.lines.size_eq])
    (h.lines.size_eq'.trans h.lines.size_eq.symm) hin h.index_eq h.flagged_eq
    (h.line_eq hagree hsize hin hon)
  have hafter := hout.close h.toClose hlt (h.on_of_shown hagree hin hon)
  have hmove := h.look hagree hin hon hout
  generalize visit m c = out at hout hafter hmove ⊢
  generalize visit m c' = out' at hout hafter hmove ⊢
  obtain ⟨m₁, d, request⟩ := out
  obtain ⟨m₁', d', request'⟩ := out'
  obtain rfl : m₁' = m₁ := hout.memory
  obtain rfl : request' = request := hout.request
  unfold visited
  cases request' with
  | fail e => exact hafter.stop m₁' _
  | panic value => exact hafter.stop m₁' _
  | next =>
    obtain ⟨hsame, hclose, hnext⟩ := hmove
    simp only at hsame hclose hnext ⊢
    cases ha : d.advance 1 with
    | mk e failed =>
      cases ha' : d'.advance 1 with
      | mk e' failed' =>
        rw [ha, ha'] at hsame hclose hnext
        simp only at hsame hclose hnext
        subst hsame
        cases failed' with
        | some error => exact hclose.stop m₁' _
        | none => exact hrest m₁' e e' (hnext rfl)

theorem drive_twins (hvisit : Discreet visit) (hagree : AgreeWhereOn rule L L')
    (hsize : L.size < 2 ^ 63) (visits : Nat) (m : σ) (h : Twins rule L L' c c') :
    SameScan rule L L' (drive visit visits m c) (drive visit visits m c') := by
  induction visits using Nat.strongRecOn generalizing m c c' with
  | ind visits ih =>
    obtain ⟨hsame, hclose, htwins⟩ := seek_twins hagree (c.lines.size + 1) h
    have hlength : c'.lines.size = c.lines.size := h.lines.size_eq'.trans h.lines.size_eq.symm
    unfold drive
    rw [hlength]
    cases hs : seek (c.lines.size + 1) c with
    | mk d error =>
      cases hs' : seek (c.lines.size + 1) c' with
      | mk d' error' =>
        rw [hs, hs'] at hsame hclose htwins
        simp only at hsame hclose htwins
        subst hsame
        cases error' with
        | some e => exact hclose.stop m _
        | none =>
          have hd := htwins rfl
          have hatEnd := hclose.atEnd_eq hd.index_eq
          cases hend : d.atEnd with
          | true => simpa [hatEnd, hend] using hclose.stop m _
          | false =>
            simp only [hatEnd, hend, Bool.false_eq_true, ↓reduceIte]
            cases visits with
            | zero => exact hclose.stop m _
            | succ visits =>
              have hon := (shown_of_seek hs).resolve_left (by simp [hend])
              exact drive_twins_shown hvisit hagree hsize hd hend hon m
                fun m' d₁ d₁' h₁ => ih visits (Nat.lt_succ_self visits) m' h₁

theorem AgreeWhereOn.kept (hagree : AgreeWhereOn rule L L') : Kept rule L L' L L' :=
  ⟨rfl, hagree.size_eq, fun _ _ => ⟨rfl, rfl⟩, hagree.text⟩

theorem ofLines_twins (hvisit : Discreet visit) (hagree : AgreeWhereOn rule L L')
    (hsize : L.size < 2 ^ 63) (visits : Nat) (m : σ) :
    SameScan rule L L' (ofLines visit visits m L rule) (ofLines visit visits m L' rule) := by
  have hfirst : Paired rule L L' { lines := L, rule := rule } { lines := L', rule := rule } :=
    ⟨⟨rfl, hagree.kept⟩, consistent_initial L rule, consistent_initial L' rule, rfl, rfl, rfl,
      fun _ _ => ⟨rfl, rfl⟩, fun _ hoff => by cases hoff⟩
  obtain ⟨hsame, -, hnext⟩ := hfirst.land hagree
  unfold ofLines Cursor.start
  cases hl : Cursor.land { lines := L, rule := rule } with
  | mk d error =>
    cases hl' : Cursor.land { lines := L', rule := rule } with
    | mk d' error' =>
      rw [hl, hl'] at hsame hnext
      simp only at hsame hnext
      subst hsame
      cases error' with
      | some e => exact ⟨rfl, rfl, rfl, hagree.kept⟩
      | none => exact drive_twins hvisit hagree hsize visits m (hnext rfl)

end Drive

end Scan

end Linewise
