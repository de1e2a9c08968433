import Linewise.Proofs.CursorSuppression

/-!
# Where a move ends

A move goes line by line. It ends where it was meant to, at one of the ends of the text, or at the
first line on its way down to which the text cannot be read. Only the text as it is now counts: what
the cursor met, learnt or changed before makes no difference.
-/

namespace Linewise.Directive

/-- Whether a line has a directive without a rule id. -/
def isMalformed (line : Bytes) : Bool :=
  match scanFrom 0 line with
  | .ok _ => false
  | .error _ => true

/-- The index of the first line that has a directive without a rule id. -/
def firstMalformed? (lines : List Bytes) : Option Nat := lines.findIdx? isMalformed

/-- The first malformed directive of a text is on the line with index `m`, and `e` says so. -/
def Blames (lines : List Bytes) (m : Nat) (e : MalformedDirective) : Prop :=
  firstMalformed? lines = some m ∧
    ∃ line, lines[m]? = some line ∧ parse line (m + 1 : Nat) = .error e

theorem parse_of_isMalformed {line : Bytes} (h : isMalformed line = true) (number : Int) :
    ∃ e, parse line number = .error e ∧ e.line = number := by
  unfold isMalformed at h
  cases hs : scanFrom 0 line with
  | ok ds => simp [hs] at h
  | error fragment => exact ⟨⟨number, fragment⟩, by simp [parse, hs], rfl⟩

theorem parse_of_not_isMalformed {line : Bytes} (h : isMalformed line = false) (number : Int) :
    ∃ ds, parse line number = .ok ds := by
  unfold isMalformed at h
  cases hs : scanFrom 0 line with
  | ok ds => exact ⟨ds, by simp [parse, hs]⟩
  | error fragment => simp [hs] at h

theorem Blames.line_eq {lines : List Bytes} {m : Nat} {e : MalformedDirective}
    (h : Blames lines m e) : e.line = m + 1 := by
  obtain ⟨-, line, -, hparse⟩ := h
  unfold parse at hparse
  split at hparse
  · cases hparse
  · rw [← Except.error.inj hparse]
    simp

theorem exists_blames {lines : List Bytes} {m : Nat} (h : firstMalformed? lines = some m) :
    ∃ e, Blames lines m e := by
  obtain ⟨hlt, hbad, -⟩ := List.findIdx?_eq_some_iff_getElem.mp h
  obtain ⟨e, hparse, -⟩ := parse_of_isMalformed hbad (m + 1 : Nat)
  exact ⟨e, h, lines[m], List.getElem?_eq_getElem hlt, hparse⟩

theorem Blames.unique {lines : List Bytes} {m m' : Nat} {e e' : MalformedDirective}
    (h : Blames lines m e) (h' : Blames lines m' e') : m = m' ∧ e = e' := by
  obtain ⟨hm, line, hline, he⟩ := h
  obtain ⟨hm', line', hline', he'⟩ := h'
  obtain rfl := Option.some.inj (hm.symm.trans hm')
  obtain rfl := Option.some.inj (hline.symm.trans hline')
  exact ⟨rfl, Except.error.inj (he.symm.trans he')⟩

/-- Reading lines fails at the first malformed directive and nowhere else. -/
theorem readLines_eq_error_iff (number : Nat) (lines : List Bytes) (e : MalformedDirective) :
    readLines number lines = .error e ↔ ∃ m line, firstMalformed? lines = some m ∧
      lines[m]? = some line ∧ parse line (number + m : Nat) = .error e := by
  induction lines generalizing number with
  | nil => simp [readLines, firstMalformed?]
  | cons line rest ih =>
    by_cases hbad : isMalformed line = true
    · obtain ⟨e', hparse, -⟩ := parse_of_isMalformed hbad number
      simp [readLines, firstMalformed?, List.findIdx?_cons, hbad, hparse]
    · obtain ⟨ds, hparse⟩ := parse_of_not_isMalformed (by simpa using hbad) number
      have hrest : readLines number (line :: rest) = .error e ↔
          readLines (number + 1) rest = .error e := by
        cases hr : readLines (number + 1) rest <;> simp [readLines, hparse, hr]
      have hfirst : firstMalformed? (line :: rest) = (firstMalformed? rest).map (· + 1) := by
        simp [firstMalformed?, List.findIdx?_cons, hbad]
      rw [hrest, ih, hfirst]
      constructor
      · rintro ⟨m, next, hm, hnext, he⟩
        exact ⟨m + 1, next, by simp [hm], by simpa using hnext,
          by rwa [show number + (m + 1) = number + 1 + m by omega]⟩
      · rintro ⟨m, next, hm, hnext, he⟩
        obtain ⟨k, hk, rfl⟩ := Option.map_eq_some_iff.mp hm
        exact ⟨k, next, hk, by simpa using hnext,
          by rwa [show number + 1 + k = number + (k + 1) by omega]⟩

theorem firstMalformed?_take_eq_some_iff {lines : List Bytes} {k m : Nat} :
    firstMalformed? (lines.take k) = some m ↔ firstMalformed? lines = some m ∧ m < k := by
  rw [firstMalformed?, List.findIdx?_take, ← firstMalformed?]
  cases firstMalformed? lines with
  | none => simp
  | some j => simp [Option.guard]; grind

/-- Whether a text can be read down to a line depends on where its first malformed directive is. -/
theorem offAfter_take_eq_error_iff (rule : Bytes) (lines : List Bytes) (k : Nat)
    (e : MalformedDirective) :
    offAfter rule (lines.take k) = .error e ↔ ∃ m < k, Blames lines m e := by
  have hread : offAfter rule (lines.take k) = .error e ↔ readLines 1 (lines.take k) = .error e := by
    unfold offAfter
    cases readLines 1 (lines.take k) <;> simp
  rw [hread, readLines_eq_error_iff]
  constructor
  · rintro ⟨m, line, hm, hline, he⟩
    obtain ⟨hfirst, hlt⟩ := firstMalformed?_take_eq_some_iff.mp hm
    rw [List.getElem?_take_of_lt hlt] at hline
    exact ⟨m, hlt, hfirst, line, hline, by rwa [Nat.add_comm] at he⟩
  · rintro ⟨m, hlt, hfirst, line, hline, he⟩
    refine ⟨m, line, firstMalformed?_take_eq_some_iff.mpr ⟨hfirst, hlt⟩, ?_, ?_⟩
    · rwa [List.getElem?_take_of_lt hlt]
    · rwa [Nat.add_comm]

end Linewise.Directive

namespace Linewise.Cursor
open Directive

variable {c : Cursor}

/-- The text of a cursor can be read down to a line. -/
def Readable (c : Cursor) (i : Nat) : Prop := ∀ m ∈ firstMalformed? c.lines.toList, i < m

/-- The text of a cursor that has landed can be read down to its line. -/
theorem Landed.readable (h : Landed c) : Readable c c.index := by
  intro m hm
  obtain ⟨e, hblames⟩ := exists_blames hm
  by_contra hle
  have herror := (offAfter_take_eq_error_iff c.rule c.lines.toList (c.index + 1) e).mpr
    ⟨m, by omega, hblames⟩
  rw [show offAfter c.rule (c.lines.toList.take (c.index + 1)) = _ from h] at herror
  cases herror

theorem land_fails_iff (h : Consistent c) (hin : c.index < c.lines.size) (e : MalformedDirective) :
    c.land.2 = some e ↔ ∃ m ≤ c.index, Blames c.lines.toList m e := by
  rw [land_failed_iff h (by simpa [atEnd] using hin), linesRead, offAfter_take_eq_error_iff]
  simp only [Nat.lt_succ_iff]

theorem land_none_iff (h : Consistent c) (hin : c.index < c.lines.size) :
    c.land.2 = none ↔ Readable c c.index := by
  rw [Option.eq_none_iff_forall_ne_some]
  simp only [ne_eq, land_fails_iff h hin]
  constructor
  · intro hnone m hm
    obtain ⟨e, hblames⟩ := exists_blames hm
    by_contra hle
    exact hnone e ⟨m, by omega, hblames⟩
  · rintro hread e ⟨m, hle, hblames⟩
    have := hread m hblames.1
    omega

/-- A move changes where the cursor stands and what it knows, and nothing else. -/
theorem forward_frame (n : Nat) (c : Cursor) :
    ∃ i off states, (forward n c).1 = { c with index := i, suppressed := off, states := states } := by
  fun_induction forward n c with
  | case1 c => exact ⟨_, _, _, rfl⟩
  | case2 n c hend => exact ⟨_, _, _, rfl⟩
  | case3 n c hend d hlast => exact ⟨_, _, _, rfl⟩
  | case4 n c hend d hnext e error hl =>
    obtain ⟨off, states, hd⟩ := land_frame d
    rw [hl] at hd
    exact ⟨_, _, _, hd⟩
  | case5 n c hend d hnext e hl ih =>
    obtain ⟨off, states, hd⟩ := land_frame d
    rw [hl] at hd
    obtain rfl : e = { d with suppressed := off, states := states } := hd
    exact ih

theorem backward_frame (n : Nat) (c : Cursor) :
    ∃ i off states,
      (backward n c).1 = { c with index := i, suppressed := off, states := states } := by
  fun_induction backward n c with
  | case1 c => exact ⟨_, _, _, rfl⟩
  | case2 n c hstart => exact ⟨_, _, _, rfl⟩
  | case3 n c hstart e error hl =>
    obtain ⟨off, states, hd⟩ := land_frame { c with index := c.index - 1 }
    rw [hl] at hd
    exact ⟨_, _, _, hd⟩
  | case4 n c hstart e hl ih =>
    obtain ⟨off, states, hd⟩ := land_frame { c with index := c.index - 1 }
    rw [hl] at hd
    obtain rfl : e = { c with index := c.index - 1, suppressed := off, states := states } := hd
    exact ih

theorem advance_frame (c : Cursor) (distance : Int) :
    ∃ i off states,
      (c.advance distance).1 = { c with index := i, suppressed := off, states := states } := by
  cases distance with
  | ofNat n => exact forward_frame n c
  | negSucc n => exact backward_frame (n + 1) c

/-- Downwards, a move ends at the first line that cannot be reached, or where it was meant to. -/
theorem forward_ends (n : Nat) (c : Cursor) (h : Consistent c) (hin : c.index < c.lines.size) :
    (∀ m e, Blames c.lines.toList m e →
        max (c.index + 1) m ≤ min (c.index + n) (c.lines.size - 1) →
        (forward n c).1.index = max (c.index + 1) m ∧ (forward n c).2 = some e) ∧
      ((∀ m ∈ firstMalformed? c.lines.toList,
          min (c.index + n) (c.lines.size - 1) < max (c.index + 1) m) →
        (forward n c).1.index = min (c.index + n) c.lines.size ∧ (forward n c).2 = none) := by
  fun_induction forward n c with
  | case1 c => exact ⟨fun m e _ hle => by omega, fun _ => ⟨by simp; omega, rfl⟩⟩
  | case2 n c hend =>
    simp only [atEnd, ge_iff_le, decide_eq_true_eq] at hend
    omega
  | case3 n c hend d hlast =>
    have hsize : c.lines.size ≤ c.index + 1 := by simpa [atEnd, d] using hlast
    exact ⟨fun m e _ hle => by omega, fun _ => ⟨by simp only [d]; omega, rfl⟩⟩
  | case4 n c hend d hnext e error hl =>
    have hlt : c.index + 1 < c.lines.size := by simpa [atEnd, d] using hnext
    obtain ⟨⟨off, states, rfl⟩, -, -⟩ := land_eq (h.down hend) hl
    -- The landing failed: the first malformed directive is above the line or on it.
    obtain ⟨k, hk, hblames⟩ := (land_fails_iff (h.down hend) hlt error).mp (by rw [hl])
    change k ≤ c.index + 1 at hk
    refine ⟨fun m e' hblames' _ => ?_, fun hfree => ?_⟩
    · obtain ⟨rfl, rfl⟩ := hblames.unique hblames'
      exact ⟨by simp only; omega, rfl⟩
    · have := hfree k hblames.1
      omega
  | case5 n c hend d hnext e hl ih =>
    have hlt : c.index + 1 < c.lines.size := by simpa [atEnd, d] using hnext
    obtain ⟨⟨off, states, rfl⟩, hcons, -⟩ := land_eq (h.down hend) hl
    have hread := (land_none_iff (h.down hend) hlt).mp (by rw [hl])
    obtain ⟨hstop, hgo⟩ := ih hcons hlt
    simp only at hstop hgo
    refine ⟨fun m e' hblames hle => ?_, fun hfree => ?_⟩
    · have hbelow : c.index + 1 < m := hread m hblames.1
      obtain ⟨hindex, herror⟩ := hstop m e' hblames (by omega)
      exact ⟨by rw [hindex]; omega, herror⟩
    · obtain ⟨hindex, herror⟩ := hgo fun m hm => by
        have hbelow : c.index + 1 < m := hread m hm
        have := hfree m hm
        omega
      exact ⟨by rw [hindex]; omega, herror⟩

theorem backward_ends (n : Nat) (c : Cursor) (h : Consistent c) (hread : Readable c (c.index - 1)) :
    (backward n c).1.index = c.index - n ∧ (backward n c).2 = none := by
  fun_induction backward n c with
  | case1 c => exact ⟨rfl, rfl⟩
  | case2 n c hstart =>
    have hzero : c.index = 0 := by simpa [atStart] using hstart
    exact ⟨by rw [hzero]; omega, rfl⟩
  | case3 n c hstart e error hl =>
    have hzero : c.index ≠ 0 := by simpa [atStart] using hstart
    have hlt : c.index - 1 < c.lines.size := by have := h.index_le; omega
    have hnone := (land_none_iff h.up hlt).mpr hread
    simp [hl] at hnone
  | case4 n c hstart e hl ih =>
    obtain ⟨⟨off, states, rfl⟩, hcons, -⟩ := land_eq h.up hl
    obtain ⟨hindex, herror⟩ := ih hcons fun m hm => by
      have hbelow : c.index - 1 < m := hread m hm
      simp only
      omega
    exact ⟨by rw [hindex]; simp only; omega, herror⟩

/-- Upwards, a move cannot pass a malformed directive above it, and it notices that at once. -/
theorem backward_stops (n : Nat) {m : Nat} {e : MalformedDirective} (h : Consistent c)
    (hblames : Blames c.lines.toList m e) (hm : m < c.index) :
    (backward (n + 1) c).1.index = c.index - 1 ∧ (backward (n + 1) c).2 = some e := by
  have hstart : c.atStart = false := by simp only [atStart, beq_eq_false_iff_ne]; omega
  have hlt : c.index - 1 < c.lines.size := by have := h.index_le; omega
  have hfails := (land_fails_iff h.up hlt e).mpr ⟨m, by simp only; omega, hblames⟩
  obtain ⟨off, states, hframe⟩ := land_frame { c with index := c.index - 1 }
  cases hl : land { c with index := c.index - 1 } with
  | mk d error =>
    rw [hl] at hfails hframe
    obtain rfl : error = some e := hfails
    obtain rfl : d = _ := hframe
    simp only [backward, hstart, hl, Bool.false_eq_true, ↓reduceIte, and_self]

/-- A move ends exactly where it should and fails exactly when it must, whatever was done with the
cursor before. `m` is the index of the first line of the text, as it is now, with a malformed
directive; when there is none, no bound is set by it. -/
theorem advance_ends {lines : Array Bytes} {rule : Bytes} {first : Cursor}
    (hstart : start lines rule = .ok first) (ops : List Operation) (distance : Int) :
    let c := first.performAll ops
    let p := c.index
    let n := c.lines.size
    ∃ after error, c.perform (.advance distance) = (after, .moved (after.index + 1) error) ∧
      after.lines = c.lines ∧ after.flagged = c.flagged ∧
      (distance = 0 ∨ 0 < distance ∧ c.atEnd = true ∨ distance < 0 ∧ p = 0 →
        after = c ∧ error = none) ∧
      (0 < distance → c.atEnd = false →
        let q := min (p + distance.toNat) n
        (∀ m ∈ firstMalformed? c.lines.toList, max (p + 1) m ≤ min q (n - 1) →
          after.index = max (p + 1) m ∧ ∃ e, error = some e ∧ e.line = m + 1) ∧
        ((∀ m ∈ firstMalformed? c.lines.toList, ¬max (p + 1) m ≤ min q (n - 1)) →
          after.index = q ∧ error = none)) ∧
      (distance < 0 → p ≠ 0 →
        (∀ m ∈ firstMalformed? c.lines.toList, m ≤ p - 1 →
          after.index = p - 1 ∧ ∃ e, error = some e ∧ e.line = m + 1) ∧
        ((∀ m ∈ firstMalformed? c.lines.toList, ¬m ≤ p - 1) →
          (after.index : Int) = max 0 (p + distance) ∧ error = none)) := by
  intro c p n
  have hcons : Consistent c := ((start_spec hstart).1.performAll ops).1
  obtain ⟨i, off, states, hframe⟩ := advance_frame c distance
  refine ⟨(c.advance distance).1, (c.advance distance).2, rfl, by rw [hframe], by rw [hframe],
    ?_, ?_, ?_⟩
  · rintro (rfl | ⟨hpos, hend⟩ | ⟨hneg, hzero⟩)
    · exact ⟨rfl, rfl⟩
    · obtain ⟨d, rfl⟩ := Int.eq_succ_of_zero_lt hpos
      change (forward (d + 1) c).1 = c ∧ (forward (d + 1) c).2 = none
      simp [forward, hend]
    · obtain ⟨d, rfl⟩ := Int.eq_negSucc_of_lt_zero hneg
      change (backward (d + 1) c).1 = c ∧ (backward (d + 1) c).2 = none
      have hatStart : c.atStart = true := by simpa [atStart] using hzero
      simp [backward, hatStart]
  · intro hpos hin q
    obtain ⟨d, rfl⟩ := Int.eq_ofNat_of_zero_le (Int.le_of_lt hpos)
    obtain ⟨hstop, hgo⟩ := forward_ends d c hcons (by simpa [atEnd] using hin)
    have hn : p < n := by simpa [atEnd] using hin
    refine ⟨fun m hm hle => ?_, fun hfree => ?_⟩
    · obtain ⟨e, hblames⟩ := exists_blames hm
      obtain ⟨hindex, herror⟩ := hstop m e hblames (by simp only [q, Int.toNat_natCast] at hle; omega)
      exact ⟨hindex, e, herror, hblames.line_eq⟩
    · exact hgo fun m hm => by
        have := hfree m hm
        simp only [q, Int.toNat_natCast] at this
        omega
  · intro hneg hp
    obtain ⟨d, rfl⟩ := Int.eq_negSucc_of_lt_zero hneg
    refine ⟨fun m hm hle => ?_, fun hfree => ?_⟩
    · obtain ⟨e, hblames⟩ := exists_blames hm
      obtain ⟨hindex, herror⟩ := backward_stops d hcons hblames (by omega)
      exact ⟨hindex, e, herror, hblames.line_eq⟩
    · obtain ⟨hindex, herror⟩ := backward_ends (d + 1) c hcons fun m hm => by
        have := hfree m hm
        omega
      refine ⟨?_, herror⟩
      change ((backward (d + 1) c).1.index : Int) = _
      rw [hindex]
      omega

/-- A directive that was spoilt two lines above the cursor stops the next move up on its first line,
one line below the directive. -/
theorem advance_ends_spoilt :
    let lines := #[utf8 "a\n", utf8 "X11_FUZZ: enable r\n", utf8 "b\n", utf8 "c\n"]
    let first : Cursor := { lines := lines, rule := utf8 "r", states := #[false] }
    let ops : List Operation := [.advance 3, .setText (-2) (utf8 "X11_FUZZ: enable\n")]
    start lines (utf8 "r") = .ok first ∧
      ∃ after error, (first.performAll ops).perform (.advance (-3)) =
          (after, .moved (after.index + 1) error) ∧
        after.index = 2 ∧ ∃ e, error = some e ∧ e.line = 2 := by
  intro lines first ops
  have hstart : start lines (utf8 "r") = .ok first := by decide
  obtain ⟨after, error, hmove, -, -, -, -, hup⟩ := advance_ends hstart ops (-3)
  have hp : (first.performAll ops).index = 3 := by decide
  have hm : 1 ∈ firstMalformed? (first.performAll ops).lines.toList := by decide
  rw [hp] at hup
  exact ⟨hstart, after, error, hmove, (hup (by decide) (by decide)).1 1 hm (by decide)⟩

end Linewise.Cursor
