import Linewise.Cursor.Operation
import Linewise.Proofs.DirectiveReading

/-!
# What a cursor knows about suppression

A cursor keeps the states of the lines from the first one on, cuts them off at an edit and learns
them again when it lands. Whatever was done with it before, the states that it keeps are those of
the text as it is, so that a landing says what the text says.
-/

namespace Linewise.Cursor
open Directive

/-- The lines down to the current one. -/
def linesRead (c : Cursor) : List Bytes := c.lines.toList.take (c.index + 1)

/-- A cursor stands in its text or right behind it, and the states that it keeps are those of the
text. -/
structure Consistent (c : Cursor) : Prop where
  index_le : c.index ≤ c.lines.size
  size_le : c.states.size ≤ c.lines.size
  state_eq : ∀ i off, c.states[i]? = some off →
    offAfter c.rule (c.lines.toList.take (i + 1)) = .ok off

/-- The rule counts as off exactly when it is off after the lines read. -/
def Landed (c : Cursor) : Prop := offAfter c.rule c.linesRead = .ok c.suppressed

variable {c : Cursor}

theorem Consistent.offAfter_lastState (h : Consistent c) :
    offAfter c.rule (c.lines.toList.take c.states.size) = .ok c.lastState := by
  unfold lastState
  rw [Array.back?_eq_getElem?]
  cases hs : c.states.size with
  | zero => simp [Array.size_eq_zero_iff.mp hs]
  | succ n =>
    have hn : n < c.states.size := by omega
    have hget : c.states[n]? = some c.states[n] := Array.getElem?_eq_getElem hn
    simpa [hget] using h.state_eq n c.states[n] hget

theorem Consistent.offAfter_next (h : Consistent c) {line : Bytes}
    (hl : c.lines[c.states.size]? = some line) :
    offAfter c.rule (c.lines.toList.take (c.states.size + 1)) =
      applyLine c.rule c.lastState line (c.states.size + 1 : Nat) := by
  have hlist : c.lines.toList[c.states.size]? = some line := by simpa using hl
  have hlt : c.states.size < c.lines.size := (Array.getElem?_eq_some_iff.mp hl).1
  have hlen : (c.lines.toList.take c.states.size).length = c.states.size := by
    simp only [List.length_take, Array.length_toList]
    omega
  rw [List.take_add_one, hlist, Option.toList_some, offAfter_concat h.offAfter_lastState, hlen]

theorem Consistent.push (h : Consistent c) {line : Bytes} {off : Bool}
    (hl : c.lines[c.states.size]? = some line)
    (ha : applyLine c.rule c.lastState line (c.states.size + 1 : Nat) = .ok off) :
    Consistent { c with states := c.states.push off } := by
  have hlt : c.states.size < c.lines.size := (Array.getElem?_eq_some_iff.mp hl).1
  refine ⟨h.index_le, by simpa [Nat.succ_le_iff] using hlt, ?_⟩
  intro i s hi
  simp only [Array.getElem?_push] at hi
  by_cases he : i = c.states.size
  · subst he
    rw [h.offAfter_next hl, ha]
    simpa using hi
  · exact h.state_eq i s (by simpa [he] using hi)

theorem learn_frame (n : Nat) (c : Cursor) :
    ∃ states, (learn n c).1 = { c with states := states } := by
  fun_induction learn n c with
  | case1 c => exact ⟨c.states, rfl⟩
  | case2 n c hl => exact ⟨c.states, rfl⟩
  | case3 n c line hl off ha ih => exact ih
  | case4 n c line hl e ha => exact ⟨c.states, rfl⟩

theorem land_frame (c : Cursor) :
    ∃ off states, c.land.1 = { c with suppressed := off, states := states } := by
  by_cases hend : c.atEnd = true
  · exact ⟨c.suppressed, c.states, by simp [land, hend]⟩
  · obtain ⟨states, hc⟩ := learn_frame (c.index + 1 - c.states.size) c
    cases hl : learn (c.index + 1 - c.states.size) c with
    | mk d error =>
      rw [hl] at hc
      obtain rfl : d = { c with states := states } := hc
      cases error with
      | some e => exact ⟨c.suppressed, states, by simp [land, hend, hl]⟩
      | none => exact ⟨states[c.index]?.getD c.suppressed, states, by simp [land, hend, hl]⟩

/-- Learning only adds states. It adds all that were asked for, or it meets a malformed directive on
one of the lines asked for. -/
theorem learn_spec (n : Nat) (c : Cursor) (h : Consistent c) :
    Consistent (learn n c).1 ∧
      ((learn n c).2 = none → min (c.states.size + n) c.lines.size ≤ (learn n c).1.states.size) ∧
      ∀ e, (learn n c).2 = some e → ∃ k, c.states.size < k ∧ k ≤ c.states.size + n ∧
        offAfter c.rule (c.lines.toList.take k) = .error e := by
  induction n generalizing c with
  | zero => exact ⟨h, fun _ => Nat.min_le_left _ _, by simp [learn]⟩
  | succ n ih =>
    cases hl : c.lines[c.states.size]? with
    | none =>
      have hle : c.lines.size ≤ c.states.size := Array.getElem?_eq_none_iff.mp hl
      simp only [learn, hl]
      exact ⟨h, fun _ => by omega, by simp⟩
    | some line =>
      cases ha : applyLine c.rule c.lastState line (c.states.size + 1 : Nat) with
      | error e =>
        simp only [learn, hl, ha]
        refine ⟨h, by simp, ?_⟩
        rintro e' ⟨rfl⟩
        exact ⟨c.states.size + 1, by omega, by omega, by rw [h.offAfter_next hl, ha]⟩
      | ok off =>
        obtain ⟨hcons, hsize, herror⟩ := ih _ (h.push hl ha)
        simp only [learn, hl, ha]
        simp only [Array.size_push] at hsize herror
        refine ⟨hcons, fun hn => ?_, fun e he => ?_⟩
        · have := hsize hn
          omega
        · obtain ⟨k, hlow, hhigh, hoff⟩ := herror e he
          exact ⟨k, by omega, by omega, hoff⟩

/-- A landing says what the text says. -/
theorem land_spec (h : Consistent c) :
    Consistent c.land.1 ∧ (c.land.2 = none → c.atEnd = false → Landed c.land.1) ∧
      ∀ e, c.land.2 = some e → offAfter c.rule c.linesRead = .error e := by
  by_cases hend : c.atEnd = true
  · simp only [land, hend, ↓reduceIte]
    exact ⟨h, by simp, by simp⟩
  · have hlt : c.index < c.lines.size := by simpa [atEnd] using hend
    obtain ⟨states, hc⟩ := learn_frame (c.index + 1 - c.states.size) c
    obtain ⟨hcons, hsize, herror⟩ := learn_spec (c.index + 1 - c.states.size) c h
    cases hl : learn (c.index + 1 - c.states.size) c with
    | mk d error =>
      rw [hl] at hc hcons hsize herror
      obtain rfl : d = { c with states := states } := hc
      cases error with
      | some e =>
        simp only [land, hend, hl]
        refine ⟨hcons, by simp, ?_⟩
        rintro e' ⟨rfl⟩
        obtain ⟨k, hlow, hhigh, hoff⟩ := herror e rfl
        have hk : k + (c.index + 1 - k) = c.index + 1 := by omega
        rw [linesRead, ← hk, List.take_add]
        exact offAfter_append_of_error hoff _
      | none =>
        have hknown : c.index < states.size := by
          have := hsize rfl
          simp only at this
          omega
        have hget : states[c.index]? = some states[c.index] := Array.getElem?_eq_getElem hknown
        simp only [land, hend, hl, hget]
        exact ⟨⟨hcons.index_le, hcons.size_le, hcons.state_eq⟩,
          fun _ _ => hcons.state_eq c.index states[c.index] hget, by simp⟩

/-- Whether a landing fails, and why, can be read off the lines down to it. -/
theorem land_failed_iff (h : Consistent c) (hin : c.atEnd = false) (e : MalformedDirective) :
    c.land.2 = some e ↔ offAfter c.rule c.linesRead = .error e := by
  obtain ⟨off, states, hframe⟩ := land_frame c
  obtain ⟨-, hlanded, herror⟩ := land_spec h
  refine ⟨herror e, fun hoff => ?_⟩
  cases hl : c.land.2 with
  | none =>
    have hok := hlanded hl hin
    rw [hframe] at hok
    have hread : offAfter c.rule c.linesRead = .ok off := hok
    rw [hoff] at hread
    cases hread
  | some e' =>
    have hread := herror e' hl
    rw [hoff] at hread
    rw [Except.error.inj hread]

theorem land_eq {d : Cursor} {error : Option MalformedDirective} (h : Consistent c)
    (hl : c.land = (d, error)) :
    (∃ off states, d = { c with suppressed := off, states := states }) ∧ Consistent d ∧
      (error = none → c.atEnd = false → Landed d) := by
  have hframe := land_frame c
  obtain ⟨hcons, hlanded, -⟩ := land_spec h
  rw [hl] at hframe hcons hlanded
  exact ⟨hframe, hcons, hlanded⟩

theorem Consistent.moveTo (h : Consistent c) {i : Nat} (hi : i ≤ c.lines.size) :
    Consistent { c with index := i } :=
  ⟨hi, h.size_le, h.state_eq⟩

theorem Consistent.down (h : Consistent c) (hend : ¬c.atEnd = true) :
    Consistent { c with index := c.index + 1 } :=
  h.moveTo (by simpa [atEnd, Nat.succ_le_iff] using hend)

theorem Consistent.up (h : Consistent c) : Consistent { c with index := c.index - 1 } :=
  h.moveTo (Nat.le_trans (Nat.sub_le _ _) h.index_le)

theorem forward_spec (n : Nat) (c : Cursor) (h : Consistent c) :
    Consistent (forward n c).1 ∧ (forward n c).1.rule = c.rule ∧
      ((forward n c).1.index ≠ c.index ∨ Landed c → (forward n c).2 = none →
        (forward n c).1.atEnd = false → Landed (forward n c).1) := by
  fun_induction forward n c with
  | case1 c => exact ⟨h, rfl, fun hm _ _ => hm.resolve_left (by simp)⟩
  | case2 n c hend => exact ⟨h, rfl, by simp [hend]⟩
  | case3 n c hend d hlast => exact ⟨h.down hend, rfl, by simp [hlast]⟩
  | case4 n c hend d hnext e error hl =>
    obtain ⟨⟨off, states, rfl⟩, hcons, -⟩ := land_eq (h.down hend) hl
    exact ⟨hcons, rfl, by simp⟩
  | case5 n c hend d hnext e hl ih =>
    obtain ⟨⟨off, states, rfl⟩, hcons, hlanded⟩ := land_eq (h.down hend) hl
    obtain ⟨h₁, h₂, h₃⟩ := ih hcons
    exact ⟨h₁, h₂, fun _ => h₃ (Or.inr (hlanded rfl (by simpa using hnext)))⟩

theorem backward_spec (n : Nat) (c : Cursor) (h : Consistent c) :
    Consistent (backward n c).1 ∧ (backward n c).1.rule = c.rule ∧
      ((backward n c).1.index ≠ c.index ∨ Landed c → (backward n c).2 = none →
        (backward n c).1.atEnd = false → Landed (backward n c).1) := by
  fun_induction backward n c with
  | case1 c => exact ⟨h, rfl, fun hm _ _ => hm.resolve_left (by simp)⟩
  | case2 n c hstart => exact ⟨h, rfl, fun hm _ _ => hm.resolve_left (by simp)⟩
  | case3 n c hstart e error hl =>
    obtain ⟨⟨off, states, rfl⟩, hcons, -⟩ := land_eq h.up hl
    exact ⟨hcons, rfl, by simp⟩
  | case4 n c hstart e hl ih =>
    obtain ⟨⟨off, states, rfl⟩, hcons, hlanded⟩ := land_eq h.up hl
    obtain ⟨h₁, h₂, h₃⟩ := ih hcons
    have hpos : c.index ≠ 0 := by simpa [atStart] using hstart
    have hin : Cursor.atEnd { c with index := c.index - 1 } = false := by
      have := h.index_le
      simp only [atEnd, ge_iff_le, decide_eq_false_iff_not, Nat.not_le]
      omega
    exact ⟨h₁, h₂, fun _ => h₃ (Or.inr (hlanded rfl hin))⟩

/-- A move by one line is a landing on the next one. -/
theorem advance_one (hend : c.atEnd = false) :
    c.advance 1 = land { c with index := c.index + 1 } := by
  have hforward : c.advance 1 = forward 1 c := rfl
  rw [hforward]
  by_cases hlast : Cursor.atEnd { c with index := c.index + 1 } = true
  · simp [forward, land, hend, hlast]
  · cases hl : land { c with index := c.index + 1 } with
    | mk d error => cases error <;> simp [forward, hend, hlast, hl]

/-- Behind the last line there is nothing to move on to. -/
theorem advance_one_of_atEnd (hend : c.atEnd = true) : c.advance 1 = (c, none) := by
  change forward 1 c = _
  simp [forward, hend]

@[simp] theorem atEnd_skipToEnd (c : Cursor) : c.skipToEnd.atEnd = true := by
  simp [atEnd, skipToEnd]

theorem advance_spec (h : Consistent c) (distance : Int) :
    Consistent (c.advance distance).1 ∧ (c.advance distance).1.rule = c.rule ∧
      ((c.advance distance).1.index ≠ c.index → (c.advance distance).2 = none →
        (c.advance distance).1.atEnd = false → Landed (c.advance distance).1) := by
  cases distance with
  | ofNat n =>
    obtain ⟨h₁, h₂, h₃⟩ := forward_spec n c h
    exact ⟨h₁, h₂, fun hm => h₃ (Or.inl hm)⟩
  | negSucc n =>
    obtain ⟨h₁, h₂, h₃⟩ := backward_spec (n + 1) c h
    exact ⟨h₁, h₂, fun hm => h₃ (Or.inl hm)⟩

/-- An edit leaves the lines before it alone, so the states kept for them stay right. -/
theorem Consistent.setText (h : Consistent c) (offset : Int64) (text : Bytes) :
    Consistent (c.setText offset text).1 := by
  unfold Cursor.setText
  cases c.target? offset with
  | none => exact h
  | some i =>
    refine ⟨by simpa using h.index_le, ?_, ?_⟩
    · simp only [Array.take_eq_extract, Array.size_extract, Array.size_setIfInBounds]
      have := h.size_le
      omega
    · intro j off hj
      have hji : j < i ∧ c.states[j]? = some off := by
        simp only [Array.take_eq_extract, Array.getElem?_extract] at hj
        split at hj
        · exact ⟨by omega, by simpa using hj⟩
        · simp at hj
      rw [Array.toList_setIfInBounds, List.take_set_of_le (by omega)]
      exact h.state_eq j off hji.2

@[simp] theorem rule_setText (c : Cursor) (offset : Int64) (text : Bytes) :
    (c.setText offset text).1.rule = c.rule := by
  unfold Cursor.setText
  cases c.target? offset <;> rfl

/-- Every operation keeps a cursor consistent. -/
theorem Consistent.perform (h : Consistent c) (op : Operation) :
    Consistent (c.perform op).1 ∧ (c.perform op).1.rule = c.rule := by
  cases op with
  | advance distance => exact ⟨(advance_spec h distance).1, (advance_spec h distance).2.1⟩
  | peek offset => exact ⟨h, rfl⟩
  | setText offset text => exact ⟨h.setText offset text, rule_setText c offset text⟩
  | setLine text => exact ⟨h.setText 0 text, rule_setText c 0 text⟩
  | skipToEnd => exact ⟨h.moveTo (Nat.le_refl _), rfl⟩
  | mark => exact ⟨⟨h.index_le, h.size_le, h.state_eq⟩, rfl⟩
  | markLine number => exact ⟨⟨h.index_le, h.size_le, h.state_eq⟩, rfl⟩
  | length => exact ⟨h, rfl⟩
  | ruleId => exact ⟨h, rfl⟩

theorem Consistent.performAll (h : Consistent c) (ops : List Operation) :
    Consistent (c.performAll ops) ∧ (c.performAll ops).rule = c.rule := by
  induction ops generalizing c with
  | nil => exact ⟨h, rfl⟩
  | cons op ops ih =>
    obtain ⟨hop, hrule⟩ := h.perform op
    obtain ⟨hops, hrules⟩ := ih hop
    exact ⟨hops, hrules.trans hrule⟩

theorem consistent_initial (lines : Array Bytes) (rule : Bytes) :
    Consistent { lines := lines, rule := rule } :=
  ⟨Nat.zero_le _, Nat.zero_le _, by simp⟩

theorem start_error {lines : Array Bytes} {rule : Bytes} {e : MalformedDirective}
    (h : start lines rule = .error e) : offAfter rule (lines.toList.take 1) = .error e := by
  obtain ⟨-, -, herror⟩ := land_spec (consistent_initial lines rule)
  cases hl : land { lines := lines, rule := rule } with
  | mk d error =>
    rw [hl] at herror
    cases error with
    | none => simp [start, hl] at h
    | some e' =>
      obtain rfl : e' = e := by simpa [start, hl] using h
      exact herror e' rfl

theorem start_spec {lines : Array Bytes} {rule : Bytes} (h : start lines rule = .ok c) :
    Consistent c ∧ c.rule = rule ∧ Landed c := by
  have hinitial := consistent_initial lines rule
  by_cases hempty : lines = #[]
  · subst hempty
    obtain rfl : { lines := #[], rule := rule } = c := Except.ok.inj h
    exact ⟨hinitial, rfl, rfl⟩
  · cases hl : land { lines := lines, rule := rule } with
    | mk d error =>
      obtain ⟨⟨off, states, rfl⟩, hcons, hlanded⟩ := land_eq hinitial hl
      cases error with
      | some e => simp [start, hl] at h
      | none =>
        simp only [start, hl, Except.ok.injEq] at h
        subst h
        have hin : Cursor.atEnd { lines := lines, rule := rule } = false := by
          simpa [atEnd, Nat.pos_iff_ne_zero] using hempty
        exact ⟨hcons, rfl, hlanded rfl hin⟩

theorem start_frame {lines : Array Bytes} {rule : Bytes} (h : start lines rule = .ok c) :
    ∃ off states, c = { lines := lines, rule := rule, suppressed := off, states := states } := by
  obtain ⟨off, states, hframe⟩ := land_frame { lines := lines, rule := rule }
  cases hl : land { lines := lines, rule := rule } with
  | mk d error =>
    rw [hl] at hframe
    cases error with
    | some e => simp [start, hl] at h
    | none =>
      simp only [start, hl, Except.ok.injEq] at h
      exact ⟨off, states, h ▸ hframe⟩

/-- No directive down to the current line is malformed, and the rule counts as off exactly when the
last directive for it there exists and switches it off. -/
def FollowsText (rule : Bytes) (c : Cursor) : Prop :=
  ∃ ds, readLines 1 c.linesRead = .ok ds ∧
    (c.suppressed = true ↔ ∃ d, lastFor? rule ds = some d ∧ d.enable = false)

theorem Landed.followsText (h : Landed c) : FollowsText c.rule c := readLines_of_offAfter h

/-- Whether a rule is off is a function of the text alone: on the first line, and wherever a move
leads after any history of moves, edits and marks. -/
theorem suppressed_followsText {lines : Array Bytes} {rule : Bytes}
    (h : start lines rule = .ok c) :
    FollowsText rule c ∧
      ∀ (ops : List Operation) (distance : Int) (after : Cursor) (number : Nat),
        (c.performAll ops).perform (.advance distance) = (after, .moved number none) →
        number ≠ (c.performAll ops).lineNumber → after.atEnd = false →
        FollowsText rule after := by
  obtain ⟨hcons, rfl, hlanded⟩ := start_spec h
  refine ⟨hlanded.followsText, ?_⟩
  intro ops distance after number hmove hchanged hin
  obtain ⟨hbefore, hrule⟩ := hcons.performAll ops
  obtain ⟨-, hsame, hland⟩ := advance_spec hbefore distance
  simp only [Cursor.perform, Prod.mk.injEq, Reply.moved.injEq] at hmove
  obtain ⟨rfl, rfl, hnone⟩ := hmove
  have hafter : Landed ((c.performAll ops).advance distance).1 :=
    hland (fun he => hchanged (by simp [lineNumber, he])) hnone hin
  rw [← hrule, ← hsame]
  exact hafter.followsText

/-- A move up after a malformed directive was met and mended, and the end of the text skipped to. -/
theorem suppressed_followsText_mended :
    let lines := #[utf8 "a\n", utf8 "X11_FUZZ: disable r\n", utf8 "b\n", utf8 "X11_FUZZ: enable\n"]
    let first : Cursor := { lines := lines, rule := utf8 "r", states := #[false] }
    let ops : List Operation := [.advance 3, .setLine (utf8 "c\n"), .skipToEnd]
    let after : Cursor :=
      { lines := lines.set! 3 (utf8 "c\n"), rule := utf8 "r", index := 2, suppressed := true
        states := #[false, true, true, true] }
    start lines (utf8 "r") = .ok first ∧
      (first.perform (.advance 3)).2 = .moved 4 (some ⟨4, utf8 "X11_FUZZ: enable"⟩) ∧
      (first.performAll ops).perform (.advance (-2)) = (after, .moved 3 none) ∧
      FollowsText (utf8 "r") after := by
  intro lines first ops after
  have hstart : start lines (utf8 "r") = .ok first := by decide
  have hmove : (first.performAll ops).perform (.advance (-2)) = (after, .moved 3 none) := by decide
  exact ⟨hstart, by decide, hmove,
    (suppressed_followsText hstart).2 ops (-2) after 3 hmove (by decide) (by decide)⟩

end Linewise.Cursor
