import Linewise.Proofs.CursorMoves
import Linewise.Proofs.MarkedNumbers
import Linewise.Proofs.ScanVisits
import Linewise.Proofs.TargetHistories

/-!
# Scans that go down

A visitor that never moves up is shown no line twice, and the lines from top to bottom; so its scan
ends. A visitor that neither moves nor edits misses nothing: it is shown every line above the first
malformed directive at which the rule is on, and the scan reports what it marked.
-/

namespace Linewise

namespace Cursor

/-- Whether an operation leaves the cursor where it is or moves it down. -/
def Operation.goesDown : Operation → Bool
  | .advance distance => 0 ≤ distance
  | _ => true

/-- Whether an operation only reads or marks. -/
def Operation.keepsText : Operation → Bool
  | .peek _ | .mark | .markLine _ | .length | .ruleId => true
  | .advance _ | .setText _ _ | .setLine _ | .skipToEnd => false

/-- The line numbers that an operation marks on the line with the given number. -/
def Operation.marks (number : Nat) : Operation → List Int
  | .mark => [number]
  | .markLine n => [n]
  | _ => []

variable {c : Cursor}

theorem le_index_forward (n : Nat) (c : Cursor) : c.index ≤ (forward n c).1.index := by
  fun_induction forward n c with
  | case1 c => exact Nat.le_refl _
  | case2 n c hend => exact Nat.le_refl _
  | case3 n c hend d hlast => exact Nat.le_succ _
  | case4 n c hend d hnext e error hl =>
    obtain ⟨off, states, hframe⟩ := land_frame d
    rw [hl] at hframe
    obtain rfl : e = _ := hframe
    exact Nat.le_succ _
  | case5 n c hend d hnext e hl ih =>
    obtain ⟨off, states, hframe⟩ := land_frame d
    rw [hl] at hframe
    obtain rfl : e = _ := hframe
    exact Nat.le_of_succ_le ih

theorem size_setText (c : Cursor) (offset : Int64) (text : Bytes) :
    (c.setText offset text).1.lines.size = c.lines.size ∧
      (c.setText offset text).1.index = c.index := by
  unfold setText
  cases c.target? offset <;> simp

theorem size_perform (c : Cursor) (op : Operation) :
    (c.perform op).1.lines.size = c.lines.size := by
  cases op with
  | advance distance =>
    obtain ⟨i, off, states, hframe⟩ := advance_frame c distance
    change (c.advance distance).1.lines.size = _
    rw [hframe]
  | setText offset text => exact (size_setText c offset text).1
  | setLine text => exact (size_setText c 0 text).1
  | peek | skipToEnd | mark | markLine | length | ruleId => rfl

theorem le_index_perform (h : Consistent c) {op : Operation} (hop : op.goesDown = true) :
    c.index ≤ (c.perform op).1.index := by
  cases op with
  | advance distance =>
    obtain ⟨n, rfl⟩ := Int.eq_ofNat_of_zero_le (by simpa [Operation.goesDown] using hop)
    exact le_index_forward n c
  | setText offset text => exact (size_setText c offset text).2.ge
  | setLine text => exact (size_setText c 0 text).2.ge
  | skipToEnd => exact h.index_le
  | peek | mark | markLine | length | ruleId => exact Nat.le_refl _

theorem performAll_down (h : Consistent c) {ops : List Operation}
    (hops : ∀ op ∈ ops, op.goesDown = true) :
    (c.performAll ops).lines.size = c.lines.size ∧ c.index ≤ (c.performAll ops).index := by
  induction ops generalizing c with
  | nil => exact ⟨rfl, Nat.le_refl _⟩
  | cons op ops ih =>
    obtain ⟨hsize, hindex⟩ := ih (h.perform op).1 fun op' hop' => hops op' (by simp [hop'])
    have hfirst := le_index_perform h (hops op (by simp))
    exact ⟨hsize.trans (size_perform c op), hfirst.trans hindex⟩

/-- Marks on a cursor: what was marked before and some more, in order and once each. -/
structure Flags (before flagged : List Int) (more : List Int) : Prop where
  increasing : before.Pairwise (· < ·) → flagged.Pairwise (· < ·)
  mem_iff : ∀ n, n ∈ flagged ↔ n ∈ before ∨ n ∈ more

theorem Flags.refl (numbers : List Int) : Flags numbers numbers [] := ⟨id, by simp⟩

theorem Flags.insert (numbers : List Int) (n : Int) : Flags numbers (insertNumber n numbers) [n] :=
  ⟨pairwise_insertNumber, fun k => by rw [mem_insertNumber, List.mem_singleton, or_comm]⟩

theorem Flags.trans {before flagged last more more' : List Int} (h : Flags before flagged more)
    (h' : Flags flagged last more') : Flags before last (more ++ more') :=
  ⟨h'.increasing ∘ h.increasing, fun n => by
    rw [h'.mem_iff, h.mem_iff, List.mem_append, or_assoc]⟩

/-- Reading and marking change nothing but the marks. -/
theorem perform_keepsText (c : Cursor) {op : Operation} (hop : op.keepsText = true) :
    ∃ flagged, (c.perform op).1 = { c with flagged := flagged } ∧
      Flags c.flagged flagged (op.marks c.lineNumber) := by
  cases op with
  | mark => exact ⟨_, rfl, .insert _ _⟩
  | markLine n => exact ⟨_, rfl, .insert _ _⟩
  | peek | length | ruleId => exact ⟨_, rfl, .refl _⟩
  | advance | setText | setLine | skipToEnd => simp [Operation.keepsText] at hop

theorem performAll_keepsText (c : Cursor) {ops : List Operation}
    (hops : ∀ op ∈ ops, op.keepsText = true) :
    ∃ flagged, c.performAll ops = { c with flagged := flagged } ∧
      Flags c.flagged flagged (ops.flatMap (·.marks c.lineNumber)) := by
  induction ops generalizing c with
  | nil => exact ⟨_, rfl, .refl _⟩
  | cons op ops ih =>
    obtain ⟨flagged, hfirst, hflags⟩ := perform_keepsText c (hops op (by simp))
    obtain ⟨last, hrest, hmore⟩ := ih (c.perform op).1 fun op' hop' => hops op' (by simp [hop'])
    rw [hfirst] at hrest hmore
    exact ⟨last, by rw [performAll, List.foldl_cons, ← performAll, hfirst, hrest], by
      simpa [lineNumber] using hflags.trans hmore⟩

end Cursor

namespace Scan
open Cursor Directive

variable {σ : Type}

/-! ## Visitors that never move up -/

/-- The visitor leaves the cursor where some operations on it lead, none of which moves it up. -/
def Downward (visit : Visitor σ) : Prop :=
  ∀ m c, ∃ ops : List Operation,
    (∀ op ∈ ops, op.goesDown = true) ∧ (visit m c).2.1 = c.performAll ops

theorem Downward.recording {visit : Visitor σ} (h : Downward visit) : Downward (recording visit) :=
  fun m c => h m.1 c

/-- What holds at every turn of a scan that goes down: the lines on record are above the cursor, from
top to bottom. -/
structure Descending (size : Nat) (a : (σ × List Cursor) × Cursor) : Prop where
  consistent : Consistent a.2
  size_eq : a.2.lines.size = size
  increasing : (a.1.2.map (·.index)).Pairwise (· < ·)
  above : ∀ i ∈ a.1.2.map (·.index), i < a.2.index

variable {size : Nat} {m : σ × List Cursor} {c : Cursor}

theorem Descending.within (h : Descending size (m, c)) : ∀ i ∈ m.2.map (·.index), i < size :=
  fun i hi => (h.above i hi).trans_le (h.consistent.index_le.trans_eq h.size_eq)

theorem Descending.record_concat (h : Descending size (m, c)) (hin : c.atEnd = false) :
    ((m.2 ++ [c]).map (·.index)).Pairwise (· < ·) ∧
      ∀ i ∈ (m.2 ++ [c]).map (·.index), i ≤ c.index ∧ i < size := by
  have hlt : c.index < size := by simpa [atEnd, ← h.size_eq] using hin
  rw [List.map_append, List.pairwise_append]
  refine ⟨⟨h.increasing, by simp, by simpa using h.above⟩, fun i hi => ?_⟩
  rcases List.mem_append.mp hi with hi | hi
  · exact ⟨(h.above i hi).le, h.within i hi⟩
  · obtain rfl : i = c.index := by simpa using hi
    exact ⟨Nat.le_refl _, hlt⟩

theorem Descending.turn {visit : Visitor σ} (hdown : Downward visit)
    {a b : (σ × List Cursor) × Cursor} (h : Descending size a)
    (hturn : Turn (Scan.recording visit) a b) : Descending size b := by
  cases hturn with
  | @skip m c c' hin hoff hmove =>
    obtain ⟨hcons, -, -⟩ := landed_of_advance_one h.consistent hmove
    obtain ⟨hlines, hindex⟩ := advance_one_frame hin
    rw [hmove] at hlines hindex
    simp only at hlines hindex
    exact ⟨hcons, by rw [hlines]; exact h.size_eq, h.increasing,
      fun i hi => by rw [hindex]; exact (h.above i hi).trans (Nat.lt_succ_self _)⟩
  | @look m m' c d c' hin hon hvisit hmove =>
    have hmemory : m'.2 = m.2 ++ [c] := congrArg (·.1.2) hvisit.symm
    have hcursor : (visit m.1 c).2.1 = d := congrArg (·.2.1) hvisit
    obtain ⟨ops, hops, hd⟩ := hdown m.1 c
    rw [hcursor] at hd
    subst hd
    obtain ⟨hsize, hindex⟩ := performAll_down h.consistent hops
    obtain ⟨hcons, -, -⟩ := landed_of_advance_one (h.consistent.performAll ops).1 hmove
    have hlines := lines_advance_one (c.performAll ops)
    have hbelow := lt_index_advance_one hindex (by simpa [atEnd, hsize] using hin)
    obtain ⟨hincreasing, hrecord⟩ := h.record_concat hin
    rw [hmove] at hlines hbelow
    simp only at hlines hbelow
    refine ⟨hcons, by rw [hlines, hsize]; exact h.size_eq, hmemory ▸ hincreasing, fun i hi => ?_⟩
    rw [hmemory] at hi
    exact (hrecord i hi).1.trans_lt hbelow

/-- A list of increasing numbers below a bound is no longer than the bound. -/
theorem length_le_of_increasing {indices : List Nat} (h : indices.Pairwise (· < ·))
    (hbound : ∀ i ∈ indices, i < size) : indices.length ≤ size := by
  have hnodup : indices.Nodup := h.imp Nat.ne_of_lt
  have hsub : indices ⊆ List.range size := fun i hi => List.mem_range.mpr (hbound i hi)
  simpa using (List.subperm_of_subset hnodup hsub).length_le

/-- The lines on record where a scan that goes down ends. -/
theorem record_drive_down {visit : Visitor σ} (hdown : Downward visit) (visits : Nat)
    (h : Descending size (m, c)) :
    let record := (drive (Scan.recording visit) visits m c).memory.2
    (record.map (·.index)).Pairwise (· < ·) ∧ record.length ≤ size := by
  obtain ⟨⟨m', d⟩, hturns, hends⟩ := drive_ends (Scan.recording visit) visits m c
  have hlast : Descending size (m', d) :=
    turns_keep (fun _ _ ha hturn => ha.turn hdown hturn) h hturns
  generalize drive (Scan.recording visit) visits m c = s at hends ⊢
  have hlength {record : List Cursor} (hpairwise : (record.map (·.index)).Pairwise (· < ·))
      (hwithin : ∀ i ∈ record.map (·.index), i < size) :
      (record.map (·.index)).Pairwise (· < ·) ∧ record.length ≤ size :=
    ⟨hpairwise, by simpa using length_le_of_increasing hpairwise hwithin⟩
  cases hends with
  | finished | exhausted | skipFailed => exact hlength hlast.increasing hlast.within
  | moveFailed hin hon hvisit | visitFailed hin hon hvisit | visitPanicked hin hon hvisit =>
    have hmemory := congrArg (·.1.2) hvisit.symm
    simp only [Scan.recording] at hmemory
    obtain ⟨hincreasing, hrecord⟩ := hlast.record_concat hin
    exact hmemory ▸ hlength hincreasing fun i hi => (hrecord i hi).2

theorem descending_start {lines : Array Bytes} {rule : Bytes} (memory : σ)
    (h : Cursor.start lines rule = .ok c) :
    Descending lines.size ((memory, ([] : List Cursor)), c) := by
  obtain ⟨off, states, rfl⟩ := start_frame h
  exact ⟨(start_spec h).1, rfl, by simp, by simp⟩

/-- A scan that goes down has as many visits as there are lines, and needs no more. -/
theorem ofLines_down {visit : Visitor σ} (hdown : Downward visit) (memory : σ)
    (lines : Array Bytes) (rule : Bytes) :
    let recorded := ofLines (Scan.recording visit) lines.size (memory, []) lines rule
    recorded.ending ≠ .exhausted ∧
      (∀ extra, ofLines (Scan.recording visit) (lines.size + extra) (memory, []) lines rule =
        recorded) ∧
      (recorded.memory.2.map (·.index)).Pairwise (· < ·) ∧ recorded.memory.2.length ≤ lines.size := by
  cases hs : Cursor.start lines rule with
  | error e => simp [ofLines, hs]
  | ok c =>
    have hfirst := descending_start memory hs
    have hnot : (drive (Scan.recording visit) lines.size (memory, []) c).ending ≠ .exhausted := by
      refine drive_not_exhausted (fun _ _ ha hturn => ha.turn hdown hturn) ?_ _ _ c hfirst
        (by rw [hfirst.size_eq]; omega)
      intro m c m' d h _ _ hvisit
      obtain ⟨ops, hops, hd⟩ := hdown.recording m c
      rw [hvisit] at hd
      obtain rfl : d = _ := hd
      exact performAll_down h.consistent hops
    simp only [ofLines, hs]
    exact ⟨hnot, fun extra => drive_add _ _ extra _ c hnot, record_drive_down hdown _ hfirst⟩

/-! ## Visitors that only read and mark -/

/-- The cursors that a visitor was shown and what it asked of them, oldest first. -/
abbrev Account := List (Cursor × List Operation)

/-- All line numbers that were marked. -/
def Account.marks (account : Account) : List Int :=
  account.flatMap fun (c, ops) => ops.flatMap (·.marks c.lineNumber)

/-- The indices of the lines that were shown. -/
def Account.shown (account : Account) : List Nat := account.map (·.1.index)

/-- The visitor that follows a plan: a plan says what to remember and what to ask of the cursor. -/
def following (plan : σ → Cursor → σ × List Operation) : Visitor σ := fun m c =>
  ((plan m c).1, c.performAll (plan m c).2, .next)

/-- The visitor that follows a plan and keeps an account. -/
def accounting (plan : σ → Cursor → σ × List Operation) : Visitor (σ × Account) := fun m c =>
  (((plan m.1 c).1, m.2 ++ [(c, (plan m.1 c).2)]), c.performAll (plan m.1 c).2, .next)

/-- The plan asks for nothing but reading and marking. -/
def OnlyMarks (plan : σ → Cursor → σ × List Operation) : Prop :=
  ∀ m c, ∀ op ∈ (plan m c).2, op.keepsText = true

theorem follows_accounting (plan : σ → Cursor → σ × List Operation) :
    Follows (fun m m' => m.1 = m') (accounting plan) (following plan) := by
  rintro m _ c rfl
  exact ⟨rfl, rfl⟩

/-- The directives of some lines can be read, and the last one for the rule, if there is any,
switches it on. -/
def LeavesOn (rule : Bytes) (lines : List Bytes) : Prop :=
  ∃ ds, readLines 1 lines = .ok ds ∧ ∀ d, lastFor? rule ds = some d → d.enable = true

theorem leavesOn_iff_of_offAfter {rule : Bytes} {lines : List Bytes} {off : Bool}
    (h : offAfter rule lines = .ok off) : LeavesOn rule lines ↔ off = false := by
  unfold offAfter at h
  cases hread : readLines 1 lines with
  | error e => simp [hread] at h
  | ok ds =>
    obtain rfl : apply rule false ds = off := by simpa [hread] using h
    rw [← Bool.not_eq_true, apply_false_eq_true_iff]
    constructor
    · rintro ⟨ds', hread', hon⟩ ⟨d, hd, hdisable⟩
      obtain rfl := Except.ok.inj (hread.symm.trans hread')
      simp [hon d hd] at hdisable
    · intro hnot
      refine ⟨ds, hread, fun d hd => ?_⟩
      by_contra henable
      exact hnot ⟨d, hd, by simpa using henable⟩

theorem leavesOn_iff (h : Landed c) : LeavesOn c.rule c.linesRead ↔ c.suppressed = false :=
  leavesOn_iff_of_offAfter h

/-- The line with a number has a property, and the directives down to it leave the rule on. -/
def Shows (rule : Bytes) (lines : List Bytes) (p : Bytes → Prop) (number : Nat) : Prop :=
  ∃ i line, number = i + 1 ∧ lines[i]? = some line ∧ LeavesOn rule (lines.take (i + 1)) ∧ p line

theorem shows_concat (rule : Bytes) (above : List Bytes) (line : Bytes) (p : Bytes → Prop)
    (number : Nat) : Shows rule (above ++ [line]) p number ↔ Shows rule above p number ∨
      number = above.length + 1 ∧ LeavesOn rule (above ++ [line]) ∧ p line := by
  constructor
  · rintro ⟨i, text, rfl, htext, hon, hp⟩
    rcases Nat.lt_trichotomy i above.length with hi | rfl | hi
    · rw [List.getElem?_append_left hi] at htext
      rw [List.take_append_of_le_length hi] at hon
      exact .inl ⟨i, text, rfl, htext, hon, hp⟩
    · obtain rfl : line = text := by simpa using htext
      rw [List.take_of_length_le (by simp)] at hon
      exact .inr ⟨rfl, hon, hp⟩
    · rw [List.getElem?_eq_none (by simp; omega)] at htext
      cases htext
  · rintro (⟨i, text, rfl, htext, hon, hp⟩ | ⟨rfl, hon, hp⟩)
    · have hi : i < above.length := (List.getElem?_eq_some_iff.mp htext).1
      refine ⟨i, text, rfl, ?_, ?_, hp⟩
      · rw [List.getElem?_append_left hi, htext]
      · rwa [List.take_append_of_le_length hi]
    · refine ⟨above.length, line, rfl, by simp, ?_, hp⟩
      rwa [List.take_of_length_le (by simp)]

theorem Shows.le_length {rule : Bytes} {lines : List Bytes} {p : Bytes → Prop} {number : Nat}
    (h : Shows rule lines p number) : number ≤ lines.length := by
  obtain ⟨i, line, rfl, hline, -⟩ := h
  exact (List.getElem?_eq_some_iff.mp hline).1

/-- The account of the lines above an index: all at which the rule is on, from top to bottom. -/
structure Account.Covers (rule : Bytes) (lines : List Bytes) (account : Account) (n : Nat) :
    Prop where
  increasing : account.shown.Pairwise (· < ·)
  mem_iff : ∀ i, i ∈ account.shown ↔ i < n ∧ LeavesOn rule (lines.take (i + 1))

namespace Account.Covers

variable {rule : Bytes} {lines : List Bytes} {account : Account} {n : Nat}

theorem nil : Covers rule lines [] 0 := ⟨by simp [Account.shown], by simp [Account.shown]⟩

theorem skip (h : Covers rule lines account n) (hoff : ¬LeavesOn rule (lines.take (n + 1))) :
    Covers rule lines account (n + 1) := by
  refine ⟨h.increasing, fun i => ?_⟩
  rw [h.mem_iff, Nat.lt_succ_iff_lt_or_eq, or_and_right, iff_self_or]
  rintro ⟨rfl, hon⟩
  exact absurd hon hoff

theorem look (h : Covers rule lines account c.index)
    (hon : LeavesOn rule (lines.take (c.index + 1))) (ops : List Operation) :
    Covers rule lines (account ++ [(c, ops)]) (c.index + 1) := by
  have hshown : Account.shown (account ++ [(c, ops)]) = account.shown ++ [c.index] := by
    simp [Account.shown]
  refine ⟨?_, fun i => ?_⟩
  · rw [hshown, List.pairwise_append]
    exact ⟨h.increasing, by simp, fun i hi j hj => by
      rw [List.mem_singleton.mp hj]
      exact ((h.mem_iff i).mp hi).1⟩
  · rw [hshown, List.mem_append, List.mem_singleton, h.mem_iff, Nat.lt_succ_iff_lt_or_eq,
      or_and_right]
    refine or_congr_right ⟨?_, And.left⟩
    rintro rfl
    exact ⟨rfl, hon⟩

end Account.Covers

variable {rule : Bytes} {lines : Array Bytes}

/-- What holds at every turn of a scan with an account: the text is as it was and can be read down to
the cursor, the account covers the lines above it, and the marks are those of the account. -/
structure Surveyed (rule : Bytes) (lines : Array Bytes) (a : (σ × Account) × Cursor) : Prop where
  consistent : Consistent a.2
  rule_eq : a.2.rule = rule
  lines_eq : a.2.lines = lines
  landed : a.2.atEnd = false → Landed a.2
  readable : ∀ m ∈ firstMalformed? lines.toList, a.2.index ≤ m
  covers : a.1.2.Covers rule lines.toList a.2.index
  flags : Flags [] a.2.flagged a.1.2.marks

namespace Surveyed

variable {m m' : σ × Account} {c d c' : Cursor} {e : MalformedDirective}

theorem leavesOn_iff (h : Surveyed rule lines (m, c)) (hin : c.atEnd = false) :
    LeavesOn rule (lines.toList.take (c.index + 1)) ↔ c.suppressed = false := by
  rw [← Scan.leavesOn_iff (h.landed hin), linesRead]
  obtain rfl := h.rule_eq
  obtain rfl := h.lines_eq
  rfl

/-- Moving on from a line, with whatever was marked there, leads to the next line or fails because
that is the one with the first malformed directive. -/
theorem move (h : Surveyed rule lines (m, c)) (hin : c.atEnd = false) {flagged : List Int}
    {error : Option MalformedDirective}
    (hmove : Cursor.advance { c with flagged := flagged } 1 = (c', error)) :
    c'.flagged = flagged ∧ c'.lines = lines ∧
      (∀ e, error = some e → Blames lines.toList (c.index + 1) e) ∧
      (error = none → ∀ (memory : σ) (account : Account),
        account.Covers rule lines.toList (c.index + 1) → Flags [] flagged account.marks →
          Surveyed rule lines ((memory, account), c')) := by
  obtain ⟨hcons, hrule, rfl, hlanded, hreadable, -, -⟩ := h
  have hlt : c.index < c.lines.size := by simpa [atEnd] using hin
  have hcons' : Consistent { c with flagged := flagged } :=
    ⟨hcons.index_le, hcons.size_le, hcons.state_eq⟩
  have hread : Readable c c.index := (hlanded hin).readable
  rw [advance_one (c := { c with flagged := flagged }) hin] at hmove
  obtain ⟨off, states, hframe⟩ := land_frame { c with flagged := flagged, index := c.index + 1 }
  rw [hmove] at hframe
  obtain rfl : c' = _ := hframe
  refine ⟨rfl, rfl, ?_, ?_⟩
  · rintro e rfl
    have hin' : c.index + 1 < c.lines.size := by
      by_contra hend
      have hatEnd : Cursor.atEnd { c with flagged := flagged, index := c.index + 1 } = true := by
        simp only [atEnd, ge_iff_le, decide_eq_true_eq]
        omega
      simp [land, hatEnd] at hmove
    obtain ⟨k, hk, hblames⟩ := (land_fails_iff (hcons'.moveTo (Nat.succ_le_of_lt hlt)) hin' e).mp
      (by rw [hmove])
    have hbelow := hread k hblames.1
    change k ≤ c.index + 1 at hk
    obtain rfl : k = c.index + 1 := by omega
    exact hblames
  · rintro rfl memory account hcovers hflags
    obtain ⟨-, hcons'', hlanded'⟩ := land_eq (hcons'.moveTo (Nat.succ_le_of_lt hlt)) hmove
    exact ⟨hcons'', hrule, rfl, hlanded' rfl, fun m hm => hread m hm, hcovers, hflags⟩

/-- A visit by a plan that only marks changes the marks of the cursor and adds to the account. -/
theorem visit {plan : σ → Cursor → σ × List Operation} (hplan : OnlyMarks plan)
    (h : Surveyed rule lines (m, c)) (hin : c.atEnd = false) (hon : c.suppressed = false)
    {request : Visit} (hvisit : accounting plan m c = (m', d, request)) :
    request = .next ∧ ∃ flagged, d = { c with flagged := flagged } ∧
      m'.2.Covers rule lines.toList (c.index + 1) ∧ Flags [] flagged m'.2.marks := by
  obtain ⟨flags, hd, hflags⟩ := performAll_keepsText c (hplan m.1 c)
  simp only [accounting, hd, Prod.mk.injEq] at hvisit
  obtain ⟨rfl, rfl, rfl⟩ := hvisit
  have hmarks : Account.marks (m.2 ++ [(c, (plan m.1 c).2)]) =
      m.2.marks ++ (plan m.1 c).2.flatMap (·.marks c.lineNumber) := by simp [Account.marks]
  exact ⟨rfl, flags, rfl, h.covers.look ((h.leavesOn_iff hin).mpr hon) _,
    hmarks ▸ h.flags.trans hflags⟩

theorem turn {plan : σ → Cursor → σ × List Operation} (hplan : OnlyMarks plan)
    {a b : (σ × Account) × Cursor} (h : Surveyed rule lines a)
    (hturn : Turn (accounting plan) a b) : Surveyed rule lines b := by
  cases hturn with
  | @skip m c c' hin hoff hmove =>
    have hskip := h.covers.skip (by simp [h.leavesOn_iff hin, hoff])
    exact (h.move hin hmove).2.2.2 rfl m.1 m.2 hskip h.flags
  | @look m m' c d c' hin hon hvisit hmove =>
    obtain ⟨-, flagged, rfl, hlook, hflags⟩ := h.visit hplan hin hon hvisit
    exact (h.move hin hmove).2.2.2 rfl m'.1 m'.2 hlook hflags

end Surveyed

/-- A scan with an account that ended: the account covers the lines above the first malformed
directive, which the scan reports, or all lines. -/
structure Complete (rule : Bytes) (lines : Array Bytes) (s : Scan (σ × Account)) : Prop where
  lines_eq : s.lines = lines
  flags : Flags [] s.flagged s.memory.2.marks
  covers : ∃ n, s.memory.2.Covers rule lines.toList n ∧
    (n = lines.size ∧ firstMalformed? lines.toList = none ∧ s.ending = .finished ∨
      ∃ e, Blames lines.toList n e ∧ s.ending = .failed (.directive e))

theorem complete_drive {plan : σ → Cursor → σ × List Operation} (hplan : OnlyMarks plan)
    {m : σ × Account} {visits : Nat} (h : Surveyed rule lines (m, c))
    (hvisits : lines.size ≤ visits + c.index) :
    Complete rule lines (drive (accounting plan) visits m c) := by
  have hturn {a b : (σ × Account) × Cursor} (ha : Surveyed rule lines a)
      (hab : Turn (accounting plan) a b) : Surveyed rule lines b := ha.turn hplan hab
  obtain ⟨⟨m', d⟩, hturns, hends⟩ := drive_ends (accounting plan) visits m c
  have hd : Surveyed rule lines (m', d) := turns_keep (fun _ _ => hturn) h hturns
  have hnot : (drive (accounting plan) visits m c).ending ≠ .exhausted := by
    refine drive_not_exhausted (fun _ _ => hturn) ?_ _ _ c h (h.lines_eq ▸ hvisits)
    intro m c m' d hc hin hon hvisit
    obtain ⟨-, flagged, rfl, -⟩ := hc.visit hplan hin hon hvisit
    exact ⟨rfl, Nat.le_refl _⟩
  generalize drive (accounting plan) visits m c = s at hends hnot ⊢
  cases hends with
  | finished hend =>
    have hindex : d.index = lines.size := by
      have hle := hd.consistent.index_le
      simp only [atEnd, ge_iff_le, decide_eq_true_eq] at hend
      rw [← hd.lines_eq]
      exact Nat.le_antisymm hle hend
    refine ⟨hd.lines_eq, hd.flags, lines.size, hindex ▸ hd.covers, Or.inl ⟨rfl, ?_, rfl⟩⟩
    refine Option.eq_none_iff_forall_not_mem.mpr fun k hk => ?_
    have hle : d.index ≤ k := hd.readable k hk
    have hlt : k < lines.size := by
      simpa using (List.findIdx?_eq_some_iff_getElem.mp (Option.mem_def.mp hk)).1
    omega
  | exhausted => exact absurd rfl hnot
  | skipFailed hin hoff hmove =>
    obtain ⟨hflagged, hlines, hblames, -⟩ := hd.move hin hmove
    have hskip := hd.covers.skip (by simp [hd.leavesOn_iff hin, hoff])
    exact ⟨hlines, by simpa [stop, hflagged] using hd.flags, _, hskip,
      Or.inr ⟨_, hblames _ rfl, rfl⟩⟩
  | moveFailed hin hon hvisit hmove =>
    obtain ⟨-, flagged, rfl, hlook, hflags⟩ := hd.visit hplan hin hon hvisit
    obtain ⟨hflagged, hlines, hblames, -⟩ := hd.move hin hmove
    exact ⟨hlines, by simpa [stop, hflagged] using hflags, _, hlook, Or.inr ⟨_, hblames _ rfl, rfl⟩⟩
  | visitFailed hin hon hvisit =>
    obtain ⟨hrequest, -⟩ := hd.visit hplan hin hon hvisit
    cases hrequest
  | visitPanicked hin hon hvisit =>
    obtain ⟨hrequest, -⟩ := hd.visit hplan hin hon hvisit
    cases hrequest

theorem complete_ofLines {plan : σ → Cursor → σ × List Operation} (hplan : OnlyMarks plan)
    (memory : σ) (lines : Array Bytes) (rule : Bytes) :
    Complete rule lines (ofLines (accounting plan) lines.size (memory, []) lines rule) := by
  unfold ofLines
  cases hs : Cursor.start lines rule with
  | error e =>
    obtain ⟨k, hk, hblames⟩ :=
      (offAfter_take_eq_error_iff rule lines.toList 1 e).mp (start_error hs)
    obtain rfl : k = 0 := by omega
    exact ⟨rfl, .refl [], 0, .nil, Or.inr ⟨e, hblames, rfl⟩⟩
  | ok c =>
    obtain ⟨hcons, hrule, hlanded⟩ := start_spec hs
    obtain ⟨off, states, rfl⟩ := start_frame hs
    exact complete_drive hplan
      ⟨hcons, hrule, rfl, fun _ => hlanded, fun _ _ => Nat.zero_le _, .nil, .refl []⟩ (by omega)

end Scan

namespace Target
open Scan Directive

variable {t loaded : Target} {tree : FileTree}

theorem pairwise_lineNumber {α : Type} {cursor : α → Cursor} {entries : List α}
    (h : (entries.map fun entry => (cursor entry).index).Pairwise (· < ·)) :
    (entries.map fun entry => (cursor entry).lineNumber).Pairwise (· < ·) := by
  rw [List.pairwise_map] at h ⊢
  exact h.imp Nat.succ_lt_succ

/-- A scan ends and misses nothing. A visitor that never moves up is called at most once for each
line, from top to bottom, and a bound on the number of calls makes no difference. A visitor that only
reads and marks is called exactly for the lines above the first malformed directive at which the rule
is on; the scan then fails with that directive, or finishes, and has the marked numbers in order. -/
theorem scan_misses_nothing (hfile : t.kind = .file) (hload : t.load tree = .ok loaded)
    (rule : Bytes) :
    (∀ {σ : Type} (visit : Visitor σ) (memory : σ), Downward visit →
      let recorded := t.scan tree rule (recording visit) (memory, []) none
      recorded.1 = (t.scan tree rule visit memory none).1 ∧
        Alike (fun m m' => m.1 = m') recorded.2 (t.scan tree rule visit memory none).2 ∧
        recorded.2.ending ≠ .exhausted ∧
        (∀ visits ≥ loaded.lines.size,
          t.scan tree rule (recording visit) (memory, []) (some visits) = recorded) ∧
        recorded.2.memory.2.length ≤ loaded.lines.size ∧
        (recorded.2.memory.2.map (·.lineNumber)).Pairwise (· < ·)) ∧
    ∀ {σ : Type} (plan : σ → Cursor → σ × List Cursor.Operation) (memory : σ), OnlyMarks plan →
      let kept := t.scan tree rule (accounting plan) (memory, []) none
      let numbers := kept.2.memory.2.map (·.1.lineNumber)
      let lines := loaded.lines.toList
      kept.1 = (t.scan tree rule (following plan) memory none).1 ∧
        Alike (fun m m' => m.1 = m') kept.2 (t.scan tree rule (following plan) memory none).2 ∧
        numbers.Pairwise (· < ·) ∧
        (∀ i, i + 1 ∈ numbers ↔ i < lines.length ∧ (∀ m ∈ firstMalformed? lines, i < m) ∧
          LeavesOn rule (lines.take (i + 1))) ∧
        (∀ m ∈ firstMalformed? lines,
          ∃ e, kept.2.ending = .failed (.directive e) ∧ e.line = m + 1) ∧
        (firstMalformed? lines = none → kept.2.ending = .finished) ∧
        kept.2.flagged.Pairwise (· < ·) ∧
        ∀ n, n ∈ kept.2.flagged ↔ n ∈ kept.2.memory.2.marks := by
  constructor
  · intro σ visit memory hdown recorded
    obtain ⟨htarget, halike⟩ := alike_scan (follows_recording visit) rfl t tree rule none
    obtain ⟨hnot, hextra, hincreasing, hlength⟩ := ofLines_down hdown memory loaded.lines rule
    refine ⟨htarget, halike, ?_⟩
    simp only [recorded, scan_of_load hfile hload, Option.getD_none, Option.getD_some]
    refine ⟨hnot, fun visits hvisits => ?_, hlength, pairwise_lineNumber hincreasing⟩
    rw [← Nat.add_sub_of_le hvisits, hextra]
  · intro σ plan memory hplan kept numbers lines
    obtain ⟨htarget, halike⟩ := alike_scan (follows_accounting plan) rfl t tree rule none
    have hkept : kept.2 =
        ofLines (accounting plan) loaded.lines.size (memory, []) loaded.lines rule := by
      simp only [kept, scan_of_load hfile hload, Option.getD_none]
    obtain ⟨-, hflags, n, hcovers, hends⟩ := complete_ofLines hplan memory loaded.lines rule
    rw [← hkept] at hflags hcovers hends
    refine ⟨htarget, halike, pairwise_lineNumber hcovers.increasing, fun i => ?_, fun m hm => ?_,
      fun hnone => ?_, hflags.increasing List.Pairwise.nil, fun k => by simpa using hflags.mem_iff k⟩
    · have hmem : i + 1 ∈ numbers ↔ i ∈ kept.2.memory.2.shown := by
        simp [numbers, Account.shown, Cursor.lineNumber]
      rw [hmem, hcovers.mem_iff, ← and_assoc]
      refine and_congr_left fun _ => ?_
      rcases hends with ⟨rfl, hnone, -⟩ | ⟨e, hblames, -⟩
      · simp [lines, hnone]
      · have hlt : n < lines.length :=
          (List.findIdx?_eq_some_iff_getElem.mp hblames.1).1
        simp only [lines, hblames.1, Option.mem_def, Option.some.injEq, forall_eq']
        exact ⟨fun hi => ⟨hi.trans hlt, hi⟩, And.right⟩
    · rcases hends with ⟨-, hnone, -⟩ | ⟨e, hblames, hfailed⟩
      · simp [lines, hnone] at hm
      · obtain rfl : n = m := Option.some.inj (hblames.1.symm.trans hm)
        exact ⟨e, hfailed, hblames.line_eq⟩
    · rcases hends with ⟨-, -, hfinished⟩ | ⟨e, hblames, -⟩
      · exact hfinished
      · simp [lines, hblames.1] at hnone

/-- This visitor edits the line that it is shown and leaves out the next one. -/
def leaper : Visitor Unit := fun m c =>
  (m, c.performAll [.setLine (utf8 "x\n"), .advance 1], .next)

/-- This plan marks the line that it is shown, the first line and the line that it is shown again. -/
def marker : Unit → Cursor → Unit × List Cursor.Operation := fun m _ =>
  (m, [.mark, .markLine 1, .mark])

/-- The rule is off on the second and third line, and the sixth has a malformed directive. -/
theorem scan_misses_nothing_windowed :
    let lines := #[utf8 "a\n", utf8 "X11_FUZZ: disable r\n", utf8 "b\n", utf8 "X11_FUZZ: enable r\n",
      utf8 "c\n", utf8 "X11_FUZZ: enable\n", utf8 "d\n"]
    let t : Target := ⟨utf8 "f", utf8 "/f", .file, some ⟨lines, lines⟩⟩
    let recorded := (t.scan default (utf8 "r") (recording leaper) ((), []) none).2
    let kept := (t.scan default (utf8 "r") (accounting marker) ((), []) none).2
    (recorded.memory.2.map (·.lineNumber) = [1, 4] ∧ recorded.ending ≠ .exhausted) ∧
      kept.memory.2.map (·.1.lineNumber) = [1, 4, 5] ∧
      (∃ e, kept.ending = .failed (.directive e) ∧ e.line = 6) ∧
      ∀ n, n ∈ kept.flagged ↔ n ∈ kept.memory.2.marks := by
  intro lines t recorded kept
  have hdown : Downward leaper := fun m c => ⟨_, by decide, rfl⟩
  have hmarks : OnlyMarks marker := fun m c => by simp [marker, Cursor.Operation.keepsText]
  have hrecorded : recorded.memory.2.map (·.lineNumber) = [1, 4] := by decide +kernel
  have hkept : kept.memory.2.map (·.1.lineNumber) = [1, 4, 5] := by decide +kernel
  have hfirst : 5 ∈ firstMalformed? t.lines.toList := by decide +kernel
  obtain ⟨hleap, hmark⟩ := @scan_misses_nothing t t default rfl rfl (utf8 "r")
  replace hleap := hleap leaper () hdown
  replace hmark := hmark marker () hmarks
  simp only [recorded, kept] at hrecorded hkept ⊢
  generalize t.scan default (utf8 "r") (recording leaper) ((), []) none = out at hrecorded hleap ⊢
  generalize t.scan default (utf8 "r") (accounting marker) ((), []) none = out' at hkept hmark ⊢
  obtain ⟨-, -, hnot, -⟩ := hleap
  obtain ⟨-, -, -, -, hfails, -, -, hflagged⟩ := hmark
  exact ⟨⟨hrecorded, hnot⟩, hkept, hfails 5 hfirst, hflagged⟩

end Target

end Linewise
