import Linewise.Proofs.ScanCoverage

/-!
# Where a cursor reads, edits and marks

Offsets are added to the index of a cursor in 64 bits. No sum that wraps around comes back into the
text, so a cursor reads and edits the line at an offset exactly when there is one. Whatever is done
with a cursor, it stays within its text, which keeps its length, and it knows in ascending order the
numbers that were marked, and no others.
-/

namespace Linewise.Cursor

variable {c : Cursor}

/-- The line at an offset is the one at the sum, computed without bounds. -/
theorem target?_eq_some_iff (hindex : c.index ≤ c.lines.size) (hsize : c.lines.size < 2 ^ 63)
    (offset : Int64) (i : Nat) :
    c.target? offset = some i ↔ (c.index : Int) + offset.toInt = i ∧ i < c.lines.size := by
  have hlow := offset.le_toInt
  have hhigh := offset.toInt_lt
  -- A sum that is too big for 64 bits comes out negative; none is too small.
  have hsum : (Int64.ofNat c.index + offset).toInt = c.index + offset.toInt ∨
      2 ^ 63 ≤ (c.index : Int) + offset.toInt ∧ (Int64.ofNat c.index + offset).toInt < 0 := by
    rw [Int64.toInt_add, Int64.toInt_ofNat_of_lt (by omega), Int.bmod_def]
    split <;> omega
  unfold target?
  simp only
  split
  next hout =>
    simp only [Bool.or_eq_true, decide_eq_true_eq] at hout
    simp only [reduceCtorEq, false_iff]
    omega
  next hin =>
    simp only [Bool.or_eq_true, decide_eq_true_eq] at hin
    rw [Option.some_inj]
    omega

theorem size_performAll (c : Cursor) (ops : List Operation) :
    (c.performAll ops).lines.size = c.lines.size := by
  induction ops generalizing c with
  | nil => rfl
  | cons op ops ih => exact (ih _).trans (size_perform c op)

/-- An operation marks what it is asked to mark, and nothing else. -/
theorem flags_perform (c : Cursor) (op : Operation) :
    Flags c.flagged (c.perform op).1.flagged (op.marks c.lineNumber) := by
  cases op with
  | advance distance =>
    obtain ⟨i, off, states, hframe⟩ := advance_frame c distance
    change Flags c.flagged (c.advance distance).1.flagged []
    rw [hframe]
    exact .refl _
  | setText offset text =>
    change Flags c.flagged (c.setText offset text).1.flagged []
    unfold setText
    cases c.target? offset <;> exact .refl _
  | setLine text =>
    change Flags c.flagged (c.setText 0 text).1.flagged []
    unfold setText
    cases c.target? 0 <;> exact .refl _
  | mark => exact .insert _ _
  | markLine n => exact .insert _ _
  | peek | skipToEnd | length | ruleId => exact .refl _

/-- The numbers that operations mark, one after the other. -/
def marked : Cursor → List Operation → List Int
  | _, [] => []
  | c, op :: ops => op.marks c.lineNumber ++ marked (c.perform op).1 ops

theorem flags_performAll (c : Cursor) (ops : List Operation) :
    Flags c.flagged (c.performAll ops).flagged (c.marked ops) := by
  induction ops generalizing c with
  | nil => exact .refl _
  | cons op ops ih => exact (flags_perform c op).trans (ih _)

/-- Marked are the numbers given and the numbers of the lines on which the cursor stood when it was
to mark the current line. -/
theorem mem_marked_iff (c : Cursor) (ops : List Operation) (n : Int) :
    n ∈ c.marked ops ↔ .markLine n ∈ ops ∨
      ∃ before after, ops = before ++ .mark :: after ∧ n = (c.performAll before).lineNumber := by
  induction ops generalizing c with
  | nil => simp [marked]
  | cons op ops ih =>
    have hlater : (∃ before after, op :: ops = before ++ .mark :: after ∧
          n = (c.performAll before).lineNumber) ↔
        (op = .mark ∧ n = c.lineNumber) ∨ ∃ before after, ops = before ++ .mark :: after ∧
          n = ((c.perform op).1.performAll before).lineNumber := by
      constructor
      · rintro ⟨before, after, hops, hn⟩
        cases before with
        | nil =>
          obtain ⟨rfl, -⟩ := List.cons.inj hops
          exact .inl ⟨rfl, hn⟩
        | cons first before =>
          obtain ⟨rfl, rfl⟩ := List.cons.inj hops
          exact .inr ⟨before, after, rfl, hn⟩
      · rintro (⟨rfl, hn⟩ | ⟨before, after, rfl, hn⟩)
        · exact ⟨[], ops, rfl, hn⟩
        · exact ⟨op :: before, after, rfl, hn⟩
    rw [marked, List.mem_append, ih, hlater, List.mem_cons]
    cases op <;> simp [Operation.marks] <;> tauto

/-- Reading, editing and marking are exact, whatever was done with the cursor before and whatever the
offset. `i` is the index at the offset, without bounds. -/
theorem performAll_exact {lines : Array Bytes} {rule : Bytes} {first : Cursor}
    (hstart : start lines rule = .ok first) (hsize : lines.size < 2 ^ 63) (ops : List Operation) :
    let c := first.performAll ops
    c.index ≤ c.lines.size ∧ c.lines.size = lines.size ∧
      c.flagged.Pairwise (· < ·) ∧
      (∀ n, n ∈ c.flagged ↔ .markLine n ∈ ops ∨
        ∃ before after, ops = before ++ .mark :: after ∧
          n = (first.performAll before).lineNumber) ∧
      ∀ offset : Int64,
        let i := (c.index : Int) + offset.toInt
        ((c.peek offset).isSome = true ↔ 0 ≤ i ∧ i < c.lines.size) ∧
          (0 ≤ i → c.peek offset = c.lines[i.toNat]?) ∧
          ∀ text, ((c.setText offset text).2 = true ↔ 0 ≤ i ∧ i < c.lines.size) ∧
            ((c.setText offset text).2 = true → ∃ states, (c.setText offset text).1 =
              { c with lines := c.lines.setIfInBounds i.toNat text, states := states }) ∧
            ((c.setText offset text).2 = false → (c.setText offset text).1 = c) := by
  intro c
  obtain ⟨off, states, hfirst⟩ := start_frame hstart
  have hindex : c.index ≤ c.lines.size := ((start_spec hstart).1.performAll ops).1.index_le
  have hlength : c.lines.size = lines.size := (size_performAll first ops).trans (by rw [hfirst])
  have hunmarked : first.flagged = [] := by rw [hfirst]
  have hflags : Flags [] c.flagged (first.marked ops) := hunmarked ▸ flags_performAll first ops
  refine ⟨hindex, hlength, hflags.increasing .nil, fun n => ?_, ?_⟩
  · rw [hflags.mem_iff, mem_marked_iff]
    simp
  · intro offset i
    have htarget := target?_eq_some_iff hindex (hlength ▸ hsize) offset
    unfold peek setText
    cases ht : c.target? offset with
    | some j =>
      obtain ⟨hi, hj⟩ := (htarget j).mp ht
      have hij : i = j := hi
      simp only [hij, Array.getElem?_eq_getElem hj]
      exact ⟨by simp [hj], by simp [hj], fun text => ⟨by simp [hj], fun _ => ⟨_, rfl⟩, by simp⟩⟩
    | none =>
      have hout : ¬(0 ≤ i ∧ i < c.lines.size) := by
        rintro ⟨hlow, hhigh⟩
        have hfound := (htarget i.toNat).mpr ⟨(Int.toNat_of_nonneg hlow).symm, by omega⟩
        rw [ht] at hfound
        cases hfound
      refine ⟨by simpa using hout, fun hlow => ?_, fun text => ⟨by simpa using hout, by simp, by simp⟩⟩
      rw [Array.getElem?_eq_none (by omega)]

/-- On the last of three lines the sum of index and biggest offset wraps around, and nothing happens;
the numbers marked, in no order, come out in order. -/
theorem performAll_exact_wrapping :
    let lines := #[utf8 "a\n", utf8 "b\n", utf8 "c\n"]
    let first : Cursor := { lines := lines, rule := utf8 "r", states := #[false] }
    let ops : List Operation := [.markLine (2 ^ 63 - 1), .advance 2, .mark, .markLine (-5), .mark]
    let c := first.performAll ops
    start lines (utf8 "r") = .ok first ∧ lines.size < 2 ^ 63 ∧
      c.flagged.Pairwise (· < ·) ∧ -5 ∈ c.flagged ∧ 3 ∈ c.flagged ∧ 2 ∉ c.flagged ∧
      (c.setText Int64.maxValue []).1 = c ∧ c.peek (-2) = some (utf8 "a\n") := by
  intro lines first ops c
  have hstart : start lines (utf8 "r") = .ok first := by decide
  have hsize : lines.size < 2 ^ 63 := by decide
  obtain ⟨-, -, hascending, hmarks, hoffsets⟩ := performAll_exact hstart hsize ops
  have hindex : (first.performAll ops).index = 2 := by decide
  have hline : (first.performAll ops).lines[0]? = some (utf8 "a\n") := by decide
  refine ⟨hstart, hsize, hascending, (hmarks _).mpr (.inl (by decide)), (hmarks _).mpr (.inr ?_),
    by decide, ?_, ?_⟩
  · exact ⟨[.markLine (2 ^ 63 - 1), .advance 2], [.markLine (-5), .mark], rfl, by decide⟩
  · obtain ⟨-, -, hedit⟩ := hoffsets Int64.maxValue
    exact (hedit []).2.2 (by decide)
  · obtain ⟨-, hread, -⟩ := hoffsets (-2)
    rw [hindex] at hread
    exact (hread (by decide)).trans hline

end Linewise.Cursor
