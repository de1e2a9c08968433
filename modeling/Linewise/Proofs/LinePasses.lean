import Linewise.Proofs.PairedScans

/-!
# Passes over lines

A visitor that looks at the line it is shown, marks numbers and may leave the text for good goes
through a text the way a recursion over its lines does: directives are read line by line, until the
visitor leaves, and nothing below that line has any influence.
-/

namespace Linewise.Scan
open Cursor Directive

variable {σ : Type}

/-- What a reader does about a line: what it remembers, the numbers that it marks and whether it
leaves the text. -/
structure Reaction (σ : Type) where
  memory : σ
  marks : List Int := []
  leaves : Bool := false

/-- A reader reacts to the lines that it is shown, one at a time, with their numbers. -/
abbrev Reader (σ : Type) := σ → Nat → Bytes → Reaction σ

/-- Some marks and more of them. -/
def markAll (flagged marks : List Int) : List Int :=
  marks.foldl (fun flagged n => insertNumber n flagged) flagged

/-- The visitor that does what a reader does. -/
def reacting (react : Reader σ) : Visitor σ := fun m c =>
  let r := react m c.lineNumber c.line
  let d := { c with flagged := markAll c.flagged r.marks }
  (r.memory, if r.leaves then d.skipToEnd else d, .next)

/-- The memory and the marks of a reader behind the lines from number `n` on, and how it ends there,
when the rule is off (`off`) or on before them. -/
def pass (rule : Bytes) (react : Reader σ) :
    Bool → Nat → σ → List Int → List Bytes → σ × List Int × Ending
  | _, _, m, flagged, [] => (m, flagged, .finished)
  | off, n, m, flagged, line :: rest =>
    match applyLine rule off line n with
    | .error e => (m, flagged, .failed (.directive e))
    | .ok true => pass rule react true (n + 1) m flagged rest
    | .ok false =>
      let r := react m n line
      if r.leaves then (r.memory, markAll flagged r.marks, .finished)
      else pass rule react false (n + 1) r.memory (markAll flagged r.marks) rest

section Pass

variable {rule : Bytes} {react : Reader σ} {off : Bool} {n : Nat} {m : σ} {flagged : List Int}
  {line : Bytes} {rest : List Bytes}

@[simp] theorem pass_nil : pass rule react off n m flagged [] = (m, flagged, .finished) := rfl

theorem pass_error {e : MalformedDirective} (h : applyLine rule off line n = .error e) :
    pass rule react off n m flagged (line :: rest) = (m, flagged, .failed (.directive e)) := by
  simp [pass, h]

theorem pass_off (h : applyLine rule off line n = .ok true) :
    pass rule react off n m flagged (line :: rest) =
      pass rule react true (n + 1) m flagged rest := by
  simp [pass, h]

theorem pass_leave (h : applyLine rule off line n = .ok false)
    (hleaves : (react m n line).leaves = true) :
    pass rule react off n m flagged (line :: rest) =
      ((react m n line).memory, markAll flagged (react m n line).marks, .finished) := by
  simp [pass, h, hleaves]

theorem pass_stay (h : applyLine rule off line n = .ok false)
    (hstays : (react m n line).leaves = false) :
    pass rule react off n m flagged (line :: rest) =
      pass rule react false (n + 1) (react m n line).memory
        (markAll flagged (react m n line).marks) rest := by
  simp [pass, h, hstays]

end Pass

variable {rule : Bytes} {react : Reader σ} {lines : Array Bytes} {out : σ × List Int × Ending}

/-- What holds at every turn of a scan for a reader: a pass over the lines from the cursor on comes to
the outcome. -/
structure Ahead (rule : Bytes) (react : Reader σ) (lines : Array Bytes) (out : σ × List Int × Ending)
    (a : σ × Cursor) : Prop where
  consistent : Consistent a.2
  rule_eq : a.2.rule = rule
  lines_eq : a.2.lines = lines
  landed : a.2.atEnd = false → Landed a.2
  left : a.2.atEnd = true → out = (a.1, a.2.flagged, .finished)
  ahead : a.2.atEnd = false → ∃ off, offAfter rule (lines.toList.take a.2.index) = .ok off ∧
    out = pass rule react off (a.2.index + 1) a.1 a.2.flagged (lines.toList.drop a.2.index)

namespace Ahead

variable {m m' : σ} {c c' d : Cursor} {flagged : List Int}

/-- The line under the cursor comes first, and the directives down to it say whether it is shown. -/
theorem cons (h : Ahead rule react lines out (m, c)) (hsize : lines.size < 2 ^ 63)
    (hin : c.atEnd = false) :
    offAfter rule (lines.toList.take (c.index + 1)) = .ok c.suppressed ∧
      ∃ off, applyLine rule off c.line c.lineNumber = .ok c.suppressed ∧
        out = pass rule react off c.lineNumber m c.flagged
          (c.line :: lines.toList.drop (c.index + 1)) := by
  obtain ⟨-, rfl, rfl, hlanded, -, hahead⟩ := h
  simp only at hlanded hahead hsize ⊢
  obtain ⟨off, hoff, hout⟩ := hahead hin
  have hline := line_eq hsize hin
  refine ⟨hlanded hin, off, ?_, ?_⟩
  · exact (offAfter_take_succ hline hoff).symm.trans (hlanded hin)
  · have hlist : c.lines.toList[c.index]? = some c.line := by simpa using hline
    obtain ⟨hlt, hget⟩ := List.getElem?_eq_some_iff.mp hlist
    rw [hout, List.drop_eq_getElem_cons hlt, hget]
    rfl

/-- Moving on from a line leads to the next one or fails as the pass does. -/
theorem move (h : Ahead rule react lines out (m, c)) (hin : c.atEnd = false) {off : Bool}
    (hoff : offAfter rule (lines.toList.take (c.index + 1)) = .ok off)
    (hout : out = pass rule react off (c.index + 2) m' flagged (lines.toList.drop (c.index + 1)))
    {error : Option MalformedDirective}
    (hmove : Cursor.advance { c with flagged := flagged } 1 = (c', error)) :
    c'.flagged = flagged ∧ c'.lines = lines ∧
      (error = none → Ahead rule react lines out (m', c')) ∧
      ∀ e, error = some e → out = (m', flagged, .failed (.directive e)) := by
  obtain ⟨hcons, rfl, rfl, -, -, -⟩ := h
  have hlt : c.index < c.lines.size := by simpa [atEnd] using hin
  have hcons' : Consistent { c with flagged := flagged, index := c.index + 1 } :=
    ⟨hlt, hcons.size_le, hcons.state_eq⟩
  rw [advance_one (c := { c with flagged := flagged }) hin] at hmove
  obtain ⟨hframe, hconsistent, hlanded⟩ := land_eq hcons' hmove
  obtain ⟨off', states, rfl⟩ := hframe
  refine ⟨rfl, rfl, ?_, ?_⟩
  · rintro rfl
    refine ⟨hconsistent, rfl, rfl, hlanded rfl, fun hend => ?_, fun _ => ⟨off, hoff, hout⟩⟩
    have hnil : c.lines.toList.drop (c.index + 1) = [] := by
      have hle : c.lines.size ≤ c.index + 1 := of_decide_eq_true hend
      exact List.drop_eq_nil_of_le (by simpa using hle)
    rw [hout, hnil]
    rfl
  · rintro e rfl
    have hin' : c.index + 1 < c.lines.size := by
      by_contra hend
      have hatEnd : Cursor.atEnd { c with flagged := flagged, index := c.index + 1 } = true := by
        simp only [atEnd, ge_iff_le, decide_eq_true_eq]
        omega
      simp [land, hatEnd] at hmove
    have hnext : c.lines[c.index + 1]? = some c.lines[c.index + 1] := Array.getElem?_eq_getElem hin'
    obtain ⟨-, -, herror⟩ := land_spec hcons'
    rw [hmove] at herror
    have hread := herror e rfl
    simp only [linesRead] at hread
    rw [offAfter_take_succ hnext hoff] at hread
    rw [hout, List.drop_eq_getElem_cons (by simpa using hin'), Array.getElem_toList]
    exact pass_error hread

/-- Behind a text that was left there is nothing to move on to. -/
theorem leave (h : Ahead rule react lines out (m, c)) (hout : out = (m', flagged, .finished))
    {error : Option MalformedDirective}
    (hmove : (Cursor.skipToEnd { c with flagged := flagged }).advance 1 = (c', error)) :
    error = none ∧ Ahead rule react lines out (m', c') := by
  obtain ⟨hcons, hrule, hlines, -, -, -⟩ := h
  have hend := atEnd_skipToEnd { c with flagged := flagged }
  obtain ⟨rfl, rfl⟩ := Prod.mk.inj ((advance_one_of_atEnd hend).symm.trans hmove)
  exact ⟨rfl, ⟨Nat.le_refl _, hcons.size_le, hcons.state_eq⟩, hrule, hlines, by simp [hend],
    fun _ => hout, by simp [hend]⟩

/-- A visit on behalf of a reader ends the pass or goes on to the next line. -/
theorem visit (h : Ahead rule react lines out (m, c)) (hsize : lines.size < 2 ^ 63)
    (hin : c.atEnd = false) (hon : c.suppressed = false) {request : Visit}
    (hvisit : reacting react m c = (m', d, request)) :
    request = .next ∧ ∃ flagged,
      (d = Cursor.skipToEnd { c with flagged := flagged } ∧ out = (m', flagged, .finished) ∨
        d = { c with flagged := flagged } ∧
          out = pass rule react false (c.index + 2) m' flagged (lines.toList.drop (c.index + 1))) := by
  obtain ⟨-, off, happly, hout⟩ := h.cons hsize hin
  rw [hon] at happly
  simp only [reacting, Prod.mk.injEq] at hvisit
  obtain ⟨rfl, rfl, rfl⟩ := hvisit
  refine ⟨rfl, markAll c.flagged (react m c.lineNumber c.line).marks, ?_⟩
  cases hleaves : (react m c.lineNumber c.line).leaves with
  | true =>
    rw [pass_leave happly hleaves] at hout
    exact .inl ⟨by simp, hout⟩
  | false =>
    rw [pass_stay happly hleaves] at hout
    exact .inr ⟨by simp, hout⟩

theorem turn (hsize : lines.size < 2 ^ 63) {a b : σ × Cursor} (h : Ahead rule react lines out a)
    (hturn : Turn (reacting react) a b) : Ahead rule react lines out b := by
  cases hturn with
  | @skip m c c' hin hoff hmove =>
    obtain ⟨hread, off, happly, hout⟩ := h.cons hsize hin
    rw [hoff] at hread happly
    rw [pass_off happly] at hout
    exact (h.move hin hread hout hmove).2.2.1 rfl
  | @look m m' c d c' hin hon hvisit hmove =>
    obtain ⟨hread, -⟩ := h.cons hsize hin
    rw [hon] at hread
    obtain ⟨-, flagged, ⟨rfl, hout⟩ | ⟨rfl, hout⟩⟩ := h.visit hsize hin hon hvisit
    · exact (h.leave hout hmove).2
    · exact (h.move hin hread hout hmove).2.2.1 rfl

end Ahead

theorem ahead_start {c : Cursor} {m : σ} (h : Cursor.start lines rule = .ok c) :
    Ahead rule react lines (pass rule react false 1 m [] lines.toList) (m, c) := by
  obtain ⟨hcons, hrule, hlanded⟩ := start_spec h
  obtain ⟨off, states, rfl⟩ := start_frame h
  refine ⟨hcons, rfl, rfl, fun _ => hlanded, fun hend => ?_, fun _ => ⟨false, rfl, by simp⟩⟩
  have hnil : lines.toList = [] := by simpa [atEnd] using hend
  rw [hnil]
  rfl

/-- A scan for a reader is a pass over the lines. -/
theorem ofLines_reacting (react : Reader σ) (m : σ) (rule : Bytes) (hsize : lines.size < 2 ^ 63) :
    ofLines (reacting react) lines.size m lines rule =
      let (memory, flagged, ending) := pass rule react false 1 m [] lines.toList
      ⟨memory, lines, flagged, ending⟩ := by
  unfold ofLines
  cases hs : Cursor.start lines rule with
  | error e =>
    cases hlist : lines.toList with
    | nil =>
      have hempty : lines = #[] := Array.toList_eq_nil_iff.mp hlist
      subst hempty
      cases hs
    | cons line rest =>
      have hread : offAfter rule ([] ++ [line]) = .error e := by
        simpa [hlist] using start_error hs
      rw [offAfter_concat (offAfter_nil rule)] at hread
      have hpass : pass rule react false 1 m [] (line :: rest) =
          (m, [], .failed (.directive e)) := pass_error hread
      rw [hpass]
  | ok c =>
    have hfirst : Ahead rule react lines _ (m, c) := ahead_start hs
    generalize pass rule react false 1 m [] lines.toList = out at hfirst
    have hturn {a b : σ × Cursor} (ha : Ahead rule react lines out a)
        (hab : Turn (reacting react) a b) : Ahead rule react lines out b := ha.turn hsize hab
    obtain ⟨⟨m', d⟩, hturns, hends⟩ := drive_ends (reacting react) lines.size m c
    have hd : Ahead rule react lines out (m', d) := turns_keep (fun _ _ => hturn) hfirst hturns
    have hnot : (drive (reacting react) lines.size m c).ending ≠ .exhausted := by
      refine drive_not_exhausted (fun _ _ => hturn) ?_ _ _ c hfirst (by rw [hfirst.lines_eq]; omega)
      intro m c m' d hc hin hon hvisit
      obtain ⟨-, flagged, ⟨rfl, -⟩ | ⟨rfl, -⟩⟩ := hc.visit hsize hin hon hvisit
      · exact ⟨rfl, hc.consistent.index_le⟩
      · exact ⟨rfl, Nat.le_refl _⟩
    simp only
    generalize drive (reacting react) lines.size m c = s at hends hnot ⊢
    cases hends with
    | finished hend =>
      rw [hd.left hend, ← hd.lines_eq]
      rfl
    | exhausted => exact absurd rfl hnot
    | skipFailed hin hoff hmove =>
      obtain ⟨hread, off, happly, hout⟩ := hd.cons hsize hin
      rw [hoff] at hread happly
      rw [pass_off happly] at hout
      obtain ⟨hflagged, hlines, -, hfailed⟩ := hd.move hin hread hout hmove
      rw [hfailed _ rfl, stop, hflagged, hlines]
    | moveFailed hin hon hvisit hmove =>
      obtain ⟨hread, -⟩ := hd.cons hsize hin
      rw [hon] at hread
      obtain ⟨-, flagged, ⟨rfl, hout⟩ | ⟨rfl, hout⟩⟩ := hd.visit hsize hin hon hvisit
      · cases (hd.leave hout hmove).1
      · obtain ⟨hflagged, hlines, -, hfailed⟩ := hd.move hin hread hout hmove
        rw [hfailed _ rfl, stop, hflagged, hlines]
    | visitFailed hin hon hvisit => cases (hd.visit hsize hin hon hvisit).1
    | visitPanicked hin hon hvisit => cases (hd.visit hsize hin hon hvisit).1

end Linewise.Scan
