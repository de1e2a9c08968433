import Linewise.Proofs.ScanTurns

/-!
# The lines that a scan shows

A visitor may do with the cursor whatever its operations allow: move it in both directions, edit any
line, let a malformed directive pass. Still the scan shows it a line only when the text, as it is at
that moment, can be read down to there and does not switch the rule off. Visitors that treat the
cursor alike come to the same scan, whatever they remember; so a visitor can be made to keep a record
of the cursors that it is shown.
-/

namespace Linewise

namespace Scan
open Cursor Directive

variable {σ τ : Type}

/-- Two scans that differ in what their visitors remember. -/
structure Alike (R : σ → τ → Prop) (s : Scan σ) (s' : Scan τ) : Prop where
  memory : R s.memory s'.memory
  lines : s.lines = s'.lines
  flagged : s.flagged = s'.flagged
  ending : s.ending = s'.ending

/-- Two visitors that treat the cursor alike as long as their memories are related. -/
def Follows (R : σ → τ → Prop) (visit : Visitor σ) (visit' : Visitor τ) : Prop :=
  ∀ m m' c, R m m' → R (visit m c).1 (visit' m' c).1 ∧ (visit m c).2 = (visit' m' c).2

theorem alike_stop {R : σ → τ → Prop} {m : σ} {m' : τ} (h : R m m') (c : Cursor) (ending : Ending) :
    Alike R (stop m c ending) (stop m' c ending) :=
  ⟨h, rfl, rfl, rfl⟩

theorem alike_drive {R : σ → τ → Prop} {visit : Visitor σ} {visit' : Visitor τ}
    (hstep : Follows R visit visit') (visits : Nat) (m : σ) (m' : τ) (c : Cursor) (h : R m m') :
    Alike R (drive visit visits m c) (drive visit' visits m' c) := by
  induction visits generalizing m m' c with
  | zero =>
    unfold drive
    cases seek (c.lines.size + 1) c with
    | mk d error =>
      cases error with
      | some e => exact alike_stop h d _
      | none => by_cases hend : d.atEnd = true <;> simpa [hend] using alike_stop h d _
  | succ visits ih =>
    unfold drive
    cases seek (c.lines.size + 1) c with
    | mk d error =>
      cases error with
      | some e => exact alike_stop h d _
      | none =>
        by_cases hend : d.atEnd = true
        · simpa [hend] using alike_stop h d _
        · obtain ⟨hmemory, hrest⟩ := hstep m m' d h
          cases hv : visit m d with
          | mk n rest =>
            cases hv' : visit' m' d with
            | mk n' rest' =>
              simp only [hv, hv'] at hmemory hrest
              subst hrest
              obtain ⟨d₁, request⟩ := rest
              simp only [hend, hv, hv', Bool.false_eq_true, ↓reduceIte]
              cases request with
              | fail e => exact alike_stop hmemory d₁ _
              | panic value => exact alike_stop hmemory d₁ _
              | next =>
                cases ha : d₁.advance 1 with
                | mk d₂ failed =>
                  cases failed with
                  | some e =>
                    simp only [ha]
                    exact alike_stop hmemory d₂ _
                  | none =>
                    simp only [ha]
                    exact ih n n' d₂ hmemory

theorem alike_ofLines {R : σ → τ → Prop} {visit : Visitor σ} {visit' : Visitor τ}
    (hstep : Follows R visit visit') (visits : Nat) {m : σ} {m' : τ} (h : R m m')
    (lines : Array Bytes) (rule : Bytes) :
    Alike R (ofLines visit visits m lines rule) (ofLines visit' visits m' lines rule) := by
  unfold ofLines
  cases Cursor.start lines rule with
  | error e => exact ⟨h, rfl, rfl, rfl⟩
  | ok c => exact alike_drive hstep visits m m' c h

/-- The visitor with a record of the cursors that it was shown, oldest first. -/
def recording (visit : Visitor σ) : Visitor (σ × List Cursor) := fun m c =>
  let (memory, d, request) := visit m.1 c
  ((memory, m.2 ++ [c]), d, request)

theorem follows_recording (visit : Visitor σ) :
    Follows (fun m m' => m.1 = m') (recording visit) visit := by
  rintro m _ c rfl
  exact ⟨rfl, rfl⟩

/-- The visitor leaves the cursor where some operations on it lead; it need not look at what the
operations answer. -/
def ByOperations (visit : Visitor σ) : Prop :=
  ∀ m c, ∃ ops : List Operation, (visit m c).2.1 = c.performAll ops

/-- The cursor stands on a line, all directives down to it can be read, and the last one for the
rule, if there is any, switches it on. -/
def Active (rule : Bytes) (c : Cursor) : Prop :=
  c.index < c.lines.size ∧
    ∃ ds, readLines 1 c.linesRead = .ok ds ∧ ∀ d, lastFor? rule ds = some d → d.enable = true

theorem active_of_landed {c : Cursor} (h : Landed c) (hin : c.atEnd = false)
    (hon : c.suppressed = false) : Active c.rule c := by
  obtain ⟨ds, hread, hoff⟩ := h.followsText
  refine ⟨by simpa [atEnd] using hin, ds, hread, fun d hd => ?_⟩
  by_contra henable
  have : c.suppressed = true := hoff.mpr ⟨d, hd, by simpa using henable⟩
  simp [hon] at this

/-- What holds at every turn of a scan with a record: the cursor is right about the text, and the
cursors on record were shown for a reason. -/
structure Watched (rule : Bytes) (a : (σ × List Cursor) × Cursor) : Prop where
  consistent : Consistent a.2
  rule_eq : a.2.rule = rule
  landed : a.2.atEnd = false → Landed a.2
  record : ∀ c ∈ a.1.2, Active rule c

theorem Watched.record_concat {rule : Bytes} {m : σ × List Cursor} {c : Cursor}
    (h : Watched rule (m, c)) (hin : c.atEnd = false) (hon : c.suppressed = false) :
    ∀ d ∈ m.2 ++ [c], Active rule d := by
  intro d hd
  rcases List.mem_append.mp hd with hd | hd
  · exact h.record d hd
  · obtain rfl := List.mem_singleton.mp hd
    exact h.rule_eq ▸ active_of_landed (h.landed hin) hin hon

/-- A move to the next line is a landing, whatever was done to the cursor before. -/
theorem landed_of_advance_one {c c' : Cursor} (h : Consistent c) (hmove : c.advance 1 = (c', none)) :
    Consistent c' ∧ c'.rule = c.rule ∧ (c'.atEnd = false → Landed c') := by
  obtain ⟨hcons, hrule, hlanded⟩ := advance_spec h 1
  rw [hmove] at hcons hrule hlanded
  refine ⟨hcons, hrule, fun hin => hlanded (fun hsame => ?_) rfl hin⟩
  by_cases hend : c.atEnd = true
  · obtain rfl : c' = c := by simpa using hmove.symm.trans (advance_one_of_atEnd hend)
    simp [hend] at hin
  · have hindex := (advance_one_frame (c := c) (by simpa using hend)).2
    rw [hmove] at hindex
    simp only at hindex hsame
    omega

theorem Watched.turn {rule : Bytes} {visit : Visitor σ} (hops : ByOperations visit)
    {a b : (σ × List Cursor) × Cursor} (h : Watched rule a) (hturn : Turn (recording visit) a b) :
    Watched rule b := by
  cases hturn with
  | skip hin hoff hmove =>
    obtain ⟨hcons, hrule, hlanded⟩ := landed_of_advance_one h.consistent hmove
    exact ⟨hcons, hrule.trans h.rule_eq, hlanded, h.record⟩
  | @look m m' c d c' hin hon hvisit hmove =>
    have hmemory : m'.2 = m.2 ++ [c] := congrArg (·.1.2) hvisit.symm
    have hcursor : (visit m.1 c).2.1 = d := congrArg (·.2.1) hvisit
    obtain ⟨ops, hd⟩ := hops m.1 c
    obtain ⟨hconsd, hruled⟩ := h.consistent.performAll ops
    rw [← hd, hcursor] at hconsd hruled
    obtain ⟨hcons, hrule, hlanded⟩ := landed_of_advance_one hconsd hmove
    refine ⟨hcons, hrule.trans (hruled.trans h.rule_eq), hlanded, ?_⟩
    exact hmemory ▸ h.record_concat hin hon

theorem record_drive {rule : Bytes} {visit : Visitor σ} (hops : ByOperations visit) (visits : Nat)
    {m : σ × List Cursor} {c : Cursor} (h : Watched rule (m, c)) :
    ∀ d ∈ (drive (recording visit) visits m c).memory.2, Active rule d := by
  obtain ⟨last, hturns, hends⟩ := drive_ends (recording visit) visits m c
  have hlast : Watched rule last := turns_keep (fun _ _ ha hturn => ha.turn hops hturn) h hturns
  generalize drive (recording visit) visits m c = s at hends ⊢
  cases hends with
  | finished | exhausted | skipFailed => exact hlast.record
  | moveFailed hin hon hvisit | visitFailed hin hon hvisit | visitPanicked hin hon hvisit =>
    have hmemory := congrArg (·.1.2) hvisit.symm
    simp only [recording] at hmemory
    exact hmemory ▸ hlast.record_concat hin hon

theorem record_ofLines {visit : Visitor σ} (hops : ByOperations visit) (visits : Nat) (memory : σ)
    (lines : Array Bytes) (rule : Bytes) :
    ∀ c ∈ (ofLines (recording visit) visits (memory, []) lines rule).memory.2, Active rule c := by
  unfold ofLines
  cases hs : Cursor.start lines rule with
  | error e => simp
  | ok c =>
    obtain ⟨hcons, hrule, hlanded⟩ := start_spec hs
    exact record_drive hops visits ⟨hcons, hrule, fun _ => hlanded, by simp⟩

end Scan

namespace Target
open Scan

variable {σ : Type}

theorem alike_scan {τ : Type} {R : σ → τ → Prop} {visit : Visitor σ} {visit' : Visitor τ}
    (hstep : Follows R visit visit') {m : σ} {m' : τ} (h : R m m') (t : Target) (tree : FileTree)
    (rule : Bytes) (visits : Option Nat) :
    (t.scan tree rule visit m visits).1 = (t.scan tree rule visit' m' visits).1 ∧
      Alike R (t.scan tree rule visit m visits).2 (t.scan tree rule visit' m' visits).2 := by
  unfold scan
  by_cases hdir : t.isDirectory = true
  · simp only [hdir, ↓reduceIte]
    exact ⟨trivial, h, rfl, rfl, rfl⟩
  · cases hl : t.load tree with
    | error e =>
      simp only [hdir]
      exact ⟨rfl, h, rfl, rfl, rfl⟩
    | ok loaded =>
      have halike := alike_ofLines hstep (visits.getD loaded.lines.size) h loaded.lines rule
      simp only [hdir]
      exact ⟨congrArg loaded.setLines halike.lines, halike⟩

/-- A rule never sees a line at which it is switched off. The record does not disturb the scan, and
every cursor on it stands on a line down to which the text of that moment can be read and leaves the
rule on. -/
theorem scan_shows_active_lines (visit : Visitor σ) (hops : ByOperations visit) (t : Target)
    (tree : FileTree) (rule : Bytes) (memory : σ) (visits : Option Nat) :
    let recorded := t.scan tree rule (recording visit) (memory, []) visits
    recorded.1 = (t.scan tree rule visit memory visits).1 ∧
      Alike (fun m m' => m.1 = m') recorded.2 (t.scan tree rule visit memory visits).2 ∧
      ∀ c ∈ recorded.2.memory.2, Active rule c := by
  intro recorded
  obtain ⟨htarget, halike⟩ := alike_scan (follows_recording visit) rfl t tree rule visits
  refine ⟨htarget, halike, ?_⟩
  simp only [recorded, scan]
  split
  · simp
  · split
    · simp
    · exact record_ofLines hops _ memory _ rule

/-- On its first visit this visitor passes over a malformed directive without heeding the error,
mends it and moves up again. -/
def meddler : Visitor Nat := fun n c =>
  (n + 1, c.performAll (if n = 0 then
    [.advance 2, .setLine (utf8 "X11_FUZZ: enable r\n"), .advance (-1)] else []), .next)

theorem scan_shows_active_lines_meddler :
    let lines := #[utf8 "a\n", utf8 "X11_FUZZ: disable r\n", utf8 "X11_FUZZ: enable\n", utf8 "b\n"]
    let t : Target := ⟨utf8 "f", utf8 "/f", .file, some ⟨lines, lines⟩⟩
    let s := (t.scan default (utf8 "r") (recording meddler) (0, []) none).2
    s.memory.2.map (·.lineNumber) = [1, 3, 4] ∧ ∀ c ∈ s.memory.2, Active (utf8 "r") c := by
  intro lines t
  have hops : ByOperations meddler := fun n c => ⟨_, rfl⟩
  have hshown : (t.scan default (utf8 "r") (recording meddler) (0, []) none).2.memory.2.map
      (·.lineNumber) = [1, 3, 4] := by decide +kernel
  have hactive := scan_shows_active_lines meddler hops t default (utf8 "r") 0 none
  generalize t.scan default (utf8 "r") (recording meddler) (0, []) none = recorded at hshown hactive ⊢
  exact ⟨hshown, hactive.2.2⟩

end Target

end Linewise
