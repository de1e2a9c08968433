import Linewise.Proofs.ScanVisits
import Linewise.Proofs.WhitespaceFix

/-!
# One pass that mends

What a pass makes of a file depends on its text alone. When the pass comes to its end, a second one
over the mended text changes nothing, even when it cannot read the directives of the last line: up to
there every line is clean or has the rule off.
-/

namespace Linewise.Whitespace
open Lines Cursor Directive Scan

/-- The text that one pass that mends makes of a text. -/
def mended (flag : Int) (settings : Settings) (data : Bytes) : Bytes :=
  let lines := (split data).toArray
  (run flag ⟨true, settings⟩ default ⟨[], [], .file, some ⟨lines, lines⟩⟩).target.text

theorem follows_fixVisitor (path path' : Bytes) (width : Nat) :
    Follows (fun _ _ => True) (fixVisitor path width) (fixVisitor path' width) := by
  intro m m' c _
  refine ⟨trivial, Prod.ext ?_ ?_⟩
  · rw [fixVisitor_cursor, fixVisitor_cursor]
  · rw [request_fixVisitor, request_fixVisitor]

variable {flag : Int} {settings : Settings} {tree : FileTree} {t : Target} {data : Bytes}

/-- A run that comes to its end has read the file. -/
theorem unread_of_done {ctx : Context} {clean : Bool} (hfile : t.kind = .file)
    (hfresh : t.content = none) (hdone : (run flag ctx tree t).verdict = .done clean) :
    ∃ data, Unread tree t data := by
  rw [run_of_fits ctx (fits_of_done ctx hdone)] at hdone
  cases hr : tree.readFile t.fullPath with
  | ok data => exact ⟨data, hfile, hfresh, hr⟩
  | error e => simp [Target.scan, Target.isDirectory, Target.load, hfile, hfresh, hr, conclude] at hdone

theorem fullPath_run_unread (flag : Int) (ctx : Context) (h : Unread tree t data) :
    (run flag ctx tree t).target.fullPath = t.fullPath := by
  by_cases hfits : Fits flag ctx.settings
  · rw [run_unread ctx hfits h, target_conclude]
  · rw [run_of_not_fits _ hfits]

/-- Where a file is does not matter for what a pass makes of it. -/
theorem text_run_unread (hfits : Fits flag settings) (h : Unread tree t data) :
    (run flag ⟨true, settings⟩ tree t).target.text = mended flag settings data := by
  have halike : Alike (fun _ _ => True)
      (ofLines (fixVisitor t.path (tabWidth flag settings).toNat) (split data).length {}
        (split data).toArray id)
      (ofLines (fixVisitor [] (tabWidth flag settings).toNat) (split data).length {}
        (split data).toArray id) :=
    alike_ofLines (follows_fixVisitor _ _ _) _ trivial _ _
  rw [run_unread ⟨true, settings⟩ hfits h, mended, run_of_fits ⟨true, settings⟩ hfits]
  simp [Target.scan, Target.isDirectory, Target.load, Target.setLines, Target.lines,
    Target.text, visitor, target_conclude, halike.lines]

variable {width : Nat} {initial lines : Array Bytes} {c : Cursor}

theorem Mending.lasting (h : Mending width initial c) (hend : c.atEnd = true) :
    Lasting c.lines.toList := by
  intro j line hline
  have hj : j < c.lines.size := by simpa using (List.getElem?_eq_some_iff.mp hline).1
  have hle : c.lines.size ≤ c.index := by simpa [atEnd] using hend
  exact h.settled j line (by omega) (by simpa using hline)

theorem Lasting.of_append {above below : List Bytes} (h : Lasting (above ++ below)) :
    Lasting above := by
  intro j line hline
  have hj : j < above.length := (List.getElem?_eq_some_iff.mp hline).1
  have hcase := h j line (by rw [List.getElem?_append_left hj, hline])
  rwa [List.take_append_of_le_length hj] at hcase

/-- A text that a pass has come to the end of is as the pass leaves it: lines that last, and no more
of them than there were. -/
theorem lasting_mended {clean : Bool} (h : Unread tree t data) (hsize : data.length < 2 ^ 63)
    (hdone : (run flag ⟨true, settings⟩ tree t).verdict = .done clean) :
    Lasting (split (mended flag settings data)) ∧
      (split (mended flag settings data)).length < 2 ^ 63 := by
  obtain ⟨c, hm, hend, hlines⟩ := mending_of_run h hsize hdone
  have htext : mended flag settings data = c.lines.toList.flatten := by
    rw [← text_run_unread (fits_of_done ⟨true, settings⟩ hdone) h, Target.text, hlines]
  have hlasting := hm.lasting hend
  have hlength : c.lines.toList.length < 2 ^ 63 := by
    have hcount := length_split_le data
    have hsame : c.lines.toList.length = (split data).length := by simpa using hm.size_eq
    omega
  rw [htext]
  rcases (hm.cut (by simpa using cut_split data)).eq_split_flatten with heq | heq
  · rw [← heq]
    exact ⟨hlasting, hlength⟩
  · rw [heq] at hlasting hlength
    rw [List.length_append] at hlength
    exact ⟨hlasting.of_append, by omega⟩

/-- A scan of lines that last, by a visitor that leaves clean lines alone, leaves them all alone. -/
theorem lines_ofLines_lasting {visit : Visitor Findings}
    (hquiet : ∀ m c, Clean c.line → (visit m c).2.1 = c) (hs : Lasting lines.toList)
    (hsize : lines.size < 2 ^ 63) (visits : Nat) (m : Findings) :
    (ofLines visit visits m lines id).lines = lines := by
  have hstay {m : Findings} {c : Cursor} (hc : Reading lines c) (hin : c.atEnd = false)
      (hon : c.suppressed = false) : (visit m c).2.1 = c :=
    hquiet m c (hc.clean hs hsize hin hon)
  refine lines_ofLines (P := fun a => Reading lines a.2) (fun c h => reading_start h) ?_
    (fun a ha => ha.lines_eq) (fun m c hc hin hon => by rw [hstay hc hin hon]) visits
  rintro _ _ ha (⟨hin, hoff, hmove⟩ | @⟨m, m', c, d, c', hin, hon, hvisit, hmove⟩)
  · exact ha.next hin hmove
  · have hsame : (visit m c).2.1 = c := hstay ha hin hon
    rw [hvisit] at hsame
    exact ha.next hin (hsame ▸ hmove)

/-- A pass over lines that last changes nothing. -/
theorem changed_run_lasting (flag : Int) (ctx : Context) (h : Unread tree t data)
    (hs : Lasting (split data)) (hsize : (split data).length < 2 ^ 63) :
    (run flag ctx tree t).target.changed = false := by
  by_cases hfits : Fits flag ctx.settings
  swap
  · simp [run_of_not_fits _ hfits, Target.changed, h.fresh]
  have hquiet : ∀ m (c : Cursor), Clean c.line → (visitor flag ctx t.path m c).2.1 = c := by
    intro m c hc
    by_cases hfix : ctx.applyFix = true
    · rw [visitor, if_pos hfix, fixVisitor_cursor]
      simp [hc.1, hc.2]
    · rw [visitor, if_neg hfix]
      rfl
  have hlines : (ofLines (visitor flag ctx t.path) (split data).length {} (split data).toArray
      id).lines = (split data).toArray :=
    lines_ofLines_lasting hquiet (by simpa using hs) (by simpa using hsize) _ _
  rw [run_unread ctx hfits h, target_conclude]
  simp [Target.changed, h.file, hlines]

/-- Only a file can be changed by a pass: a device and a pipe read as empty. -/
theorem find_of_changed {ctx : Context} (h : Unread tree t data)
    (hchanged : (run flag ctx tree t).target.changed = true) :
    ∃ place id mode, tree.find true t.fullPath = .ok (place, .file id mode data) := by
  have hempty : data ≠ [] := by
    rintro rfl
    have hkept := changed_run_lasting flag ctx h (by simp [Lasting, split]) (by simp [split])
    simp [hkept] at hchanged
  have hread := h.data
  rw [FileTree.readFile, FileTree.openNode] at hread
  cases hf : tree.find true t.fullPath with
  | error e => simp [hf] at hread
  | ok found =>
    obtain ⟨place, n⟩ := found
    cases hr : tree.refusal? [.read] n with
    | some e => simp [hf, hr] at hread
    | none =>
      cases n with
      | file id mode content =>
        obtain rfl : content = data := by simpa [hf, hr] using hread
        exact ⟨place, id, mode, rfl⟩
      | directory => simp [hf, hr] at hread
      | link | special => simp [hf, hr, eq_comm, hempty] at hread

end Linewise.Whitespace
