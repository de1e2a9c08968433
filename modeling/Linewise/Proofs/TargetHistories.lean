import Linewise.Rule.Scan
import Mathlib.Logic.Relation

/-!
# Targets and their lines

A target keeps the lines that it got first beside those that it has. Once it has lines it is read no
more, and whatever is done to them, it is changed when it is a file and has other lines than it got
first.
-/

namespace Linewise.Target

variable {t t' u loaded : Target} {tree : FileTree}

theorem lines_setLines (t : Target) (lines : Array Bytes) : (t.setLines lines).lines = lines := by
  unfold setLines Target.lines
  cases t.content <;> rfl

theorem setLines_lines {c : Content} (h : t.content = some c) : t.setLines t.lines = t := by
  rw [setLines, lines, h]
  simp only [← h]

theorem load_known {c : Content} (h : t.content = some c) (tree : FileTree) :
    t.load tree = .ok t := by
  simp [load, h]

theorem load_setLines (t : Target) (lines : Array Bytes) (tree : FileTree) :
    (t.setLines lines).load tree = .ok (t.setLines lines) := by
  unfold setLines
  split <;> exact load_known rfl tree

theorem load_unread {data : Bytes} (hfile : t.kind = .file) (hfresh : t.content = none)
    (hread : tree.readFile t.fullPath = .ok data) :
    t.load tree =
      .ok { t with content := some ⟨(Lines.split data).toArray, (Lines.split data).toArray⟩ } := by
  simp [load, isDirectory, hfile, hfresh, hread]

/-- A target with lines is left as it is, and so is a directory; a file without lines is read. -/
theorem load_cases (h : t.load tree = .ok loaded) :
    (loaded = t ∧ (t.kind = .directory ∨ ∃ c, t.content = some c)) ∨
      t.kind = .file ∧ t.content = none ∧ ∃ data, tree.readFile t.fullPath = .ok data ∧
        loaded = { t with content := some ⟨(Lines.split data).toArray, (Lines.split data).toArray⟩ } := by
  cases hkind : t.kind with
  | directory =>
    have hload : t.load tree = .ok t := by simp [load, isDirectory, hkind]
    exact .inl ⟨Except.ok.inj (h.symm.trans hload), .inl rfl⟩
  | file =>
    cases hc : t.content with
    | some c => exact .inl ⟨Except.ok.inj (h.symm.trans (load_known hc tree)), .inr ⟨c, rfl⟩⟩
    | none =>
      cases hr : tree.readFile t.fullPath with
      | error e => simp [load, isDirectory, hkind, hc, hr] at h
      | ok data =>
        have hread := Except.ok.inj (h.symm.trans (load_unread hkind hc hr))
        exact .inr ⟨rfl, rfl, data, rfl, hkind ▸ hread⟩

/-- What has been loaded is the same file, with lines that it need not read again. -/
theorem load_of_load (hfile : t.kind = .file) (hload : t.load tree = .ok loaded) :
    loaded.kind = .file ∧ (t.changed = false → loaded.changed = false) ∧
      loaded.setLines loaded.lines = loaded ∧ ∀ tree', loaded.load tree' = .ok loaded := by
  rcases load_cases hload with ⟨rfl, hdirectory | ⟨c, hc⟩⟩ | ⟨-, -, data, -, rfl⟩
  · simp [hfile] at hdirectory
  · exact ⟨hfile, id, setLines_lines hc, load_known hc⟩
  · exact ⟨hfile, fun _ => by simp [changed, hfile], rfl, load_known rfl⟩

theorem scan_of_load {σ : Type} (hfile : t.kind = .file) (hload : t.load tree = .ok loaded)
    (rule : Bytes)
    (visit : Visitor σ) (memory : σ) (visits : Option Nat) :
    t.scan tree rule visit memory visits =
      (loaded.setLines
          (Scan.ofLines visit (visits.getD loaded.lines.size) memory loaded.lines rule).lines,
        Scan.ofLines visit (visits.getD loaded.lines.size) memory loaded.lines rule) := by
  simp [scan, isDirectory, hfile, hload]

/-! ## Changes to a target -/

/-- One step of a rule with its target: its lines are read or set. -/
inductive Change : Target → Target → Prop where
  | load {t t' : Target} {tree : FileTree} (h : t.load tree = .ok t') : Change t t'
  | setLines (t : Target) (lines : Array Bytes) : Change t (t.setLines lines)

/-- Any number of such steps. -/
def Changes : Target → Target → Prop := Relation.ReflTransGen Change

/-- The lines that a target got first on the way from `t` to `t'`: those it had got before, or those
that it has after the step by which it gets lines at all. -/
inductive FirstLines : Target → Target → Array Bytes → Prop where
  | known {t t' : Target} {c : Content} (hcontent : t.content = some c) (hafter : Changes t t') :
      FirstLines t t' c.initial
  | gained {t u u' t' : Target} (hbefore : Changes t u) (hnone : u.content = none)
      (hchange : Change u u') (hsome : u'.content ≠ none) (hafter : Changes u' t') :
      FirstLines t t' u'.lines

theorem Change.same (h : Change t t') :
    t'.path = t.path ∧ t'.fullPath = t.fullPath ∧ t'.kind = t.kind := by
  cases h with
  | load h => rcases load_cases h with ⟨rfl, -⟩ | ⟨-, -, data, -, rfl⟩ <;> exact ⟨rfl, rfl, rfl⟩
  | setLines lines =>
    unfold Target.setLines
    split <;> exact ⟨rfl, rfl, rfl⟩

theorem path_load (h : t.load tree = .ok loaded) : loaded.path = t.path := (Change.load h).same.1

theorem path_setLines (t : Target) (lines : Array Bytes) : (t.setLines lines).path = t.path :=
  (Change.setLines t lines).same.1

theorem Changes.same (h : Changes t t') :
    t'.path = t.path ∧ t'.fullPath = t.fullPath ∧ t'.kind = t.kind := by
  induction h with
  | refl => exact ⟨rfl, rfl, rfl⟩
  | tail _ hlast ih =>
    obtain ⟨hpath, hfull, hkind⟩ := hlast.same
    exact ⟨hpath.trans ih.1, hfull.trans ih.2.1, hkind.trans ih.2.2⟩

/-- The lines that count as read stay what they are. -/
theorem Change.initial_eq (h : Change t t') {c : Content} (hcontent : t.content = some c) :
    ∃ c', t'.content = some c' ∧ c'.initial = c.initial := by
  cases h with
  | load h =>
    obtain rfl : t = t' := by simpa [load_known hcontent] using h
    exact ⟨c, hcontent, rfl⟩
  | setLines lines => exact ⟨⟨lines, c.initial⟩, by simp [Target.setLines, hcontent], rfl⟩

/-- The first lines count as read. -/
theorem Change.initial_gained (h : Change t t') (hnone : t.content = none) (hsome : t'.content ≠ none) :
    t'.content = some ⟨t'.lines, t'.lines⟩ := by
  cases h with
  | load h =>
    rcases load_cases h with ⟨rfl, -⟩ | ⟨-, -, data, -, rfl⟩
    · exact absurd hnone hsome
    · rfl
  | setLines lines => simp [Target.setLines, hnone, Target.lines]

theorem Changes.initial_eq (h : Changes t t') {c : Content} (hcontent : t.content = some c) :
    ∃ c', t'.content = some c' ∧ c'.initial = c.initial := by
  induction h with
  | refl => exact ⟨c, hcontent, rfl⟩
  | tail _ hlast ih =>
    obtain ⟨c', hc', hinitial⟩ := ih
    obtain ⟨c'', hc'', hinitial'⟩ := hlast.initial_eq hc'
    exact ⟨c'', hc'', hinitial'.trans hinitial⟩

theorem FirstLines.tail {first : Array Bytes} (h : FirstLines t u first) (hlast : Change u t') :
    FirstLines t t' first := by
  induction h with
  | known hcontent hafter => exact .known hcontent (hafter.tail hlast)
  | gained hbefore hnone hchange hsome hafter =>
    exact .gained hbefore hnone hchange hsome (hafter.tail hlast)

/-- A target keeps the lines that it got first beside those that it has. -/
theorem firstLines_iff (h : Changes t t') {first : Array Bytes} :
    FirstLines t t' first ↔ ∃ c, t'.content = some c ∧ c.initial = first := by
  constructor
  · rintro (⟨hcontent, hafter⟩ | ⟨-, hnone, hchange, hsome, hafter⟩)
    · exact hafter.initial_eq hcontent
    · exact hafter.initial_eq (hchange.initial_gained hnone hsome)
  · rintro ⟨c, hcontent, rfl⟩
    -- Follow the steps to the one by which the target got its lines.
    induction h generalizing c with
    | refl => exact .known hcontent .refl
    | @tail u t' hbefore hlast ih =>
      cases hu : u.content with
      | some c' =>
        obtain ⟨c'', hc'', hinitial⟩ := hlast.initial_eq hu
        obtain rfl := Option.some.inj (hcontent.symm.trans hc'')
        rw [hinitial]
        exact (ih c' hu).tail hlast
      | none =>
        have hsome : t'.content ≠ none := by simp [hcontent]
        have hgained := hlast.initial_gained hu hsome
        obtain rfl := Option.some.inj (hcontent.symm.trans hgained)
        exact .gained hbefore hu hlast hsome .refl

/-- A target is changed when it is a file and has other lines than it got first. -/
theorem changed_iff (h : Changes t t') :
    t'.changed = true ↔ t.kind = .file ∧ ∃ first, FirstLines t t' first ∧ t'.lines ≠ first := by
  rw [← h.same.2.2]
  simp only [firstLines_iff h, changed, Target.lines]
  cases t'.kind with
  | directory => simp
  | file =>
    cases t'.content with
    | none => simp
    | some c => simp

/-- Once its lines are known, a file is read no more, and it is changed when it has other lines than it
got first. -/
theorem Changes.known (h : Changes t t') (hfile : t.kind = .file) {c : Content}
    (hcontent : t.content = some c) :
    (t'.changed = false ↔ t'.lines = c.initial) ∧ ∀ tree, t'.load tree = .ok t' := by
  obtain ⟨c', hcontent', hinitial⟩ := h.initial_eq hcontent
  have hfile' : t'.kind = .file := h.same.2.2.trans hfile
  exact ⟨by simp [changed, Target.lines, hfile', hcontent', hinitial], load_known hcontent'⟩

theorem changes_scan {σ : Type} (t : Target) (tree : FileTree) (rule : Bytes) (visit : Visitor σ)
    (m : σ) (visits : Option Nat) : Changes t (t.scan tree rule visit m visits).1 := by
  unfold scan
  split
  · exact .refl
  · split
    · exact .refl
    next h => exact .tail (.single (.load h)) (.setLines _ _)

end Linewise.Target
