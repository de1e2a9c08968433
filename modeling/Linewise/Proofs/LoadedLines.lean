import Linewise.Proofs.LineSplitting
import Linewise.Proofs.TargetHistories

/-!
# Lines as they were read

Cutting a text into lines and putting lines together undo each other. So a file whose lines are again
those that were read counts as unchanged, and its text is what was read, whatever has been done to the
lines in between and whatever has become of the file since.
-/

namespace Linewise

namespace Lines
open Bytes

/-- Lines such as a text is cut into: none is empty, a line feed stands nowhere but at the end of a
line, and one stands at the end of every line but the last. -/
structure WellCut (lines : List Bytes) : Prop where
  ne_nil : ∀ line ∈ lines, line ≠ []
  newline_last : ∀ line ∈ lines, newline ∉ line.dropLast
  terminated : ∀ line ∈ lines.dropLast, line.getLast? = some newline

theorem wellCut_nil : WellCut [] := ⟨by simp, by simp, by simp⟩

theorem wellCut_singleton {line : Bytes} (hne : line ≠ []) (h : newline ∉ line) :
    WellCut [line] := by
  refine ⟨by simpa using hne, ?_, by simp⟩
  intro other hother
  obtain rfl := List.mem_singleton.mp hother
  exact fun hmem => h ((List.dropLast_subset other) hmem)

theorem WellCut.cons {body : Bytes} {rest : List Bytes} (hbody : newline ∉ body)
    (h : WellCut rest) : WellCut ((body ++ [newline]) :: rest) := by
  refine ⟨?_, ?_, ?_⟩
  · rintro line (_ | ⟨_, hline⟩)
    · simp
    · exact h.ne_nil line hline
  · rintro line (_ | ⟨_, hline⟩)
    · simpa using hbody
    · exact h.newline_last line hline
  · cases rest with
    | nil => simp
    | cons next rest =>
      rintro line (_ | ⟨_, hline⟩)
      · simp
      · exact h.terminated line hline

theorem WellCut.tail {line : Bytes} {rest : List Bytes} (h : WellCut (line :: rest)) :
    WellCut rest := by
  refine ⟨fun other hother => h.ne_nil other (List.mem_cons_of_mem _ hother),
    fun other hother => h.newline_last other (List.mem_cons_of_mem _ hother), ?_⟩
  cases rest with
  | nil => simp
  | cons next rest => exact fun other hother => h.terminated other (List.mem_cons_of_mem _ hother)

/-- The first line ends with its only line feed, or it is the last one and has none. -/
theorem WellCut.head_cases {line : Bytes} {rest : List Bytes} (h : WellCut (line :: rest)) :
    (∃ body, newline ∉ body ∧ line = body ++ [newline]) ∨
      rest = [] ∧ newline ∉ line ∧ line ≠ [] := by
  have hlast := h.newline_last line List.mem_cons_self
  by_cases hterminated : line.getLast? = some newline
  · obtain ⟨body, rfl⟩ := List.getLast?_eq_some_iff.mp hterminated
    exact .inl ⟨body, by simpa using hlast, rfl⟩
  · have hne := h.ne_nil line List.mem_cons_self
    refine .inr ⟨?_, fun hmem => ?_, hne⟩
    · cases rest with
      | nil => rfl
      | cons next rest => exact absurd (h.terminated line List.mem_cons_self) hterminated
    · rw [← List.dropLast_append_getLast hne] at hmem
      rcases List.mem_append.mp hmem with hmem | hmem
      · exact hlast hmem
      · rw [List.getLast?_eq_some_getLast hne, ← List.mem_singleton.mp hmem] at hterminated
        exact hterminated rfl

theorem nil_notMem_split (text : Bytes) : [] ∉ split text := by
  fun_induction split text with
  | case1 => simp
  | case2 b rest hb ih => simpa using ih
  | case3 b rest hb hs ih => simp
  | case4 b rest hb line lines hs ih =>
    rw [hs] at ih
    simp only [List.mem_cons, not_or] at ih ⊢
    exact ⟨by simp, ih.2⟩

theorem wellCut_of_cut {lines : List Bytes} (h : Cut lines) (hne : [] ∉ lines) : WellCut lines := by
  induction h with
  | nil => exact wellCut_nil
  | last hbody => exact wellCut_singleton (fun hnil => hne (by simp [hnil])) hbody
  | cons hbody hr ih => exact .cons hbody (ih fun hmem => hne (List.mem_cons_of_mem _ hmem))

theorem wellCut_split (text : Bytes) : WellCut (split text) :=
  wellCut_of_cut (cut_split text) (nil_notMem_split text)

theorem split_flatten {lines : List Bytes} (h : WellCut lines) : split lines.flatten = lines := by
  induction lines with
  | nil => rfl
  | cons line rest ih =>
    rcases h.head_cases with ⟨body, hbody, rfl⟩ | ⟨rfl, hopen, hne⟩
    · simpa [ih h.tail] using split_terminated hbody rest.flatten
    · simpa using split_open hopen hne

/-- Nothing is lost when a text is cut into lines. Put together, its lines are the text again, and lines
that are cut well are found again in the text that they make up. So a file that has been read reads
no more, whatever is done to its lines, and when these are again what they were, it counts as unchanged
and its text is what was read. -/
theorem split_loses_nothing :
    (∀ text, (split text).flatten = text ∧ WellCut (split text)) ∧
      (∀ lines, WellCut lines → split lines.flatten = lines) ∧
      ∀ (tree : FileTree) (t : Target) (data : Bytes), t.kind = .file → t.content = none →
        tree.readFile t.fullPath = .ok data →
          ∃ u, t.load tree = .ok u ∧ u.lines = (split data).toArray ∧
            ∀ v, u.Changes v →
              (v.changed = false ↔ v.lines = u.lines) ∧ (v.lines = u.lines → v.text = data) ∧
                ∀ later, v.load later = .ok v := by
  refine ⟨fun text => ⟨flatten_split text, wellCut_split text⟩, fun lines => split_flatten, ?_⟩
  intro tree t data hfile hfresh hread
  refine ⟨_, Target.load_unread hfile hfresh hread, rfl, fun v hchanges => ?_⟩
  obtain ⟨hchanged, hload⟩ := hchanges.known hfile rfl
  refine ⟨hchanged, fun hlines => ?_, hload⟩
  rw [Target.text, hlines]
  exact flatten_split data

/-- Lines with a carriage return, without text, of bytes that are no characters and without a line
feed: all are edited, the file is replaced, and the lines are put back. -/
theorem split_loses_nothing_restored :
    let lines : List Bytes := [utf8 "a\r\n", utf8 "\n", [0xff, 10], [0xc3]]
    let data : Bytes := utf8 "a\r\n\n" ++ [0xff, 10, 0xc3]
    let tree : FileTree := ⟨.directory 0o755 [(utf8 "f", .file 0 0o644 data)], utf8 "/", 1, false⟩
    let later : FileTree := ⟨.directory 0o755 [(utf8 "f", .file 0 0o644 [])], utf8 "/", 1, false⟩
    let t := Target.new (utf8 "/") (utf8 "f") .file
    split data = lines ∧
      ∃ u, t.load tree = .ok u ∧
        (u.setLines #[]).changed = true ∧ (u.setLines #[]).load later = .ok (u.setLines #[]) ∧
        ((u.setLines #[]).setLines lines.toArray).changed = false ∧
        ((u.setLines #[]).setLines lines.toArray).text = data := by
  intro lines data tree later t
  obtain ⟨-, hback, hloaded⟩ := split_loses_nothing
  have hwell : WellCut lines := ⟨by decide, by decide, by decide⟩
  have hsplit : split data = lines := hback lines hwell
  have hread : tree.readFile t.fullPath = .ok data := by decide +kernel
  obtain ⟨u, hload, hlines, hkept⟩ := hloaded tree t data rfl rfl hread
  rw [hsplit] at hlines
  have hedit := Target.Change.setLines u #[]
  have hrestore := Target.Change.setLines (u.setLines #[]) lines.toArray
  obtain ⟨hchanged, -, hsame⟩ := hkept _ (.single hedit)
  obtain ⟨hunchanged, htext, -⟩ := hkept _ (.tail (.single hedit) hrestore)
  rw [Target.lines_setLines, hlines] at hchanged hunchanged htext
  refine ⟨hsplit, u, hload, ?_, hsame _, hunchanged.mpr rfl, htext rfl⟩
  rw [← Bool.not_eq_false, hchanged]
  decide

end Lines

end Linewise
