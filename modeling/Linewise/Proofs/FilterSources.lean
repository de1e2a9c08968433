import Linewise.Proofs.ExcludesFiles
import Linewise.Proofs.FilterDecisions
import Linewise.Proofs.LayerMerging

/-!
# Where the patterns of a filter come from

The filter of a rule is made from the include patterns of the configuration, from exclude patterns for
all rules and from the excludes files of the rule. Neither the order of all these nor how often one of
them occurs makes a difference. More exclude patterns exclude more, and more include patterns exclude
less, because there are include patterns in every configuration.
-/

namespace Linewise

namespace Excludes

/-! ## The lines that are read -/

/-- The lines of the file of a rule in a directory that are not empty; none if there is no file. -/
def fileLines (tree : FileTree) (rule dir : Bytes) : List Bytes :=
  match tree.readFile (filePath rule dir) with
  | .ok text => (lines text).filter (!·.isEmpty)
  | .error _ => []

/-- A line is read from one of the files of a rule. -/
def Reads (tree : FileTree) (rule : Bytes) (dirs : List Bytes) (line : Bytes) : Prop :=
  ∃ dir ∈ dirs, line ∈ (fileLines tree rule dir).takeWhile isShort

variable {tree : FileTree} {rule : Bytes} {dirs : List Bytes} {line pattern : Bytes}

theorem takeWhile_filter_isEmpty (xs : List Bytes) :
    (xs.filter (!·.isEmpty)).takeWhile isShort = (xs.takeWhile isShort).filter (!·.isEmpty) := by
  induction xs with
  | nil => rfl
  | cons x xs ih =>
    cases x with
    | nil => simpa [isShort, lineLimit] using ih
    | cons b x => by_cases hx : isShort (b :: x) = true <;> simp [hx, ih]

theorem reads_iff : Reads tree rule dirs line ↔
    line ≠ [] ∧ ∃ text ∈ texts tree rule dirs, line ∈ linesAbove text := by
  have hfile (dir : Bytes) : line ∈ (fileLines tree rule dir).takeWhile isShort ↔
      line ≠ [] ∧ ∃ text, (tree.readFile (filePath rule dir)).toOption = some text ∧
        line ∈ linesAbove text := by
    rw [fileLines]
    cases tree.readFile (filePath rule dir) with
    | error e => simp [Except.toOption]
    | ok text =>
      simp [Except.toOption, takeWhile_filter_isEmpty, linesAbove, and_comm]
  simp only [Reads, hfile, texts, List.mem_filterMap]
  grind

theorem mem_filterMap_iff {f : Bytes → Option Bytes} (hf : f [] = none) :
    pattern ∈ ((texts tree rule dirs).flatMap linesAbove).filterMap f ↔
      ∃ line, Reads tree rule dirs line ∧ f line = some pattern := by
  simp only [List.mem_filterMap, List.mem_flatMap, reads_iff]
  refine exists_congr fun line => and_congr_left fun hpattern => (and_iff_right ?_).symm
  rintro rfl
  rw [hf] at hpattern
  cases hpattern

/-- The exclude patterns in the files of a rule. -/
theorem mem_excludes_iff : pattern ∈ (asked ((texts tree rule dirs).flatMap linesAbove)).excludes ↔
    ∃ line, Reads tree rule dirs line ∧ excludeOf? line = some pattern := by
  rw [excludes_asked, mem_filterMap_iff rfl]

/-- The include patterns in the files of a rule. -/
theorem mem_includes_iff : pattern ∈ (asked ((texts tree rule dirs).flatMap linesAbove)).includes ↔
    ∃ line, Reads tree rule dirs line ∧ includeOf? line = some pattern := by
  rw [includes_asked, mem_filterMap_iff rfl]

/-! ## Lines that are added -/

/-- `ys` are the lines `xs` with further lines among them, which are all as `added` says. -/
inductive Inserted (added : Bytes → Prop) : List Bytes → List Bytes → Prop where
  | nil : Inserted added [] []
  | keep {line xs ys} : Inserted added xs ys → Inserted added (line :: xs) (line :: ys)
  | add {line xs ys} : added line → Inserted added xs ys → Inserted added xs (line :: ys)

namespace Inserted

variable {added : Bytes → Prop} {xs ys : List Bytes}

theorem mem (h : Inserted added xs ys) (hline : line ∈ xs) : line ∈ ys := by
  induction h with
  | nil => exact hline
  | keep _ ih =>
    rcases List.mem_cons.mp hline with rfl | hline
    · exact List.mem_cons_self
    · exact List.mem_cons_of_mem _ (ih hline)
  | add _ _ ih => exact List.mem_cons_of_mem _ (ih hline)

theorem mem_or_added (h : Inserted added xs ys) (hline : line ∈ ys) : line ∈ xs ∨ added line := by
  induction h with
  | nil => exact .inl hline
  | keep _ ih =>
    rcases List.mem_cons.mp hline with rfl | hline
    · exact .inl List.mem_cons_self
    · exact (ih hline).imp_left (List.mem_cons_of_mem _)
  | add hadded _ ih =>
    rcases List.mem_cons.mp hline with rfl | hline
    · exact .inr hadded
    · exact ih hline

/-- Short lines do not hide any of the lines below them. -/
theorem takeWhile (h : Inserted added xs ys) (hshort : ∀ line, added line → isShort line = true) :
    Inserted added (xs.takeWhile isShort) (ys.takeWhile isShort) := by
  induction h with
  | nil => exact .nil
  | @keep line xs ys _ ih =>
    by_cases hline : isShort line = true
    · rw [List.takeWhile_cons_of_pos hline, List.takeWhile_cons_of_pos hline]
      exact .keep ih
    · rw [List.takeWhile_cons_of_neg hline, List.takeWhile_cons_of_neg hline]
      exact .nil
  | add hadded _ ih =>
    rw [List.takeWhile_cons_of_pos (hshort _ hadded)]
    exact .add hadded ih

end Inserted

end Excludes

/-- What the filter of a rule is made from, apart from the configuration of file types: the tree with
the excludes files, the directories where they are looked for, and exclude patterns for all rules. -/
structure FilterSources where
  tree : FileTree
  dirs : List Bytes
  excludes : List Bytes

/-- The filter of a rule under a configuration. -/
def Config.filter (c : Config) (rule : Bytes) (s : FilterSources) : Except FilterError PathFilter :=
  PathFilter.ofRule s.tree rule s.dirs c.includes s.excludes

namespace FilterSources
open Excludes PathFilter

variable {c : Config} {rule : Bytes} {s s' : FilterSources} {f f' : PathFilter} {text line : Bytes}

/-- What the lines that are read from the files of a rule ask for. -/
def found (s : FilterSources) (rule : Bytes) : Excludes :=
  asked ((texts s.tree rule s.dirs).flatMap linesAbove)

/-- All include patterns of a filter. -/
def allIncludes (s : FilterSources) (c : Config) (rule : Bytes) : List Bytes :=
  c.includes ++ (s.found rule).includes

/-- All exclude patterns of a filter. -/
def allExcludes (s : FilterSources) (rule : Bytes) : List Bytes :=
  s.excludes ++ (s.found rule).excludes

theorem mem_allIncludes : text ∈ s.allIncludes c rule ↔
    text ∈ c.includes ∨ ∃ line, Reads s.tree rule s.dirs line ∧ includeOf? line = some text := by
  rw [allIncludes, List.mem_append, found, mem_includes_iff]

theorem mem_allExcludes : text ∈ s.allExcludes rule ↔
    text ∈ s.excludes ∨ ∃ line, Reads s.tree rule s.dirs line ∧ excludeOf? line = some text := by
  rw [allExcludes, List.mem_append, found, mem_excludes_iff]

/-! ## The filter of a rule -/

theorem filter_eq_of_readable (h : Readable s.tree rule s.dirs) :
    c.filter rule s = (PathFilter.new (s.allIncludes c rule) (s.allExcludes rule)).mapError
      (.ofRule rule) := by
  rw [Config.filter, ofRule, load_of_readable h]
  simp only [allIncludes, allExcludes, found]
  cases PathFilter.new _ _ <;> rfl

theorem exists_filter_iff : (∃ f, c.filter rule s = .ok f) ↔ Readable s.tree rule s.dirs ∧
    (∀ text ∈ s.allIncludes c rule, Compiles text) ∧ ∀ text ∈ s.allExcludes rule, Compiles text := by
  by_cases h : Readable s.tree rule s.dirs
  · rw [filter_eq_of_readable h, ← exists_new_iff, and_iff_right h]
    cases PathFilter.new (s.allIncludes c rule) (s.allExcludes rule) <;> simp [Except.mapError]
  · obtain ⟨_, -, _, -, -, hload⟩ := load_of_not_readable h
    simp [Config.filter, ofRule, hload, h]

theorem builtFrom_of_filter (h : c.filter rule s = .ok f) :
    BuiltFrom (s.allIncludes c rule) (s.allExcludes rule) f := by
  rw [filter_eq_of_readable (exists_filter_iff.mp ⟨f, h⟩).1] at h
  apply builtFrom_of_new
  cases hnew : PathFilter.new (s.allIncludes c rule) (s.allExcludes rule) with
  | error e => simp [hnew, Except.mapError] at h
  | ok f => simpa [hnew, Except.mapError] using h

/-! ## Changing the sources -/

theorem includes_ne_nil (c : Config) : c.includes ≠ [] := by
  have hextensions : c.checkedExtensions ≠ [] := by
    rw [Config.checkedExtensions, Config.orStandard]
    split
    next =>
      exact List.ne_nil_of_mem (mem_appendNew.mpr (.inr (by decide : utf8 "h" ∈ _)))
    next h =>
      rw [Bool.or_eq_true, not_or, List.isEmpty_iff] at h
      exact h.1
  simp [Config.includes, includePatterns, hextensions]

theorem allIncludes_ne_nil : s.allIncludes c rule ≠ [] :=
  List.append_ne_nil_of_left_ne_nil (includes_ne_nil c) _

/-- More exclude patterns and fewer include patterns reject more. -/
theorem rejects_of_subset (h : c.filter rule s = .ok f) (h' : c.filter rule s' = .ok f')
    (hincludes : s'.allIncludes c rule ⊆ s.allIncludes c rule)
    (hexcludes : s.allExcludes rule ⊆ s'.allExcludes rule) {t : Target}
    (hrejects : f.rejects t = true) : f'.rejects t = true := by
  rw [(builtFrom_of_filter h').rejects_iff]
  rcases ((builtFrom_of_filter h).rejects_iff t).mp hrejects with
    ⟨hkind, -, hnone⟩ | ⟨text, htext, hfound⟩
  · exact .inl ⟨hkind, allIncludes_ne_nil, fun text htext => hnone text (hincludes htext)⟩
  · exact .inr ⟨text, hexcludes htext, hfound⟩

/-- The files of a rule have the same lines, each short enough to be read. -/
structure SameLines (rule : Bytes) (s s' : FilterSources) : Prop where
  readable : Readable s.tree rule s.dirs ↔ Readable s'.tree rule s'.dirs
  short : ∀ dir ∈ s.dirs, ∀ line ∈ fileLines s.tree rule dir, isShort line = true
  short' : ∀ dir ∈ s'.dirs, ∀ line ∈ fileLines s'.tree rule dir, isShort line = true
  lines : ∀ line, (∃ dir ∈ s.dirs, line ∈ fileLines s.tree rule dir) ↔
    ∃ dir ∈ s'.dirs, line ∈ fileLines s'.tree rule dir

/-- The same directories, exclude patterns and lines, in any order and any number. -/
structure Rearranged (rule : Bytes) (s s' : FilterSources) : Prop where
  dirs : ∀ dir, dir ∈ s.dirs ↔ dir ∈ s'.dirs
  excludes : ∀ text, text ∈ s.excludes ↔ text ∈ s'.excludes
  files : s.tree = s'.tree ∨ SameLines rule s s'

/-- Further lines in the files of a rule. -/
structure Grown (rule : Bytes) (added : Bytes → Prop) (s s' : FilterSources) : Prop where
  dirs : s'.dirs = s.dirs
  readable : Readable s.tree rule s.dirs → Readable s'.tree rule s'.dirs
  lines : ∀ dir ∈ s.dirs, Inserted (fun line => isShort line = true ∧ added line)
    (fileLines s.tree rule dir) (fileLines s'.tree rule dir)

theorem reads_of_short (h : ∀ dir ∈ s.dirs, ∀ line ∈ fileLines s.tree rule dir, isShort line = true) :
    Reads s.tree rule s.dirs line ↔ ∃ dir ∈ s.dirs, line ∈ fileLines s.tree rule dir :=
  exists_congr fun dir => and_congr_right fun hdir => by
    rw [List.takeWhile_eq_self_iff.mpr (h dir hdir)]

namespace Rearranged

theorem readable (h : Rearranged rule s s') :
    Readable s.tree rule s.dirs ↔ Readable s'.tree rule s'.dirs := by
  rcases h.files with htree | hlines
  · simp only [Readable, h.dirs, htree]
  · exact hlines.readable

theorem reads (h : Rearranged rule s s') (line : Bytes) :
    Reads s.tree rule s.dirs line ↔ Reads s'.tree rule s'.dirs line := by
  rcases h.files with htree | hlines
  · simp only [Reads, h.dirs, htree]
  · rw [reads_of_short hlines.short, reads_of_short hlines.short', hlines.lines]

theorem mem_allIncludes (h : Rearranged rule s s') :
    text ∈ s.allIncludes c rule ↔ text ∈ s'.allIncludes c rule := by
  simp only [FilterSources.mem_allIncludes, h.reads]

theorem mem_allExcludes (h : Rearranged rule s s') :
    text ∈ s.allExcludes rule ↔ text ∈ s'.allExcludes rule := by
  simp only [FilterSources.mem_allExcludes, h.reads, h.excludes]

theorem exists_filter_iff (h : Rearranged rule s s') :
    (∃ f, c.filter rule s = .ok f) ↔ ∃ f, c.filter rule s' = .ok f := by
  simp only [FilterSources.exists_filter_iff, h.readable, h.mem_allIncludes, h.mem_allExcludes]

theorem rejects_eq (h : Rearranged rule s s') (hf : c.filter rule s = .ok f)
    (hf' : c.filter rule s' = .ok f') (t : Target) : f.rejects t = f'.rejects t := by
  rw [Bool.eq_iff_iff]
  constructor
  · exact rejects_of_subset hf hf' (fun _ => h.mem_allIncludes.mpr) fun _ => h.mem_allExcludes.mp
  · exact rejects_of_subset hf' hf (fun _ => h.mem_allIncludes.mp) fun _ => h.mem_allExcludes.mpr

end Rearranged

namespace Grown

variable {added : Bytes → Prop}

theorem reads (h : Grown rule added s s') (hline : Reads s.tree rule s.dirs line) :
    Reads s'.tree rule s'.dirs line := by
  obtain ⟨dir, hdir, hline⟩ := hline
  exact ⟨dir, h.dirs ▸ hdir, ((h.lines dir hdir).takeWhile fun _ hadded => hadded.1).mem hline⟩

theorem reads_or_added (h : Grown rule added s s') (hline : Reads s'.tree rule s'.dirs line) :
    Reads s.tree rule s.dirs line ∨ added line := by
  obtain ⟨dir, hdir, hline⟩ := hline
  rw [h.dirs] at hdir
  exact (((h.lines dir hdir).takeWhile fun _ hadded => hadded.1).mem_or_added hline).imp
    (⟨dir, hdir, ·⟩) And.right

variable {ask : Bytes → Option Bytes}

/-- What was asked for before still is. -/
theorem asked_mono (h : Grown rule added s s')
    (hasked : ∃ line, Reads s.tree rule s.dirs line ∧ ask line = some text) :
    ∃ line, Reads s'.tree rule s'.dirs line ∧ ask line = some text := by
  obtain ⟨line, hline, htext⟩ := hasked
  exact ⟨line, h.reads hline, htext⟩

theorem asked_or_compiles (h : Grown rule added s s')
    (hadded : ∀ line, added line → ∀ text ∈ ask line, Compiles text)
    (hasked : ∃ line, Reads s'.tree rule s'.dirs line ∧ ask line = some text) :
    (∃ line, Reads s.tree rule s.dirs line ∧ ask line = some text) ∨ Compiles text := by
  obtain ⟨line, hline, htext⟩ := hasked
  exact (h.reads_or_added hline).imp (⟨line, ·, htext⟩) fun hnew => hadded line hnew text htext

/-- Lines that ask for nothing change nothing. -/
theorem asked_iff (h : Grown rule added s s') (hnone : ∀ line, added line → ask line = none) :
    (∃ line, Reads s'.tree rule s'.dirs line ∧ ask line = some text) ↔
      ∃ line, Reads s.tree rule s.dirs line ∧ ask line = some text := by
  refine ⟨?_, h.asked_mono⟩
  rintro ⟨line, hline, htext⟩
  rcases h.reads_or_added hline with hline | hadded
  · exact ⟨line, hline, htext⟩
  · rw [hnone line hadded] at htext
    cases htext

end Grown

/-- The line asks for an exclude pattern that compiles, and for nothing else. -/
def AsksExclude (line : Bytes) : Prop := ∃ text, asked [line] = ⟨[text], []⟩ ∧ Compiles text

/-- The line asks for an include pattern that compiles, and for nothing else. -/
def AsksInclude (line : Bytes) : Prop := ∃ text, asked [line] = ⟨[], [text]⟩ ∧ Compiles text

theorem asked_singleton (line : Bytes) :
    asked [line] = ⟨(excludeOf? line).toList, (includeOf? line).toList⟩ := by
  have hfields : asked [line] = ⟨(asked [line]).excludes, (asked [line]).includes⟩ := rfl
  rw [hfields, excludes_asked, includes_asked]
  cases hexclude : excludeOf? line <;> cases hinclude : includeOf? line <;> simp [hexclude, hinclude]

theorem AsksExclude.spec (h : AsksExclude line) :
    includeOf? line = none ∧ ∀ text ∈ excludeOf? line, Compiles text := by
  obtain ⟨text, hasked, hcompiles⟩ := h
  rw [asked_singleton, Excludes.mk.injEq, Option.toList_eq_nil_iff, Option.toList_eq_singleton_iff]
    at hasked
  simp [hasked, hcompiles]

theorem AsksInclude.spec (h : AsksInclude line) :
    excludeOf? line = none ∧ ∀ text ∈ includeOf? line, Compiles text := by
  obtain ⟨text, hasked, hcompiles⟩ := h
  rw [asked_singleton, Excludes.mk.injEq, Option.toList_eq_nil_iff, Option.toList_eq_singleton_iff]
    at hasked
  simp [hasked, hcompiles]

/-- Further exclude patterns, for the rule or for all rules. -/
structure MoreExcludes (rule : Bytes) (s s' : FilterSources) : Prop
    extends Grown rule AsksExclude s s' where
  excludes : ∀ text ∈ s.excludes, text ∈ s'.excludes
  compiles : ∀ text ∈ s'.excludes, text ∈ s.excludes ∨ Compiles text

/-- Further include patterns for the rule. -/
structure MoreIncludes (rule : Bytes) (s s' : FilterSources) : Prop
    extends Grown rule AsksInclude s s' where
  excludes : s'.excludes = s.excludes

namespace MoreExcludes

theorem mem_allIncludes_iff (h : MoreExcludes rule s s') :
    text ∈ s'.allIncludes c rule ↔ text ∈ s.allIncludes c rule := by
  rw [mem_allIncludes, mem_allIncludes, h.asked_iff fun _ hadded => hadded.spec.1]

theorem allExcludes_subset (h : MoreExcludes rule s s') :
    s.allExcludes rule ⊆ s'.allExcludes rule := by
  intro text htext
  rw [mem_allExcludes] at htext ⊢
  exact htext.imp (h.excludes text) h.asked_mono

theorem compiles_of_mem (h : MoreExcludes rule s s')
    (hs : ∀ text ∈ s.allExcludes rule, Compiles text) :
    ∀ text ∈ s'.allExcludes rule, Compiles text := by
  intro text htext
  rcases mem_allExcludes.mp htext with htext | hasked
  · exact (h.compiles text htext).elim (fun hmem => hs text (mem_allExcludes.mpr (.inl hmem))) id
  · exact (h.asked_or_compiles (fun _ hadded => hadded.spec.2) hasked).elim
      (fun hold => hs text (mem_allExcludes.mpr (.inr hold))) id

theorem exists_filter (h : MoreExcludes rule s s') (hf : c.filter rule s = .ok f) :
    ∃ f', c.filter rule s' = .ok f' := by
  obtain ⟨hreadable, hincludes, hexcludes⟩ := exists_filter_iff.mp ⟨f, hf⟩
  exact exists_filter_iff.mpr ⟨h.readable hreadable,
    fun text htext => hincludes text (h.mem_allIncludes_iff.mp htext), h.compiles_of_mem hexcludes⟩

end MoreExcludes

namespace MoreIncludes

theorem allIncludes_subset (h : MoreIncludes rule s s') :
    s.allIncludes c rule ⊆ s'.allIncludes c rule := by
  intro text htext
  rw [mem_allIncludes] at htext ⊢
  exact htext.imp_right h.asked_mono

theorem mem_allExcludes_iff (h : MoreIncludes rule s s') :
    text ∈ s'.allExcludes rule ↔ text ∈ s.allExcludes rule := by
  rw [mem_allExcludes, mem_allExcludes, h.excludes, h.asked_iff fun _ hadded => hadded.spec.1]

theorem compiles_of_mem (h : MoreIncludes rule s s')
    (hs : ∀ text ∈ s.allIncludes c rule, Compiles text) :
    ∀ text ∈ s'.allIncludes c rule, Compiles text := by
  intro text htext
  rcases mem_allIncludes.mp htext with htext | hasked
  · exact hs text (mem_allIncludes.mpr (.inl htext))
  · exact (h.asked_or_compiles (fun _ hadded => hadded.spec.2) hasked).elim
      (fun hold => hs text (mem_allIncludes.mpr (.inr hold))) id

theorem exists_filter (h : MoreIncludes rule s s') (hf : c.filter rule s = .ok f) :
    ∃ f', c.filter rule s' = .ok f' := by
  obtain ⟨hreadable, hincludes, hexcludes⟩ := exists_filter_iff.mp ⟨f, hf⟩
  exact exists_filter_iff.mpr ⟨h.readable hreadable, h.compiles_of_mem hincludes,
    fun text htext => hexcludes text (h.mem_allExcludes_iff.mp htext)⟩

theorem matchesExclude_eq (h : MoreIncludes rule s s') (hf : c.filter rule s = .ok f)
    (hf' : c.filter rule s' = .ok f') (path : Bytes) :
    f'.matchesExclude path = f.matchesExclude path := by
  rw [Bool.eq_iff_iff, (builtFrom_of_filter hf).matchesExclude_iff,
    (builtFrom_of_filter hf').matchesExclude_iff]
  simp only [h.mem_allExcludes_iff]

end MoreIncludes

theorem rejects_directory (f : PathFilter) {t : Target} (h : t.isDirectory = true) :
    f.rejects t = f.matchesExclude t.fullPath := by
  simp [rejects, admits, h]

/-- The filter of a rule decides by which patterns there are, and exclude patterns always win: order
and repetition make no difference, further exclude patterns never let a target in, and further include
patterns never keep one out, change nothing for directories and let in nothing that an exclude pattern
is found in. -/
theorem filter_depends_on_patterns (c : Config) (rule : Bytes) (s s' : FilterSources) :
    (∀ f, c.filter rule s = .ok f → BuiltFrom (s.allIncludes c rule) (s.allExcludes rule) f) ∧
    (Rearranged rule s s' →
      ((∃ f, c.filter rule s = .ok f) ↔ ∃ f', c.filter rule s' = .ok f') ∧
      ∀ f f', c.filter rule s = .ok f → c.filter rule s' = .ok f' →
        ∀ t, f.rejects t = f'.rejects t) ∧
    (MoreExcludes rule s s' → ∀ f, c.filter rule s = .ok f →
      ∃ f', c.filter rule s' = .ok f' ∧ ∀ t, f.rejects t = true → f'.rejects t = true) ∧
    (MoreIncludes rule s s' → ∀ f, c.filter rule s = .ok f →
      ∃ f', c.filter rule s' = .ok f' ∧ ∀ t,
        (f.rejects t = false → f'.rejects t = false) ∧
        (t.isDirectory = true → f'.rejects t = f.rejects t) ∧
        ((∃ text ∈ s.allExcludes rule, FoundIn t.fullPath text) → f'.rejects t = true)) := by
  refine ⟨fun _ => builtFrom_of_filter,
    fun h => ⟨h.exists_filter_iff, fun f f' hf hf' => h.rejects_eq hf hf'⟩, ?_, ?_⟩
  · intro h f hf
    obtain ⟨f', hf'⟩ := h.exists_filter hf
    exact ⟨f', hf', fun t => rejects_of_subset hf hf' (fun _ => h.mem_allIncludes_iff.mp)
      h.allExcludes_subset⟩
  · intro h f hf
    obtain ⟨f', hf'⟩ := h.exists_filter hf
    have hmatches := h.matchesExclude_eq hf hf'
    refine ⟨f', hf', fun t => ⟨?_, fun hkind => ?_, fun hexcluded => ?_⟩⟩
    · contrapose!
      rw [Bool.ne_false_iff, Bool.ne_false_iff]
      exact rejects_of_subset hf' hf h.allIncludes_subset fun _ => h.mem_allExcludes_iff.mp
    · rw [rejects_directory f hkind, rejects_directory f' hkind, hmatches]
    · rw [rejects, hmatches, ((builtFrom_of_filter hf).matchesExclude_iff _).mpr hexcluded,
        Bool.or_true]

/-- A directory with a file of a rule, beside one without. -/
def twoDirs (text : Bytes) (dirs excludes : List String) : FilterSources where
  tree := ⟨.directory 0o755 [(utf8 "a", .directory 0o755
    [(utf8 "r.excludes", .file 0 0o644 text)]), (utf8 "b", .directory 0o755 [])],
    [Path.slash], 1, false⟩
  dirs := dirs.map utf8
  excludes := excludes.map utf8

theorem readFile_a (text : Bytes) (dirs excludes : List String) :
    (twoDirs text dirs excludes).tree.readFile (filePath (utf8 "r") (utf8 "/a")) =
      .ok text := by
  cbv

theorem readFile_b (text : Bytes) (dirs excludes : List String) :
    (twoDirs text dirs excludes).tree.readFile (filePath (utf8 "r") (utf8 "/b")) =
      .error ⟨"open", utf8 "/b/r.excludes", .noEntry⟩ := by
  cbv

theorem readable_twoDirs (text : Bytes) {dirs : List String} (excludes : List String)
    (h : ∀ dir ∈ dirs, dir ∈ ["/a", "/b"]) :
    Readable (twoDirs text dirs excludes).tree (utf8 "r") (twoDirs text dirs excludes).dirs := by
  refine List.forall_mem_map.mpr fun dir hdir e he => ?_
  have hmem := h dir hdir
  rw [List.mem_pair] at hmem
  rcases hmem with rfl | rfl
  · rw [readFile_a] at he
    cases he
  · rw [readFile_b] at he
    cases he
    rfl

/-- An exclude pattern and an include pattern, each alone on a line. -/
def plain : FilterSources := twoDirs (utf8 "x\n! \\.md$") ["/a", "/b"] ["y"]

def shuffled : FilterSources := twoDirs (utf8 "! \\.md$\n\nx\nx\n") ["/b", "/a", "/b"] ["y", "y"]

def stricter : FilterSources := twoDirs (utf8 "/z/ \nx\n! \\.md$") ["/a", "/b"] ["q|", "y"]

def wider : FilterSources := twoDirs (utf8 "x\n! \\.md$\n!\\.c$") ["/a", "/b"] ["y"]

/-- The configuration that checks headers and files named `R`. -/
def headers : Config := { extensions := [utf8 "h"], filenames := [utf8 "R"] }

theorem fileLines_a {s : FilterSources} {text : Bytes} {dirs excludes : List String}
    (hs : s = twoDirs text dirs excludes) :
    fileLines s.tree (utf8 "r") (utf8 "/a") = (lines text).filter (!·.isEmpty) := by
  rw [hs, fileLines, readFile_a]

theorem fileLines_b {s : FilterSources} {text : Bytes} {dirs excludes : List String}
    (hs : s = twoDirs text dirs excludes) : fileLines s.tree (utf8 "r") (utf8 "/b") = [] := by
  rw [hs, fileLines, readFile_b]

theorem rearranged_shuffled : Rearranged (utf8 "r") plain shuffled where
  dirs dir := by simpa [plain, shuffled, twoDirs] using Or.inr
  excludes text := by simp [plain, shuffled, twoDirs]
  files := by
    have hplain : fileLines plain.tree (utf8 "r") (utf8 "/a") = [utf8 "x", utf8 "! \\.md$"] :=
      fileLines_a rfl
    have hshuffled : fileLines shuffled.tree (utf8 "r") (utf8 "/a") =
        [utf8 "! \\.md$", utf8 "x", utf8 "x"] :=
      fileLines_a rfl
    have hplain' : fileLines plain.tree (utf8 "r") (utf8 "/b") = [] := fileLines_b rfl
    have hshuffled' : fileLines shuffled.tree (utf8 "r") (utf8 "/b") = [] := fileLines_b rfl
    have hdirs : plain.dirs = [utf8 "/a", utf8 "/b"] := rfl
    have hdirs' : shuffled.dirs = [utf8 "/b", utf8 "/a", utf8 "/b"] := rfl
    refine .inr ⟨iff_of_true (readable_twoDirs _ _ (by decide)) (readable_twoDirs _ _ (by decide)),
      ?_, ?_, fun line => ?_⟩
    · have hshort : ∀ line ∈ [utf8 "x", utf8 "! \\.md$"], isShort line = true := by decide
      simpa [hdirs, hplain, hplain'] using hshort
    · have hshort : ∀ line ∈ [utf8 "! \\.md$", utf8 "x"], isShort line = true := by decide
      simpa [hdirs', hshuffled, hshuffled'] using hshort
    · simp [hdirs, hdirs', hplain, hplain', hshuffled, hshuffled', or_comm]

theorem moreExcludes_stricter : MoreExcludes (utf8 "r") plain stricter where
  dirs := rfl
  readable _ := readable_twoDirs _ _ (by decide)
  lines dir hdir := by
    have hmem : dir = utf8 "/a" ∨ dir = utf8 "/b" := List.mem_pair.mp hdir
    rcases hmem with rfl | rfl
    · rw [fileLines_a (s := plain) rfl, fileLines_a (s := stricter) rfl]
      exact .add ⟨by decide, utf8 "/z/", by decide, _, rfl⟩ (.keep (.keep .nil))
    · rw [fileLines_b (s := plain) rfl, fileLines_b (s := stricter) rfl]
      exact .nil
  excludes := by simp [plain, stricter, twoDirs]
  compiles := by
    have hq : Compiles (utf8 "q|") := ⟨_, rfl⟩
    simp [plain, stricter, twoDirs, hq]

theorem moreIncludes_wider : MoreIncludes (utf8 "r") plain wider where
  dirs := rfl
  readable _ := readable_twoDirs _ _ (by decide)
  lines dir hdir := by
    have hmem : dir = utf8 "/a" ∨ dir = utf8 "/b" := List.mem_pair.mp hdir
    rcases hmem with rfl | rfl
    · rw [fileLines_a (s := plain) rfl, fileLines_a (s := wider) rfl]
      exact .keep (.keep (.add ⟨by decide, utf8 "\\.c$", by decide, _, rfl⟩ .nil))
    · rw [fileLines_b (s := plain) rfl, fileLines_b (s := wider) rfl]
      exact .nil
  excludes := rfl

/-- A file in whose path an exclude pattern of `plain` is found. -/
def excludedFile : Target := ⟨utf8 "x/R", utf8 "/w/x/R", .file, none⟩

theorem filter_depends_on_patterns_twoDirs :
    Rearranged (utf8 "r") plain shuffled ∧ MoreExcludes (utf8 "r") plain stricter ∧
      MoreIncludes (utf8 "r") plain wider ∧
      ∃ f f₁ f₂ f₃, headers.filter (utf8 "r") plain = .ok f ∧
        headers.filter (utf8 "r") shuffled = .ok f₁ ∧ headers.filter (utf8 "r") stricter = .ok f₂ ∧
        headers.filter (utf8 "r") wider = .ok f₃ ∧ ∀ t, f.rejects t = f₁.rejects t ∧
          (f.rejects t = true → f₂.rejects t = true) ∧
          (f.rejects t = false → f₃.rejects t = false) ∧
          (t = excludedFile → f.admits t = true ∧ f.matchesExclude t.fullPath = true ∧
            f₃.rejects t = true) := by
  have hplain : ∃ f, headers.filter (utf8 "r") plain = .ok f := by
    have hok : (headers.filter (utf8 "r") plain).isOk = true := by decide +kernel
    cases hf : headers.filter (utf8 "r") plain with
    | error e => simp [hf, Except.isOk, Except.toBool] at hok
    | ok f => exact ⟨f, rfl⟩
  obtain ⟨f, hf⟩ := hplain
  obtain ⟨hbuilt, hrearranged, -⟩ := filter_depends_on_patterns headers (utf8 "r") plain shuffled
  obtain ⟨hsame, hdecide⟩ := hrearranged rearranged_shuffled
  obtain ⟨f₁, hf₁⟩ := hsame.mp ⟨f, hf⟩
  obtain ⟨f₂, hf₂, hstricter⟩ := (filter_depends_on_patterns headers (utf8 "r") plain
    stricter).2.2.1 moreExcludes_stricter f hf
  obtain ⟨f₃, hf₃, hwider⟩ :=
    (filter_depends_on_patterns headers (utf8 "r") plain wider).2.2.2 moreIncludes_wider f hf
  have hexcluded : ∃ text ∈ plain.allExcludes (utf8 "r"), FoundIn excludedFile.fullPath text :=
    ⟨utf8 "x", by decide +kernel, _, rfl, by decide +kernel⟩
  have hincluded : ∃ text ∈ plain.allIncludes headers (utf8 "r"),
      FoundIn excludedFile.fullPath text :=
    ⟨utf8 "(^|/)(R)$", by decide +kernel, _, rfl, by decide +kernel⟩
  refine ⟨rearranged_shuffled, moreExcludes_stricter, moreIncludes_wider, f, f₁, f₂, f₃, hf, hf₁,
    hf₂, hf₃, fun t => ⟨hdecide f f₁ hf hf₁ t, hstricter t, (hwider t).1, ?_⟩⟩
  rintro rfl
  exact ⟨((hbuilt f hf).admits_iff _).mpr (.inr (.inr hincluded)),
    ((hbuilt f hf).matchesExclude_iff _).mpr hexcluded, (hwider excludedFile).2.2 hexcluded⟩

end FilterSources

end Linewise
