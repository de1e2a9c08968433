import Linewise.Config.Layers
import Linewise.Proofs.LayerMerging
import Linewise.Proofs.LinkFreePaths
import Linewise.Proofs.ListedPaths
import Linewise.Proofs.SiblingPaths
import Mathlib.Data.List.Forall2

/-!
# Loading in layers

Loading merges the files that it finds one over the other. A file counts by its clean absolute path:
that path is looked at, and no file is merged twice. `load_folds_layers` says which files are merged
in which order, what the fields of the result are and when loading fails.
-/

namespace Linewise

namespace Path

theorem settled_of_append {rooted : Bool} {cs ds : List Bytes} (h : Settled rooted (cs ++ ds)) :
    Settled rooted ds := by
  induction cs with
  | nil => exact h
  | cons c cs ih => exact ih h.2

variable {cs : List Bytes} {c : Bytes}

theorem clean_render (hparts : ∀ c ∈ cs, IsPart c) (h : Settled true cs.reverse) :
    clean (render true cs) = render true cs := by
  have hfold := foldl_reverse_of_settled h
  rw [List.reverse_reverse] at hfold
  rw [clean_eq, kept, isAbsolute_render hparts, components_render hparts, hfold,
    List.reverse_reverse]
  rfl

/-- The parent of a clean absolute path is the path without its last component. -/
theorem parent_render (hparts : ∀ d ∈ cs ++ [c], IsPart d) (h : Settled true (cs ++ [c]).reverse)
    (hc : c ≠ here) : parent (render true (cs ++ [c])) = render true cs := by
  have hspells : Spells (render true (cs ++ [c])) cs c :=
    ⟨⟨_, (clean_render hparts h).symm⟩, FileTree.LinkFree.steps_render hparts (by simp), hc⟩
  have hclean : parent (render true (cs ++ [c])) = clean (front (render true (cs ++ [c]))) := rfl
  rw [hclean, clean_eq, hspells.kept_front, isAbsolute_front, isAbsolute_render hparts]
  rfl

theorem render_concat_ne (rooted : Bool) (hparts : ∀ d ∈ cs ++ [c], IsPart d) :
    render rooted (cs ++ [c]) ≠ render rooted cs := by
  intro heq
  have hcomponents := congrArg (fun p => (components p).length) heq
  simp only [components_render hparts,
    components_render fun d hd => hparts d (List.mem_append_left _ hd)] at hcomponents
  simp at hcomponents

end Path

namespace Config

/-- The absolute paths among some paths that lead somewhere. -/
def present (t : FileTree) (paths : List Bytes) : List Bytes :=
  (paths.map (Path.absolute t.cwd)).filter fun path => (t.stat path).isOk

/-- A path that a step of loading gets over: the file is there if it is required, and it can be read
and parsed if it is there. -/
def Passes (l : Loader) (t : FileTree) (required : Bool) (path : Bytes) : Prop :=
  (required = true → (t.stat (Path.absolute t.cwd path)).isOk = true) ∧
    ((t.stat (Path.absolute t.cwd path)).isOk = true →
      ∃ layer, l.loadFile t (Path.absolute t.cwd path) = .ok layer)

/-- The state of loading between two files: the layers of the files so far are merged in order. -/
structure Merged (l : Loader) (t : FileTree) (s : Loading) (c : Config) : Prop where
  tree_eq : s.tree = t
  report_eq : s.report = none
  layers : ∃ layers, List.Forall₂ (fun file layer => l.loadFile t file = .ok layer) s.loaded layers ∧
    c = layers.foldl merge l.start

/-- What merging some files comes to: it stops at a path that it does not get over, or all are merged
that are there and were not merged before. -/
inductive Merges (l : Loader) (t : FileTree) (required : Bool) (loaded paths : List Bytes) :
    Loading × Except LoadError Config → Prop
  | stopped {s : Loading} {e : LoadError} {path : Bytes} (hpath : path ∈ paths)
      (h : ¬ Passes l t required path) : Merges l t required loaded paths (s, .error e)
  | merged {s : Loading} {c : Config} (hpaths : ∀ path ∈ paths, Passes l t required path)
      (h : Merged l t s c) (hloaded : s.loaded = appendNew loaded (present t paths)) :
      Merges l t required loaded paths (s, .ok c)

variable {l : Loader} {t : FileTree} {s : Loading} {c : Config}

theorem Merged.view_eq (h : Merged l t s c) : s.view = t := by
  rw [Journal.view, h.report_eq, h.tree_eq]

theorem Merged.say (h : Merged l t s c) (text : String) (path : Bytes) :
    Merged l t (s.say text path) c :=
  ⟨h.tree_eq, h.report_eq, h.layers⟩

theorem Merged.loadFile_ok (h : Merged l t s c) {file : Bytes} (hfile : file ∈ s.loaded) :
    ∃ layer, l.loadFile t file = .ok layer := by
  obtain ⟨layers, hlayers, -⟩ := h.layers
  generalize s.loaded = files at hlayers hfile
  induction hlayers with
  | nil => cases hfile
  | cons hfirst _ ih =>
    rcases List.mem_cons.mp hfile with rfl | hfile
    · exact ⟨_, hfirst⟩
    · exact ih hfile

theorem stat_isOk_of_loadFile {file : Bytes} {layer : Config} (h : l.loadFile t file = .ok layer) :
    (t.stat file).isOk = true := by
  rw [FileTree.stat]
  cases hfind : t.find true file with
  | ok found => rfl
  | error e => simp [Loader.loadFile, FileTree.readFile, FileTree.openNode, hfind] at h

theorem present_append (t : FileTree) (xs ys : List Bytes) :
    present t (xs ++ ys) = present t xs ++ present t ys := by
  simp only [present, List.map_append, List.filter_append]

theorem present_singleton (t : FileTree) (path : Bytes) :
    present t [path] =
      if (t.stat (Path.absolute t.cwd path)).isOk then [Path.absolute t.cwd path] else [] := by
  simp only [present, List.map_cons, List.map_nil, List.filter_cons, List.filter_nil]

theorem mergeFile_spec (h : Merged l t s c) (path : Bytes) (required : Bool) :
    Merges l t required s.loaded [path] (l.mergeFile s c path required) := by
  generalize hfull : Path.absolute t.cwd path = full
  have hone := present_singleton t path
  rw [hfull] at hone
  have hpasses (hp : Passes l t required path) : ∀ p ∈ [path], Passes l t required p := by
    rintro p hp'
    rwa [List.mem_singleton.mp hp']
  simp only [Loader.mergeFile, h.tree_eq, hfull, h.view_eq]
  by_cases hseen : full ∈ s.loaded
  · obtain ⟨layer, hlayer⟩ := h.loadFile_ok hseen
    have hstat := stat_isOk_of_loadFile hlayer
    rw [if_pos (by simpa using hseen)]
    refine .merged (hpasses ⟨fun _ => hfull ▸ hstat, fun _ => hfull ▸ ⟨layer, hlayer⟩⟩)
      (h.say _ _) ?_
    rw [hone, if_pos hstat, appendNew_cons, if_pos hseen, appendNew_nil]
    rfl
  · rw [if_neg (by simpa using hseen)]
    cases hstat : t.stat full with
    | error e =>
      have hno : (t.stat full).isOk = false := by rw [hstat]; rfl
      cases required with
      | true => exact .stopped List.mem_cons_self fun hp => by simpa [hfull, hno] using hp.1
      | false =>
        refine .merged (hpasses ⟨by simp, by simp [hfull, hno]⟩) (h.say _ _) ?_
        rw [hone, hno]
        rfl
    | ok n =>
      have hyes : (t.stat full).isOk = true := by rw [hstat]; rfl
      have hview : (s.say "Loading config " full).view = t := (h.say _ _).view_eq
      simp only [hview]
      cases hload : l.loadFile t full with
      | error e =>
        refine .stopped List.mem_cons_self fun hp => ?_
        obtain ⟨layer, hlayer⟩ := hp.2 (hfull ▸ hyes)
        rw [hfull, hload] at hlayer
        cases hlayer
      | ok layer =>
        obtain ⟨layers, hlayers, rfl⟩ := h.layers
        refine .merged (hpasses ⟨fun _ => hfull ▸ hyes, fun _ => hfull ▸ ⟨layer, hload⟩⟩)
          ⟨h.tree_eq, h.report_eq, layers ++ [layer],
            List.rel_append hlayers (.cons hload .nil), by simp⟩ ?_
        rw [hone, if_pos hyes, appendNew_cons, if_neg hseen, appendNew_nil]
        rfl

/-- Merging file after file. -/
theorem mergeFiles_spec (h : Merged l t s c) (required : Bool) (paths : List Bytes) :
    Merges l t required s.loaded paths (l.mergeFiles required s c paths) := by
  induction paths generalizing s c with
  | nil => exact .merged (by simp) h rfl
  | cons path rest ih =>
    have hfirst := mergeFile_spec h path required
    rw [Loader.mergeFiles]
    generalize l.mergeFile s c path required = out at hfirst
    cases hfirst with
    | stopped hpath hp =>
      obtain rfl := List.mem_singleton.mp hpath
      exact .stopped List.mem_cons_self hp
    | @merged s' c' hp hs hloaded =>
      have hrest := ih hs
      simp only
      generalize l.mergeFiles required s' c' rest = out at hrest
      cases hrest with
      | stopped hpath hp' => exact .stopped (List.mem_cons_of_mem _ hpath) hp'
      | merged hp' hs' hloaded' =>
        refine .merged (fun p hmem => ?_) hs' ?_
        · rcases List.mem_cons.mp hmem with rfl | hmem
          · exact hp p List.mem_cons_self
          · exact hp' p hmem
        · rw [hloaded', hloaded, ← appendNew_append, ← present_append, List.singleton_append]

theorem firstMissing?_eq_none {explicit : List Bytes} :
    firstMissing? t explicit = none ↔ ∀ path ∈ explicit, (t.stat path).isOk = true := by
  induction explicit with
  | nil => simp [firstMissing?]
  | cons path rest ih =>
    cases hstat : t.stat path with
    | error e => simp [firstMissing?, hstat, Except.isOk, Except.toBool]
    | ok n => simp [firstMissing?, hstat, ih, Except.isOk, Except.toBool]

/-- The paths of all layers, from the lowest to the highest. -/
def Loader.candidates (l : Loader) (t : FileTree) (explicit : List Bytes) : List Bytes :=
  l.userFiles ++ explicit ++ l.workFiles t

/-- The files that are merged, in order: those that are there, each where it is named first. -/
def Loader.files (l : Loader) (t : FileTree) (explicit : List Bytes) : List Bytes :=
  (present t (l.candidates t explicit)).eraseDups

theorem merged_start (l : Loader) (t : FileTree) : Merged l t { tree := t } l.start :=
  ⟨rfl, rfl, [], .nil, rfl⟩

theorem mem_files {explicit : List Bytes} {file : Bytes} :
    file ∈ l.files t explicit ↔
      ∃ path ∈ l.candidates t explicit,
        Path.absolute t.cwd path = file ∧ (t.stat file).isOk = true := by
  simp only [Loader.files, present, List.mem_eraseDups, List.mem_filter, List.mem_map]
  grind

/-- The files that loading needs are there, and those that are there can be read and parsed. -/
structure Loadable (l : Loader) (t : FileTree) (explicit : List Bytes) : Prop where
  required : ∀ path ∈ explicit,
    (t.stat path).isOk = true ∧ (t.stat (Path.absolute t.cwd path)).isOk = true
  readable : ∀ file ∈ l.files t explicit, ∃ layer, l.loadFile t file = .ok layer

theorem Loadable.passes {explicit : List Bytes} (h : Loadable l t explicit) {path : Bytes}
    (hpath : path ∈ l.candidates t explicit) : Passes l t false path :=
  ⟨by simp, fun hstat => h.readable _ (mem_files.mpr ⟨path, hpath, rfl, hstat⟩)⟩

theorem Loadable.passes_explicit {explicit : List Bytes} (h : Loadable l t explicit) {path : Bytes}
    (hpath : path ∈ explicit) : Passes l t true path :=
  ⟨fun _ => (h.required path hpath).2,
    (h.passes (List.mem_append_left _ (List.mem_append_right _ hpath))).2⟩

theorem not_loadable_iff {explicit : List Bytes} : ¬ Loadable l t explicit ↔
    (∃ path ∈ explicit,
      (t.stat path).isOk = false ∨ (t.stat (Path.absolute t.cwd path)).isOk = false) ∨
    ∃ file ∈ l.files t explicit, ∃ e, l.loadFile t file = .error e := by
  have hload (file : Bytes) : (∃ e, l.loadFile t file = .error e) ↔
      ¬ ∃ layer, l.loadFile t file = .ok layer := by
    cases l.loadFile t file <;> simp
  constructor
  · intro h
    by_contra hnone
    push Not at hnone
    refine h ⟨fun path hpath => by simpa using hnone.1 path hpath, fun file hfile => ?_⟩
    by_contra hfails
    obtain ⟨e, he⟩ := (hload file).mpr hfails
    exact hnone.2 file hfile e he
  · rintro (⟨path, hpath, hstat⟩ | ⟨file, hfile, hfails⟩) h
    · have hrequired := h.required path hpath
      grind
    · exact (hload file).mp hfails (h.readable file hfile)

/-- What loading comes to: an error, or the layers of all files with the overrides on top. -/
inductive Loads (l : Loader) (t : FileTree) (explicit : List Bytes) (overrides : Config) :
    Loading × Except LoadError Config → Prop
  | failed {s : Loading} {e : LoadError} (h : ¬ Loadable l t explicit) :
      Loads l t explicit overrides (s, .error e)
  | loaded {s : Loading} {c : Config} (h : Loadable l t explicit) (hmerged : Merged l t s c)
      (hloaded : s.loaded = l.files t explicit) :
      Loads l t explicit overrides (s, .ok (c.merge overrides))

theorem load_spec (l : Loader) (t : FileTree) (explicit : List Bytes) (overrides : Config) :
    Loads l t explicit overrides (l.load { tree := t } explicit overrides) := by
  have hview : ({ tree := t } : Loading).view = t := rfl
  simp only [Loader.load, hview]
  cases hmissing : firstMissing? t explicit with
  | some e =>
    refine .failed fun h => ?_
    rw [firstMissing?_eq_none.mpr fun path hpath => (h.required path hpath).1] at hmissing
    cases hmissing
  | none =>
    have hstats := firstMissing?_eq_none.mp hmissing
    have huser := mergeFiles_spec (merged_start l t) false l.userFiles
    simp only
    generalize l.mergeFiles false { tree := t } l.start l.userFiles = out at huser
    cases huser with
    | stopped hpath hp =>
      exact .failed fun h => hp (h.passes (List.mem_append_left _ (List.mem_append_left _ hpath)))
    | @merged s₁ c₁ huser h₁ hloaded₁ =>
      have hexplicit := mergeFiles_spec h₁ true explicit
      simp only
      generalize l.mergeFiles true s₁ c₁ explicit = out at hexplicit
      cases hexplicit with
      | stopped hpath hp => exact .failed fun h => hp (h.passes_explicit hpath)
      | @merged s₂ c₂ hexplicit h₂ hloaded₂ =>
        have hwork := mergeFiles_spec h₂ false (l.workFiles t)
        simp only [h₂.view_eq]
        generalize l.mergeFiles false s₂ c₂ (l.workFiles t) = out at hwork
        cases hwork with
        | stopped hpath hp => exact .failed fun h => hp (h.passes (List.mem_append_right _ hpath))
        | @merged s₃ c₃ hwork h₃ hloaded₃ =>
          refine .loaded ⟨fun path hpath => ⟨hstats path hpath, (hexplicit path hpath).1 rfl⟩,
            fun file hfile => ?_⟩ h₃ ?_
          · obtain ⟨path, hpath, rfl, hstat⟩ := mem_files.mp hfile
            rcases List.mem_append.mp hpath with hpath | hpath
            · rcases List.mem_append.mp hpath with hpath | hpath
              · exact (huser path hpath).2 hstat
              · exact (hexplicit path hpath).2 hstat
            · exact (hwork path hpath).2 hstat
          · rw [hloaded₃, hloaded₂, hloaded₁, Loader.files, Loader.candidates, present_append,
              present_append, ← appendNew_eq_eraseDups, appendNew_append, appendNew_append]

theorem folds_start (l : Loader) : Folds [l.start] l.start where
  lists field hfield := by
    simp only [lists, List.mem_cons, List.not_mem_nil, or_false] at hfield
    rcases hfield with rfl | rfl | rfl | rfl | rfl
    · rfl
    · rfl
    · rfl
    · simp only [Loader.start, List.flatMap_singleton]
      split <;> rfl
    · rfl
  followLinks := rfl
  addFiles := rfl
  setting _ _ := rfl

/-! ## The directories above the working directory -/

/-- Directories from the root down to a directory, each the parent of the next. -/
structure Descends (dirs : List Bytes) (dir : Bytes) : Prop where
  first : dirs.head? = some [Path.slash]
  last : dirs.getLast? = some dir
  step : dirs.IsChain fun above below => Path.parent below = above ∧ below ≠ above

theorem descends_ancestors {names : List Bytes} (hparts : ∀ c ∈ names, Path.IsPart c)
    (h : Path.Settled true names.reverse) (hhere : Path.here ∉ names) :
    Descends (ancestors names) (Path.render true names) where
  first := by simp [ancestors, List.range_succ_eq_map, Bytes.joinWith]
  last := by simp [ancestors, List.range_succ, Path.render]
  step := by
    rw [ancestors, List.isChain_map, List.isChain_range_succ]
    intro n hn
    have hsplit : names.take (n + 1) = names.take n ++ [names[n]] :=
      List.take_succ_eq_append_getElem hn
    have hfront : ∀ c ∈ names.take n ++ [names[n]], c ∈ names := fun c hc =>
      List.mem_of_mem_take (hsplit ▸ hc)
    have hset : Path.Settled true (names.take n ++ [names[n]]).reverse := by
      rw [← List.take_append_drop (n + 1) names, List.reverse_append, hsplit] at h
      exact Path.settled_of_append h
    have hparts' := fun c hc => hparts c (hfront c hc)
    have hparent := Path.parent_render hparts' hset fun heq => hhere (heq ▸ List.getElem_mem hn)
    rw [Nat.succ_eq_add_one, hsplit]
    exact ⟨hparent, Path.render_concat_ne true hparts'⟩

/-- The configuration files of an absolute working directory are those that are no directories, from
the root down. -/
theorem workFiles_eq (habs : Path.isAbsolute l.workDir = true) (t : FileTree) :
    ∃ dirs, Descends dirs (Path.clean l.workDir) ∧
      l.workFiles t = (dirs.map fun dir => Path.join [dir, fileName]).filter fun path =>
        (t.stat path).toOption.any (!·.isDirectory) := by
  have hkept : Path.components (Path.clean l.workDir) = Path.kept l.workDir := by
    rw [Path.components_of_clean (Path.clean_clean _) (.inr ((Path.isAbsolute_clean _).trans habs)),
      Path.kept_clean]
  have hclean : Path.clean l.workDir = Path.render true (Path.kept l.workDir) := by
    rw [Path.clean_eq, if_pos habs]
    rfl
  refine ⟨ancestors (Path.kept l.workDir), ?_, ?_⟩
  · rw [hclean]
    exact descends_ancestors (fun c hc => Path.isPart_of_mem_kept hc)
      (habs ▸ Path.settled_kept l.workDir) (Path.here_notMem_kept _)
  · have hne : l.workDir.isEmpty = false := by
      cases hdir : l.workDir with
      | nil => simp [hdir, Path.isAbsolute] at habs
      | cons => rfl
    simp only [Loader.workFiles, hne, Bool.false_eq_true, ↓reduceIte, Path.absolute, habs, hkept]
    congr 1
    funext path
    cases t.stat path <;> rfl

/-- Loading is the fold of its layers. -/
theorem load_folds_layers (l : Loader) (t : FileTree) (explicit : List Bytes) (overrides : Config)
    (habs : Path.isAbsolute l.workDir = true) :
    (∃ dirs, Descends dirs (Path.clean l.workDir) ∧
      l.workFiles t = (dirs.map fun dir => Path.join [dir, fileName]).filter fun path =>
        (t.stat path).toOption.any (!·.isDirectory)) ∧
      ((∃ e, (l.load { tree := t } explicit overrides).2 = .error e) ↔
        (∃ path ∈ explicit,
          (t.stat path).isOk = false ∨ (t.stat (Path.absolute t.cwd path)).isOk = false) ∨
        ∃ file ∈ l.files t explicit, ∃ e, l.loadFile t file = .error e) ∧
      ∀ s c, l.load { tree := t } explicit overrides = (s, .ok c) →
        s.loaded = l.files t explicit ∧
        ∃ layers, List.Forall₂ (fun file layer => l.loadFile t file = .ok layer)
            (l.files t explicit) layers ∧
          Folds (l.start :: layers ++ [overrides]) c ∧ ∀ field ∈ lists, (field c).Nodup := by
  refine ⟨workFiles_eq habs t, ?_, fun s c hload => ?_⟩
  · have hspec := load_spec l t explicit overrides
    generalize l.load { tree := t } explicit overrides = out at hspec
    rw [← not_loadable_iff]
    cases hspec with
    | failed h => exact ⟨fun _ => h, fun _ => ⟨_, rfl⟩⟩
    | loaded h => exact ⟨by rintro ⟨e, ⟨⟩⟩, fun hnot => absurd h hnot⟩
  · have hspec := load_spec l t explicit overrides
    rw [hload] at hspec
    cases hspec with
    | loaded h hmerged hloaded =>
      obtain ⟨layers, hlayers, rfl⟩ := hmerged.layers
      have hfolds := ((folds_start l).foldl layers).merge overrides
      exact ⟨hloaded, layers, hloaded ▸ hlayers, hfolds, fun field hfield => hfolds.nodup hfield⟩

/-- A working directory with a configuration file `f` and a link `l` into another directory, above
which there is a configuration file `g`. -/
def straying : FileTree :=
  ⟨.directory 0o755
    [(utf8 "w", .directory 0o755 [(utf8 "f", .file 0 0o644 (utf8 "add_files: true\n")),
      (utf8 "l", .link (utf8 "d/e")),
      (utf8 "d", .directory 0o755
        [(utf8 "e", .directory 0o755 []), (utf8 "g", .file 1 0o644 [])])])],
    utf8 "/w", 2, false⟩

def strayingLoader (listed : Bytes) : Loader where
  homeDir := []
  workDir := utf8 "/w"
  ruleDir := []
  env := fun name => if name == listVariable then listed else []

theorem load_folds_layers_straying :
    let l := strayingLoader (utf8 "n/../f")
    ∃ s c layers, l.load { tree := straying } [] {} = (s, .ok c) ∧ c.addFiles = true ∧
      s.loaded = [utf8 "/w/f"] ∧ Folds (l.start :: layers ++ [({} : Config)]) c := by
  intro l
  have hadds : (l.load { tree := straying } [] {}).2.toOption.any addFiles = true := by
    decide +kernel
  have hloaded : (l.load { tree := straying } [] {}).1.loaded = [utf8 "/w/f"] := by decide +kernel
  cases hload : l.load { tree := straying } [] {} with
  | mk s result =>
    rw [hload] at hadds hloaded
    cases result with
    | error e => simp [Except.toOption] at hadds
    | ok c =>
      obtain ⟨-, -, hok⟩ := load_folds_layers l straying [] {} (by decide)
      obtain ⟨-, layers, -, hfolds, -⟩ := hok s c hload
      exact ⟨s, c, layers, rfl, hadds, hloaded, hfolds⟩

/-- Neither the paths as they are given nor their absolute forms alone say which files count: a
listed path that leads nowhere is merged by its absolute form, and a path that is asked for fails
when either of the two leads nowhere. -/
theorem load_looks_at_both_paths :
    ((straying.stat (utf8 "n/../f")).isOk = false ∧
      ((strayingLoader (utf8 "n/../f")).load { tree := straying } [] {}).2.toOption.map addFiles =
        some true) ∧
    ((straying.stat (utf8 "l/../g")).isOk = true ∧ (straying.stat (utf8 "/w/g")).isOk = false ∧
      ((strayingLoader []).load { tree := straying } [utf8 "l/../g"] {}).2.isOk = false) ∧
    ((straying.stat (utf8 "n/../f")).isOk = false ∧ (straying.stat (utf8 "/w/f")).isOk = true ∧
      ((strayingLoader []).load { tree := straying } [utf8 "n/../f"] {}).2.isOk = false) := by
  decide +kernel

end Config

end Linewise
