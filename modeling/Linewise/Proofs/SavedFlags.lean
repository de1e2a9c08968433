import Linewise.CommandLine.Layer
import Linewise.Proofs.FollowedPaths
import Linewise.Proofs.LayeredLoading

/-!
# Flags saved to a configuration file

Flags can be saved to a configuration file in the working directory, from which a later run takes
them. Saving makes one file and changes nothing else, and where no other configuration file is found
the saved one is the only layer. The rule paths of a file have their variables expanded, which those
of a command line have not: `load_saved_flags` says what a later run gets, and that it is the same
where the expansion changes no path.
-/

namespace Linewise
open FileTree Node

theorem Bytes.length_ofNat_le {n m : Nat} (h : n < 10 ^ (m + 1)) : (ofNat n).length ≤ m + 1 := by
  induction m generalizing n with
  | zero =>
    rw [ofNat_of_lt (by omega)]
    exact Nat.le_refl 1
  | succ m ih =>
    by_cases hn : n < 10
    · rw [ofNat_of_lt hn]
      simp
    · rw [ofNat_of_le (by omega), List.length_append, List.length_singleton]
      have hfront := ih (n := n / 10) (by rw [Nat.pow_succ] at h; omega)
      omega

/-- Saving to a path at which there is nothing makes one file, and nothing else changes. -/
theorem AtomicWrite.run_creates {t : FileTree} {privileged : Bool} {cwd r : Bytes} {v : View}
    {D : Place} (hb : Beside privileged cwd v r D) (h : Shows t privileged cwd v)
    (hD : Admits .write privileged v D) (hfree : v (D ++ [Path.base r]) = none)
    (hlegal : IsLegal (Path.parent r))
    (hroom : ∀ k, k ≤ t.entryCount (Path.parent r) →
      (Temporary.nameOf (Path.base r) k).length ≤ maxName ∧
        (Temporary.pathIn (Path.parent r) (Temporary.nameOf (Path.base r) k)).length ≤ maxPath)
    (data : Bytes) (mode : Nat) (hbits : mode < 0o1000) :
    ∃ t' id, run t r data mode = (t', none) ∧
      Shows t' privileged cwd
        (Function.update v (D ++ [Path.base r]) (some (.file id mode data))) := by
  obtain ⟨j, hlead⟩ := hb.parent
  obtain ⟨_, es, -, hdir⟩ := h.find_directory hlegal hlead
  have hmade : t.makeDirectories (Path.parent r) = (t, none) := by
    simp [makeDirectories, makeDirectoriesFrom, hdir]
  have hmode : permissions t r mode = mode := by
    simp [permissions, stat, h.find_absent hb.self hfree, Nat.mod_eq_of_lt hbits]
  obtain ⟨htempFree, hle⟩ := h.freeNumber hlegal hlead (Temporary.nameOf_injective (Path.base r))
  generalize hk : t.freeNumber (Path.parent r) (Temporary.nameOf (Path.base r)) = k at htempFree hle
  obtain ⟨hnameLength, hpathLength⟩ := hroom k hle
  obtain ⟨hpart, hzero, hname⟩ := Temporary.isName_nameOf hb.isPart hb.zero_base hnameLength
  have hnames := hb.pathIn hpart hzero hname hpathLength
  have hwrite : Temporary.write t (Path.parent r) (Path.base r) data =
      .ok (t.putFile (D ++ [Temporary.nameOf (Path.base r) k]) 0o600 data,
        Temporary.pathIn (Path.parent r) (Temporary.nameOf (Path.base r) k)) := by
    simp only [Temporary.write, hk, h.createNew hnames hD htempFree]
    rw [if_neg (by simpa using hb.isPart.2)]
  generalize Temporary.pathIn (Path.parent r) (Temporary.nameOf (Path.base r) k) = temp
    at hnames hwrite
  have hne := Temporary.nameOf_ne (Path.base r) k
  generalize Temporary.nameOf (Path.base r) k = name at htempFree hnames hwrite hne
  have hends : Ends (v (D ++ [name])) := htempFree.symm ▸ ends_none
  -- The new file is made, gets its mode and goes to its place.
  have hwritten := h.putFile hnames.directory hends 0o600 data
  have hcalm (o : Option Node) : Calm v (Function.update v (D ++ [name]) o) :=
    (Calm.refl v).update hends o
  obtain ⟨t₂, hchange, hchanged⟩ :=
    hwritten.changeMode (hnames.calm (hcalm _)) (Function.update_self _ _ _) mode
  rw [Function.update_idem] at hchanged
  have hends' : Ends (Function.update v (D ++ [name]) (some (.file t.nextId mode data))
      (D ++ [Path.base r])) := by
    rw [Function.update_of_ne (by simpa using hne.symm), hfree]
    exact ends_none
  obtain ⟨t₃, hrename, hrenamed⟩ := hchanged.rename (hnames.calm (hcalm _))
    (hb.self.calm (hcalm _)) (hD.calm (hcalm _)) hne (Function.update_self _ _ _) hends'
  rw [Function.update_idem, ← htempFree, Function.update_eq_self] at hrenamed
  exact ⟨t₃, _, by simp [run, hmade, hmode, hwrite, hchange, hrename], hrenamed⟩

theorem Path.isAbsolute_absolute {cwd : Bytes} (h : Path.isAbsolute cwd = true) (path : Bytes) :
    Path.isAbsolute (Path.absolute cwd path) = true := by
  rw [Path.absolute]
  split
  next habs => rwa [Path.isAbsolute_clean]
  next =>
    rw [Path.isAbsolute_join_name _ path, h]
    rintro rfl
    simp [Path.isAbsolute] at h

theorem Node.isDirectory_label (n : Node) : n.label.isDirectory = n.isDirectory := by
  cases n <;> rfl

namespace Config

/-- A layer as it is read from a file: the variables in its rule paths are expanded. -/
def expanded (env : Environment) (c : Config) : Config :=
  { c with
    rulePaths := c.rulePaths.map fun path => Path.clean (expandVariables env path.length path) }

variable {l : Loader} {t : FileTree}

theorem isAbsolute_expandVariables {path : Bytes} (h : Path.isAbsolute path = true)
    (env : Environment) : Path.isAbsolute (expandVariables env path.length path) = true := by
  cases path with
  | nil => simp [Path.isAbsolute] at h
  | cons b rest =>
    obtain rfl : b = Path.slash := by simpa [Path.isAbsolute] using h
    simp [expandVariables, Path.slash, Path.isAbsolute]

theorem resolveRulePath_of_absolute {path : Bytes} (h : Path.isAbsolute path = true) (file : Bytes) :
    resolveRulePath l t file path = Path.clean (expandVariables l.env path.length path) := by
  simp only [resolveRulePath, isAbsolute_expandVariables h, ↓reduceIte, ite_self]

theorem loadFile_of_find {file text : Bytes} {place : Place} {id mode : Nat} {c : Config}
    (hfind : t.find true file = .ok (place, .file id mode text))
    (hread : t.grants .read mode = true) (hparse : parse text = .ok c)
    (habs : ∀ path ∈ c.rulePaths, Path.isAbsolute path = true) :
    l.loadFile t file = .ok (c.expanded l.env) := by
  have hopened : t.readFile file = .ok text := by
    simp [readFile, openNode, hfind, refusal?, Node.mode, hread]
  simp only [Loader.loadFile, hopened, hparse, expanded]
  congr 2
  exact List.map_congr_left fun path hpath => resolveRulePath_of_absolute (habs path hpath) file

theorem forall_eq_of_forall₂ {files : List Bytes} {layers : List Config} {layer : Config}
    (h : List.Forall₂ (fun file d => l.loadFile t file = .ok d) files layers)
    (hall : ∀ file ∈ files, l.loadFile t file = .ok layer) : ∀ d ∈ layers, d = layer := by
  induction h with
  | nil => simp
  | cons hfirst _ ih =>
    intro d hd
    rcases List.mem_cons.mp hd with rfl | hd
    · exact Except.ok.inj (hfirst.symm.trans (hall _ List.mem_cons_self))
    · exact ih (fun file hfile => hall file (List.mem_cons_of_mem _ hfile)) d hd

/-- A tree and an environment in which no configuration file is found and one can be made in the
working directory, which is at the place `W`. -/
structure Unconfigured (l : Loader) (t : FileTree) (W : Place) : Prop where
  workDir_eq : l.workDir = t.cwd
  isAbsolute_cwd : Path.isAbsolute t.cwd = true
  clean_cwd : Path.clean t.cwd = t.cwd
  found : ∃ mode es, t.find true t.cwd = .ok (W, .directory mode es)
  search : Admits .search t.privileged t.view W
  write : Admits .write t.privileged t.view W
  free : t.view (W ++ [fileName]) = none
  length_le : (Path.absolute t.cwd fileName).length ≤ maxPath
  entryCount_lt : t.entryCount Path.here < 9000000000
  userFiles : ∀ path ∈ l.userFiles, (t.stat (Path.absolute t.cwd path)).isOk = false
  workFiles : l.workFiles t = []

namespace Unconfigured

variable {W : Place}

theorem components_cwd (h : Unconfigured l t W) : Path.components t.cwd = Path.kept t.cwd :=
  Path.components_of_clean h.clean_cwd (.inr h.isAbsolute_cwd)

theorem cwd_ne_nil (h : Unconfigured l t W) : t.cwd ≠ [] := by
  intro hnil
  simpa [hnil, Path.isAbsolute] using h.isAbsolute_cwd

theorem leads (h : Unconfigured l t W) :
    ∃ k, Leads t.privileged t.view maxLinks [] (Path.components t.cwd) k W := by
  obtain ⟨_, _, hfind⟩ := h.found
  obtain ⟨k, hlead⟩ := leads_of_find_directory hfind
  have hsteps : steps t.cwd = if Path.kept t.cwd = [] then [Path.here] else Path.kept t.cwd := by
    conv_lhs => rw [← h.clean_cwd]
    exact Path.steps_clean t.cwd
  rw [trail, origin, if_pos h.isAbsolute_cwd, List.nil_append, hsteps] at hlead
  rw [h.components_cwd]
  by_cases hkept : Path.kept t.cwd = []
  · rw [if_pos hkept] at hlead
    rw [hkept]
    cases hlead with
    | here _ hdone => exact ⟨_, hdone⟩
    | name _ hc => exact absurd rfl hc.1
    | link _ hc => exact absurd rfl hc.1
  · rw [if_neg hkept] at hlead
    exact ⟨k, hlead⟩

theorem beside (h : Unconfigured l t W) : Beside t.privileged t.cwd t.view fileName W := by
  obtain ⟨k, hlead⟩ := h.leads
  have hspells : Path.Spells fileName [] fileName :=
    ⟨⟨fileName, by decide +kernel⟩, by decide +kernel, by decide +kernel⟩
  have hlegal : IsLegal fileName := ⟨by decide +kernel, by decide +kernel, by decide +kernel⟩
  have hname : IsName fileName := ⟨by decide +kernel, by decide +kernel, by decide +kernel⟩
  refine beside_of_leads hspells hlegal hname (k := k) ?_ h.search
  have horigin : origin t.cwd fileName = Path.components t.cwd := if_neg (by decide +kernel)
  rwa [horigin, List.append_nil]

/-- The absolute path of the file in the working directory. -/
theorem names (h : Unconfigured l t W) :
    Names t.privileged t.cwd t.view (Path.join [t.cwd, fileName]) W fileName := by
  obtain ⟨k, hlead⟩ := h.leads
  obtain ⟨_, _, hfind⟩ := h.found
  have hentry : Path.IsEntry fileName :=
    ⟨⟨by decide +kernel, by decide +kernel⟩, by decide +kernel, by decide +kernel⟩
  have hjoin := Path.join_name h.cwd_ne_nil fileName
  refine ⟨⟨?_, ?_, ?_⟩, ⟨hentry.ne_here, hentry.ne_up, by decide +kernel⟩, h.search, _, k, ?_, hlead⟩
  · have hzero := (legal_of_find_ok hfind).1
    rw [hjoin]
    refine Path.zero_notMem_clean ?_
    have hname : (0 : UInt8) ∉ fileName := by decide +kernel
    simp [hzero, hname, Path.slash]
  · rw [hjoin]
    exact Path.clean_ne_nil _
  · have hrelative : Path.isAbsolute fileName = false := by decide +kernel
    have hlength := h.length_le
    rwa [Path.absolute, hrelative, if_neg (by simp)] at hlength
  · rw [trail_join_name h.cwd_ne_nil hentry, origin, if_pos h.isAbsolute_cwd, List.nil_append,
      h.components_cwd]

/-- Saving a layer makes the file in the working directory. -/
theorem save (h : Unconfigured l t W) (layer : Config) :
    ∃ id, (layer.save t fileName).2 = none ∧
      Shows (layer.save t fileName).1 t.privileged t.cwd
        (Function.update t.view (W ++ [fileName]) (some (.file id fileMode layer.render))) := by
  have hbase : Path.base fileName = fileName := by decide +kernel
  have hparent : Path.parent fileName = Path.here := by decide +kernel
  have hfree := h.free
  rw [← hbase] at hfree
  have hlegal : IsLegal (Path.parent fileName) := hparent ▸ ⟨by decide, by decide, by decide +kernel⟩
  -- Fewer entries than that leave ten digits for the number of the temporary file.
  have hroom (k : Nat) (hk : k ≤ t.entryCount (Path.parent fileName)) :
      (Temporary.nameOf (Path.base fileName) k).length ≤ maxName ∧
        (Temporary.pathIn (Path.parent fileName) (Temporary.nameOf (Path.base fileName) k)).length ≤
          maxPath := by
    rw [hparent] at hk
    have hdigits : (Bytes.ofNat (1000000000 + k)).length ≤ 9 + 1 :=
      Bytes.length_ofNat_le (by have := h.entryCount_lt; omega)
    have hstem : (Temporary.stem fileName).length = 14 := by decide +kernel
    have hname : (Temporary.nameOf fileName k).length ≤ 24 := by
      rw [Temporary.nameOf, List.length_append]
      omega
    have hdir : (Temporary.pathIn Path.here (Temporary.nameOf fileName k)).length =
        2 + (Temporary.nameOf fileName k).length := by
      rw [Temporary.pathIn, List.length_append]
      rfl
    rw [hbase, hparent, hdir, maxName, maxPath]
    omega
  obtain ⟨saved, id, hrun, hshows⟩ :=
    AtomicWrite.run_creates h.beside ⟨rfl, rfl, rfl⟩ h.write hfree hlegal hroom
    layer.render fileMode (by decide)
  rw [hbase] at hshows
  refine ⟨id, ?_, ?_⟩
  · simp only [Config.save, hrun, Option.map_none]
  · simpa only [Config.save, hrun] using hshows

theorem mem_workFiles {p : Bytes} (h : Unconfigured l t W) (t' : FileTree) :
    p ∈ l.workFiles t' ↔ (∃ dir ∈ ancestors (Path.components t.cwd), Path.join [dir, fileName] = p) ∧
      (t'.stat p).toOption.any (!·.isDirectory) = true := by
  have hne : l.workDir.isEmpty = false := by
    simpa [h.workDir_eq] using h.cwd_ne_nil
  have habs : Path.absolute t'.cwd l.workDir = t.cwd := by
    rw [h.workDir_eq, Path.absolute, if_pos h.isAbsolute_cwd, h.clean_cwd]
  simp only [Loader.workFiles, hne, Bool.false_eq_true, ↓reduceIte, habs, List.mem_filter,
    List.mem_map]
  refine and_congr_right fun _ => ?_
  cases t'.stat p <;> simp [Except.toOption]

theorem absolute_of_mem_ancestors {names : List Bytes} {dir : Bytes} (h : dir ∈ ancestors names)
    (cwd : Bytes) :
    Path.absolute cwd (Path.join [dir, fileName]) = Path.join [dir, fileName] := by
  obtain ⟨n, -, rfl⟩ := List.mem_map.mp h
  have hjoin := Path.join_name (p := [Path.slash] ++ Bytes.joinWith [Path.slash] (names.take n))
    (by simp) fileName
  rw [hjoin, Path.absolute, Path.clean_clean, Path.isAbsolute_clean,
    if_pos (by simp [Path.isAbsolute])]

/-- Without the saved file no file is merged. -/
theorem load_eq (h : Unconfigured l t W) (layer : Config) :
    (l.load { tree := t } [] layer).2 = .ok (l.start.merge layer) := by
  have hfiles : l.files t [] = [] := by
    refine List.eq_nil_iff_forall_not_mem.mpr fun file hfile => ?_
    obtain ⟨path, hpath, rfl, hstat⟩ := Config.mem_files.mp hfile
    rw [Loader.candidates, List.append_nil, h.workFiles, List.append_nil] at hpath
    rw [h.userFiles path hpath] at hstat
    cases hstat
  have hspec := load_spec l t [] layer
  generalize l.load { tree := t } [] layer = out at hspec
  cases hspec with
  | failed hnot => exact absurd ⟨by simp, by simp [hfiles]⟩ hnot
  | loaded hok hmerged hloaded =>
    obtain ⟨layers, hlayers, rfl⟩ := hmerged.layers
    rw [hloaded, hfiles] at hlayers
    cases hlayers
    rfl

section Saved

variable {saved : FileTree} {id mode : Nat} {text : Bytes} (h : Unconfigured l t W)
  (hsaved : Shows saved t.privileged t.cwd
    (Function.update t.view (W ++ [fileName]) (some (.file id mode text))))
include h hsaved

/-- In the tree with the saved file every path that is looked at leads nowhere or to that file. -/
theorem find_candidate {path : Bytes} (hpath : path ∈ l.candidates saved [])
    (hstat : (saved.stat (Path.absolute t.cwd path)).isOk = true) :
    saved.find true (Path.absolute t.cwd path) = .ok (W ++ [fileName], .file id mode text) := by
  cases hfind : saved.find true (Path.absolute t.cwd path) with
  | error e => simp [stat, hfind, Except.isOk, Except.toBool] at hstat
  | ok found =>
    obtain ⟨q, n⟩ := found
    rcases find_without (ends_file id mode text) hsaved hfind with rfl | ⟨m, hm, hlabel⟩
    · have hview : saved.view (W ++ [fileName]) = some (.file id mode text) := by
        rw [hsaved.view_eq, Function.update_self]
      rw [Option.some.inj ((get?_of_find hfind).symm.trans (view_eq_file.mp hview))]
    · -- Elsewhere it would have been found before.
      rw [Loader.candidates, List.append_nil] at hpath
      rcases List.mem_append.mp hpath with huser | hwork
      · simpa [stat, hm, Except.isOk, Except.toBool] using h.userFiles path huser
      · obtain ⟨⟨dir, hdir, rfl⟩, hkind⟩ := (h.mem_workFiles saved).mp hwork
        rw [absolute_of_mem_ancestors hdir] at hfind hm
        have hmem : Path.join [dir, fileName] ∈ l.workFiles t := by
          refine (h.mem_workFiles t).mpr ⟨⟨dir, hdir, rfl⟩, ?_⟩
          simp only [stat, hfind, Except.toOption, Option.any_some] at hkind
          simp only [stat, hm, Except.toOption, Option.any_some]
          rwa [← isDirectory_label m, hlabel, isDirectory_label]
        rw [h.workFiles] at hmem
        cases hmem

/-- The saved file is found in the working directory. -/
theorem mem_files : Path.join [t.cwd, fileName] ∈ l.files saved [] := by
  have hrender : Path.render true (Path.components t.cwd) = t.cwd := by
    rw [h.components_cwd]
    conv_rhs => rw [← h.clean_cwd, Path.clean_eq, if_pos h.isAbsolute_cwd]
    rfl
  have hdir : t.cwd ∈ ancestors (Path.components t.cwd) := by
    have hlast := (descends_ancestors (fun c hc => Path.isPart_of_mem_components hc)
      (h.components_cwd ▸ h.isAbsolute_cwd ▸ Path.settled_kept t.cwd)
      (h.components_cwd ▸ Path.here_notMem_kept t.cwd)).last
    rw [hrender] at hlast
    exact List.mem_of_getLast? hlast
  have hcalm : Calm t.view (Function.update t.view (W ++ [fileName]) (some (.file id mode text))) :=
    (Calm.refl _).update (h.free.symm ▸ ends_none) _
  have hfind := hsaved.find_file (h.names.calm hcalm) (Function.update_self _ _ _) true
  have hwork : Path.join [t.cwd, fileName] ∈ l.workFiles saved :=
    (h.mem_workFiles saved).mpr ⟨⟨t.cwd, hdir, rfl⟩,
      by simp [stat, hfind, Except.toOption, Node.isDirectory]⟩
  refine Config.mem_files.mpr ⟨_, List.mem_append_right _ hwork, absolute_of_mem_ancestors hdir _, ?_⟩
  simp [stat, hfind, Except.isOk, Except.toBool]

/-- With the saved file its layer is merged, by whatever paths it is found. -/
theorem load_saved_eq {layer : Config} (hread : Access.read.granted t.privileged mode = true)
    (hparse : parse text = .ok layer)
    (hoptions : layer.ruleOptions = [])
    (habs : ∀ path ∈ layer.rulePaths, Path.isAbsolute path = true) :
    (l.load { tree := saved } [] {}).2 = .ok (l.start.merge (layer.expanded l.env)) := by
  have hload : ∀ file ∈ l.files saved [], l.loadFile saved file = .ok (layer.expanded l.env) := by
    intro file hfile
    obtain ⟨path, hpath, rfl, hstat⟩ := Config.mem_files.mp hfile
    rw [hsaved.cwd_eq] at hstat ⊢
    have hgrants : saved.grants .read mode = true := by rwa [grants, hsaved.privileged_eq]
    exact loadFile_of_find (h.find_candidate hsaved hpath hstat) hgrants hparse habs
  have hspec := load_spec l saved [] {}
  generalize l.load { tree := saved } [] {} = out at hspec
  cases hspec with
  | failed hnot => exact absurd ⟨by simp, fun file hfile => ⟨_, hload file hfile⟩⟩ hnot
  | loaded hok hmerged hloaded =>
    obtain ⟨layers, hlayers, rfl⟩ := hmerged.layers
    rw [hloaded] at hlayers
    have hne : layers ≠ [] := by
      rintro rfl
      have hmem := h.mem_files hsaved
      rw [List.forall₂_nil_right_iff.mp hlayers] at hmem
      cases hmem
    have hall : ∀ d ∈ layers, d = layer.expanded l.env := forall_eq_of_forall₂ hlayers hload
    have hnone : (layer.expanded l.env).ruleOptions = [] := hoptions
    rw [merge_empty, foldl_merge_of_all hnone hall hne]

end Saved

end Unconfigured

theorem expanded_eq_self {env : Environment} {layer : Config}
    (h : ∀ path ∈ layer.rulePaths, Path.clean (expandVariables env path.length path) = path) :
    layer.expanded env = layer := by
  rw [expanded, List.map_congr_left h, List.map_id']

/-- Flags that are saved and loaded again come to what the flags come to, with the variables in
their rule paths expanded. Where the expansion changes no path, there is no difference. -/
theorem load_saved_flags {l : Loader} {t : FileTree} {W : Place} (h : Unconfigured l t W)
    (a : Arguments) (hyaml : parse (a.layer t.cwd).render = .ok (a.layer t.cwd)) :
    let layer := a.layer t.cwd
    (layer.save t fileName).2 = none ∧
      (l.load { tree := (layer.save t fileName).1 } [] {}).2 =
        .ok (l.start.merge (layer.expanded l.env)) ∧
      (l.load { tree := t } [] layer).2 = .ok (l.start.merge layer) ∧
      ((∀ path ∈ layer.rulePaths, Path.clean (expandVariables l.env path.length path) = path) →
        (l.load { tree := (layer.save t fileName).1 } [] {}).2 =
          (l.load { tree := t } [] layer).2) := by
  intro layer
  obtain ⟨id, hsave, hsaved⟩ := h.save layer
  have habs : ∀ path ∈ layer.rulePaths, Path.isAbsolute path = true := by
    intro path hpath
    obtain ⟨given, -, rfl⟩ := List.mem_map.mp hpath
    exact Path.isAbsolute_absolute h.isAbsolute_cwd given
  have hload := h.load_saved_eq hsaved (by simp [Access.granted, Access.bit, fileMode]) hyaml rfl habs
  refine ⟨hsave, hload, h.load_eq layer, fun hsame => ?_⟩
  rw [hload, h.load_eq, expanded_eq_self hsame]

/-- A working directory with nothing in it. -/
def bare : FileTree :=
  ⟨.directory 0o755 [(utf8 "w", .directory 0o755 [])], utf8 "/w", 0, false⟩

def bareLoader : Loader where
  homeDir := []
  workDir := utf8 "/w"
  ruleDir := utf8 "/r"
  env := fun _ => []

theorem unconfigured_bare : Unconfigured bareLoader bare [utf8 "w"] where
  workDir_eq := rfl
  isAbsolute_cwd := by decide
  clean_cwd := by decide +kernel
  found := ⟨0o755, [], by cbv⟩
  search := by decide +kernel
  write := by decide +kernel
  free := by rfl
  length_le := by decide +kernel
  entryCount_lt := by decide +kernel
  userFiles := by decide +kernel
  workFiles := by decide +kernel

theorem parse_eq_of_fields {text : Bytes} {c : Config} (hc : c.ruleOptions = [])
    (h : (parse text).toOption.any (fun d => d.followLinks = c.followLinks ∧
      d.addFiles = c.addFiles ∧ d.ruleOptions.isEmpty ∧ ∀ field ∈ lists, field d = field c) = true) :
    parse text = .ok c := by
  cases hparse : parse text with
  | error e => simp [hparse, Except.toOption] at h
  | ok d =>
    rw [hparse] at h
    cases c
    cases d
    simp_all [Except.toOption, lists]

theorem load_saved_flags_plain :
    let a : Arguments := { given := [(Command.rulePathName, .text (utf8 "rules")),
      (Command.excludeName, .text (utf8 "gen: #")), (Command.addFilesName, .switch true)] }
    (bareLoader.load { tree := ((a.layer bare.cwd).save bare fileName).1 } [] {}).2 =
      (bareLoader.load { tree := bare } [] (a.layer bare.cwd)).2 := by
  intro a
  have hyaml : parse (a.layer bare.cwd).render = .ok (a.layer bare.cwd) :=
    parse_eq_of_fields rfl (by decide +kernel)
  exact (load_saved_flags unconfigured_bare a hyaml).2.2.2 (by decide +kernel)

/-- The flag gives the rule path as it is, and the saved file gives it without the variable, which
is not set. -/
theorem saved_variable_is_expanded :
    let a : Arguments := { given := [(Command.rulePathName, .text (utf8 "/a/$X"))] }
    let layer := a.layer bare.cwd
    (layer.save bare fileName).2.isNone = true ∧
      (bareLoader.load { tree := (layer.save bare fileName).1 } [] {}).2.toOption.map rulePaths =
        some [utf8 "/r", utf8 "/a"] ∧
      (bareLoader.load { tree := bare } [] layer).2.toOption.map rulePaths =
        some [utf8 "/r", utf8 "/a/$X"] := by
  decide +kernel

end Config

end Linewise
