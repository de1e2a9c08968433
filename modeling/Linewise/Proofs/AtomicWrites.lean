import Linewise.Proofs.GrantedRequests
import Linewise.Proofs.ListedPaths
import Linewise.Proofs.MadeDirectories
import Linewise.Proofs.SiblingPaths

/-!
# Writing a file in one step

A file is written beside its place and renamed. Whatever the path looks like, either the entry that it
means is the new file afterwards, or everything is as before; missing directories on the way are made
in both cases, and nothing else changes.
-/

namespace Linewise
open FileTree Node

variable {t t' made : FileTree} {privileged : Bool} {cwd path temp data name x y : Bytes}
  {v : View} {D E : Place} {id mode : Nat}

/-! ## Names -/

theorem Temporary.isPart_nameOf (hslash : Path.slash ∉ name) (k : Nat) :
    Path.IsPart (Temporary.nameOf name k) := by
  have hends : Path.slash ∉ utf8 "." ∧ Path.slash ∉ utf8 ".fuzz-" := by decide
  have hdigits : Path.slash ∉ Bytes.ofNat (1000000000 + k) :=
    fun h => absurd (Bytes.isDigit_of_mem_ofNat h) (by decide)
  refine ⟨by simp [nameOf, stem, utf8], ?_⟩
  simp only [nameOf, stem, List.mem_append, not_or]
  exact ⟨⟨⟨hends.1, hslash⟩, hends.2⟩, hdigits⟩

namespace FileTree

/-- The name of the entry that a path means is the base of the path. -/
theorem Names.base_eq (h : Names privileged cwd v path D x) : Path.base path = x := by
  obtain ⟨cs, k, htrail, -⟩ := h.route
  have hsteps : steps path = Path.components path := by
    rw [steps, if_neg (by simpa using h.last_ne_slash), List.append_nil]
  have hne := hsteps ▸ Path.steps_ne_nil h.legal.2.1
  have hparts := List.dropLast_append_getLast hne
  rw [trail, hsteps, ← hparts, ← List.append_assoc] at htrail
  rw [← (List.cons.inj (List.append_inj' htrail rfl).2).1]
  exact Path.base_of_components hparts.symm

end FileTree

namespace AtomicWrite

/-! ## The steps -/

/-- The temporary file is the only change, and its name is not that of the file to be written. -/
theorem write_ok (h : Temporary.write t (Path.parent path) (Path.base path) data = .ok (t', temp)) :
    ∃ D name, Names t.privileged t.cwd t.view temp D name ∧
      Admits .write t.privileged t.view D ∧ name ≠ Path.base path ∧ t.view (D ++ [name]) = none ∧
      Shows t' t.privileged t.cwd
        (Function.update t.view (D ++ [name]) (some (.file t.nextId 0o600 data))) := by
  obtain ⟨hslash, htemp, hcreate⟩ := Temporary.write_ok h
  obtain ⟨D, name, hresolve, halter, rfl⟩ := createNew_ok hcreate
  have hnames := names_of_resolve_absent hresolve
  generalize t.freeNumber _ _ = k at htemp
  have hname : name = Temporary.nameOf (Path.base path) k := by
    obtain ⟨cs, j, htrail, -⟩ := hnames.route
    rw [htemp, trail_pathIn path (Temporary.isPart_nameOf hslash k)] at htrail
    exact (List.cons.inj (List.append_inj' htrail rfl).2).1.symm
  exact ⟨D, name, hnames, (mayAlter_iff hnames.directory).mp halter,
    hname ▸ Temporary.nameOf_ne (Path.base path) k, (view_of_resolve_absent hresolve).2, rfl, rfl,
    view_putFile_absent hresolve 0o600 data⟩

/-- The temporary file takes the place of the entry that the path means. -/
theorem rename_temporary
    (h : Shows t privileged cwd (Function.update v (D ++ [name]) (some (.file id mode data))))
    (htemp : Names privileged cwd v temp D name) (hfree : v (D ++ [name]) = none)
    (hne : name ≠ Path.base path) (hok : t.rename temp path = .ok t') :
    ∃ E x, Names privileged cwd v path E x ∧ ¬ DirectoryAt v (E ++ [x]) ∧
      Shows t' privileged cwd (Function.update v (E ++ [x]) (some (.file id mode data))) := by
  have hends : Ends (v (D ++ [name])) := hfree.symm ▸ ends_none
  have htemp' := htemp.calm ((Calm.refl v).update hends (some (.file id mode data)))
  have hfile := Function.update_self (D ++ [name]) (some (Node.file id mode data)) v
  obtain ⟨source, n, d, hfind, hresolve, hd, hdone⟩ := rename_ok hok
  obtain ⟨rfl, rfl⟩ : source = D ++ [name] ∧ n = .file id mode data := by
    simpa [h.find_file htemp' hfile false] using hfind.symm
  obtain ⟨E, x, hpath, hplace⟩ := names_of_resolve hresolve hd
  have hother : E ++ [x] ≠ D ++ [name] := by
    intro heq
    rw [(List.cons.inj (List.append_inj' heq rfl).2).1] at hpath
    exact hne hpath.base_eq.symm
  rw [h.privileged_eq, h.cwd_eq, h.view_eq] at hpath
  have hpath := hpath.calm (Calm.of_update v (ends_file id mode data))
  have hold : ¬ DirectoryAt v (E ++ [x]) := by
    rw [DirectoryAt, ← Function.update_of_ne hother (some (.file id mode data)) v, ← h.view_eq,
      ← hplace]
    exact not_directoryAt_place hresolve hd
  refine ⟨E, x, hpath, hold, ?_⟩
  rw [hplace] at hdone
  obtain ⟨-, -, rfl⟩ := hdone.resolve_left fun hsame => hother hsame.1
  have hgone := h.put (x := name) htemp'.directory (hfile.symm ▸ ends_file id mode data) ends_none
  rw [Function.update_idem, ← hfree, Function.update_eq_self] at hgone
  obtain ⟨hprivileged, hcwd, hview⟩ := hgone
  rw [hfree] at hprivileged hcwd hview
  refine ⟨hprivileged, hcwd, ?_⟩
  rw [view_put (by rw [hview]; exact hpath.directory) (by rwa [hview]) rfl, hview]

/-- What is found at a path before directories are made is found there afterwards, so its mode is. -/
theorem permissions_made {n : Node} (h : Made t made name) (hstat : t.stat path = .ok n)
    (mode : Nat) : permissions made path mode = n.mode % 0o1000 := by
  unfold stat at hstat
  cases hfind : t.find true path with
  | error e => simp [hfind] at hstat
  | ok found =>
    obtain ⟨q, m⟩ := found
    obtain rfl : m = n := by simpa [hfind] using hstat
    have hview : t.view q ≠ none := by simp [FileTree.view, Node.view, get?_of_find hfind]
    obtain ⟨m', hm, hlabel⟩ :=
      find_calm hfind h.process h.calm ((h.view_or q).resolve_right fun hnew => hview hnew.1)
    have hmode : m'.mode = m.mode := by rw [← mode_label, hlabel, mode_label]
    rw [permissions, stat, hm]
    exact congrArg (· % 0o1000) hmode

theorem permissions_absent (h : (t.stat path).isOk = false) (mode : Nat) :
    permissions t path mode = mode % 0o1000 := by
  rw [permissions]
  cases hstat : t.stat path with
  | error e => rfl
  | ok n => simp [hstat, Except.isOk, Except.toBool] at h

/-- Beyond the directories that are made, a write does nothing, or it puts a file at the entry that the
path means. -/
theorem run_cases (t : FileTree) (path data : Bytes) (mode : Nat) :
    let made := (t.makeDirectories (Path.parent path)).1
    (∃ t' e, run t path data mode = (t', some e) ∧ Shows t' t.privileged t.cwd made.view) ∨
      ∃ t' D x id, run t path data mode = (t', none) ∧
        Names t.privileged t.cwd made.view path D x ∧ ¬ DirectoryAt made.view (D ++ [x]) ∧
        Shows t' t.privileged t.cwd (Function.update made.view (D ++ [x])
          (some (.file id (permissions made path mode) data))) := by
  intro made
  have hprocess := (made_makeDirectories t (Path.parent path)).process
  have hshows : Shows made t.privileged t.cwd made.view := ⟨hprocess.2, hprocess.1, rfl⟩
  unfold run
  simp only
  cases hdirectories : t.makeDirectories (Path.parent path) with
  | mk made' failed =>
    obtain rfl : made = made' := congrArg Prod.fst hdirectories
    cases failed with
    | some e => exact .inl ⟨made, _, rfl, hshows⟩
    | none =>
      simp only
      generalize permissions made path mode = mode'
      cases hwrite : Temporary.write made (Path.parent path) (Path.base path) data with
      | error e => exact .inl ⟨made, _, rfl, hshows⟩
      | ok written =>
        obtain ⟨t₁, temp⟩ := written
        obtain ⟨D, name, htemp, hD, hne, hfree, hwritten⟩ := write_ok hwrite
        rw [hshows.privileged_eq, hshows.cwd_eq] at htemp hwritten
        rw [hshows.privileged_eq] at hD
        have hends : Ends (made.view (D ++ [name])) := hfree.symm ▸ ends_none
        have hcalm (o : Option Node) := (Calm.refl made.view).update hends o
        obtain ⟨t₂, hchange, hchanged⟩ :=
          hwritten.changeMode (htemp.calm (hcalm _)) (Function.update_self ..) mode'
        rw [Function.update_idem] at hchanged
        simp only [hchange]
        cases hrename : t₂.rename temp path with
        | error e =>
          have hgone := hchanged.discard (htemp.calm (hcalm _)) (hD.calm (hcalm _))
            (by rw [Function.update_self]; exact ends_file _ _ _)
          rw [Function.update_idem, ← hfree, Function.update_eq_self] at hgone
          exact .inl ⟨_, _, rfl, hgone⟩
        | ok t₃ =>
          obtain ⟨E, x, hpath, hold, hrenamed⟩ := rename_temporary hchanged htemp hfree hne hrename
          exact .inr ⟨t₃, E, x, _, rfl, hpath, hold, hrenamed⟩

/-- The file is found at the path, unless the way to it went through a link that it replaced. -/
theorem find_written_iff (hpath : Names made.privileged made.cwd made.view path E x)
    (hold : ¬ DirectoryAt made.view (E ++ [x]))
    (h : Shows t' made.privileged made.cwd
      (Function.update made.view (E ++ [x]) (some (.file id mode data)))) :
    t'.find true path = .ok (E ++ [x], .file id mode data) ↔
      (made.put (E ++ [x]) none).resolve false path = .ok (.absent E x) := by
  have hfile := ends_file id mode data
  have hview := view_put (o := none) hpath.directory hold rfl
  have hnone : (made.put (E ++ [x]) none).view (E ++ [x]) = none := by
    rw [hview, Function.update_self]
  constructor
  · intro hfind
    obtain ⟨cs, k, htrail, -⟩ := hpath.route
    have hwalk := resolve_of_find_ok hfind
    rw [h.cwd_eq, htrail] at hwalk
    obtain ⟨j, D, hlead, hlast⟩ := leads_of_walkLinks_ok (by simp) hwalk
    have hD := admits_search.mpr (directory_of_walkLinks_ok hlast)
    -- The way that is taken now does not use the entry, so it is the way that was taken before.
    have hcalm := Calm.of_update_update made.view (q := E ++ [x]) hfile none
    rw [h.privileged_eq, h.view_eq] at hlead hD
    have hnames : Names made.privileged made.cwd (Function.update made.view (E ++ [x]) none) path D x :=
      ⟨hpath.legal, hpath.isName, hD.calm hcalm, cs, j, htrail, hlead.calm hcalm⟩
    obtain rfl := (hnames.calm (Calm.of_update _ ends_none)).unique hpath
    rw [← hview] at hnames
    exact Names.resolve_absent (t := made.put (D ++ [x]) none) hnames hnone false
  · intro hresolve
    have hnames := names_of_resolve_absent hresolve
    rw [hview] at hnames
    exact h.find_file (hnames.calm (Calm.of_update_update _ ends_none _)) (Function.update_self ..) true

/-- Only a link can lead away from itself. -/
theorem find_written (hpath : Names privileged cwd v path E x)
    (hold : ∀ n, v (E ++ [x]) = some n → n.isDirectory = false ∧ n.isLink = false)
    (h : Shows t' privileged cwd (Function.update v (E ++ [x]) (some (.file id mode data)))) :
    t'.find true path = .ok (E ++ [x], .file id mode data) := by
  refine h.find_file (hpath.keep fun q n hq hn => ?_) (Function.update_self ..) true
  refine Function.update_of_ne ?_ _ _
  rintro rfl
  obtain ⟨hdirectory, hlink⟩ := hold n hq
  simp [hdirectory, hlink] at hn

/-- Nothing is lost and nothing is left over, whatever happens. Directories are made on the way to the
directory of the path. On failure nothing else changes. Otherwise the entry that the path means, which
is no directory, is a file with the data, and nothing else changes; its mode is that of what the path
led to, and the given one where the path leads nowhere before and after directories are made. The path
leads to the file unless the way to its directory went through the very entry, which then was a
link. -/
theorem run_all_or_nothing (t : FileTree) (path data : Bytes) (mode : Nat) :
    let made := (t.makeDirectories (Path.parent path)).1
    Made t made (Path.parent path) ∧
      match run t path data mode with
      | (t', some _) => Shows t' t.privileged t.cwd made.view
      | (t', none) => ∃ D x id mode', Names t.privileged t.cwd made.view path D x ∧
        ¬ DirectoryAt made.view (D ++ [x]) ∧
        Shows t' t.privileged t.cwd
          (Function.update made.view (D ++ [x]) (some (.file id mode' data))) ∧
        (∀ n, t.stat path = .ok n → mode' = n.mode % 0o1000) ∧
        ((made.stat path).isOk = false → mode' = mode % 0o1000) ∧
        (t'.find true path = .ok (D ++ [x], .file id mode' data) ↔
          (made.put (D ++ [x]) none).resolve false path = .ok (.absent D x)) ∧
        ((∀ target, t.view (D ++ [x]) ≠ some (.link target)) →
          t'.find true path = .ok (D ++ [x], .file id mode' data)) := by
  intro made
  have hmade : Made t made (Path.parent path) := made_makeDirectories t (Path.parent path)
  refine ⟨hmade, ?_⟩
  rcases run_cases t path data mode with
    ⟨t', e, hrun, hshows⟩ | ⟨t', D, x, id, hrun, hpath, hold, hshows⟩
  · rw [hrun]
    exact hshows
  rw [hrun]
  refine ⟨D, x, id, permissions made path mode, hpath, hold, hshows,
    fun n hn => permissions_made hmade hn mode, fun h => permissions_absent h mode, ?_,
    fun hlink => find_written hpath (fun n hn => ?_) hshows⟩
  · rw [← hmade.process.1, ← hmade.process.2] at hpath hshows
    exact find_written_iff hpath hold hshows
  · rcases hmade.view_or (D ++ [x]) with heq | ⟨-, part, mode, es, -, hfind⟩
    · rw [DirectoryAt, heq] at hold
      rw [heq] at hn
      obtain ⟨m, -, rfl⟩ := Option.map_eq_some_iff.mp hn
      cases m with
      | directory mode => exact absurd ⟨mode, hn⟩ hold
      | link target => exact absurd hn (hlink target)
      | file | special => exact ⟨rfl, rfl⟩
    · exact absurd (directoryAt_view.mpr ⟨mode, es, get?_of_find hfind⟩) hold

/-- A link to the directory that it is in. -/
def loopTree : FileTree :=
  ⟨.directory 0o755 [(utf8 "w", .directory 0o755 [(utf8 "l", .link (utf8 "."))])], utf8 "/w", 1, false⟩

/-- A path through the link that is replaced leads nowhere afterwards. -/
theorem run_cuts_path :
    (run loopTree (utf8 "l/l") (utf8 "x") 0o600).2.isNone = true ∧
      ((run loopTree (utf8 "l/l") (utf8 "x") 0o600).1.stat (utf8 "l/l")).isOk = false := by
  decide +kernel

end AtomicWrite

end Linewise
