import Linewise.Proofs.LinkFreePaths
import Linewise.Proofs.ReplacementCalls

/-!
# Replacing a file never loses it

Whatever calls of a replacement fail, the old file is afterwards at its place or in a backup that
the error names. One lemma for each part of the replacement says how it can end; a replacement that
meets no failure leaves the new content and nothing else behind.
-/

namespace Linewise.Replacement
open FileTree Node

theorem infix_notRestored (cause : Error) (path backup : Bytes) (e : StepError) :
    backup <:+: (Error.notRestored cause path backup e).message :=
  ⟨cause.message ++ utf8 "; restoring " ++ path ++ utf8 " from backup ",
    utf8 " also failed: " ++ e.message, by simp only [Error.message, List.append_assoc]⟩

theorem infix_backupLeft (path backup : Bytes) (e : StepError) :
    backup <:+: (Error.backupLeft path backup e).message :=
  ⟨utf8 "updated " ++ path ++ utf8 " but failed to remove backup ",
    utf8 ": " ++ e.message, by simp only [Error.message, List.append_assoc]⟩

/-- How a replacement of `old` by `new` can end, and what stands then at the places of the file, of
the new file and of the backup. Nothing failed and `new` is in place; or `old` is in place, and the
new file is gone when nothing failed after the first failure; or `old` is in the backup and the
error names it. -/
inductive Outcome (met : List Call) (backup : Bytes) (old new : Node) :
    Option Node → Option Node → Option Node → Option Error → Prop
  | replaced (hmet : met = []) : Outcome met backup old new (some new) none none none
  | kept (e : Error) (y : Option Node) (first : Call) (more : List Call)
      (hmet : met = more ++ [first]) (hfirst : Course.isRename first ∨ Course.isChangeMode first)
      (hy : more = [] → y = none) : Outcome met backup old new (some old) y none (some e)
  | backedUp (e : Error) (x y : Option Node) (call : Call) (hcall : call ∈ met)
      (hkind : Course.isRename call ∨ call = .remove backup)
      (honly : met = [call] → call = .remove backup) (he : backup <:+: e.message) :
      Outcome met backup old new x y (some old) (some e)

/-- A replacement at a site ends in one of these ways and changes nothing elsewhere. -/
def Safe (s : Site) (u : View) (f : Faults) (old new : Node) (out : Course × Option Error) : Prop :=
  ∃ x y z, Shows out.1.tree s.privileged s.cwd (s.arrange u x y z) ∧
    Outcome (f.met out.1.calls) s.backup old new x y z out.2

section Outcome
open Site

variable {s : Site} {u : View} {c : Course} {f : Faults} {x y : Option Node} {id mode : Nat}
  {content : Bytes}

theorem restore_safe (hs : s.Valid u)
    (h : Shows c.tree s.privileged s.cwd (s.arrange u x y (some (.file id mode content)))) (hx : Ends x)
    (hy : Ends y) {first : Call} (hmet : f.met c.calls = [first])
    (hfirst : Course.isRename first ∨ Course.isChangeMode first) (new : Node) (cause : Error) :
    Safe s u f (.file id mode content) new
      (restore c f s.path s.temp s.backup cause) := by
  obtain ⟨c₁, failed, y₁, more, hremove, hshows₁, hmet₁, hmore⟩ := removeTemp_spec hs f h hy
  rw [hmet] at hmet₁
  have htried := tried_bringBack hs f hshows₁ hx
  rw [restore, hremove]
  simp only
  generalize c₁.rename f s.backup s.path = out at htried ⊢
  cases htried with
  | struck c₂ hshows₂ hmet₂ =>
    have hcall : .rename s.backup s.path ∈ f.met c₂.calls := by
      rw [hmet₂]
      exact List.mem_cons_self
    refine ⟨x, y₁, _, hshows₂, .backedUp _ x y₁ _ hcall (.inl rfl) (fun honly => ?_) ?_⟩
    · -- The failure that made it go back is another one.
      rw [hmet₂, hmet₁] at honly
      simp at honly
    · exact infix_notRestored cause s.path s.backup .injected
  | made c₂ hshows₂ hmet₂ =>
    exact ⟨_, y₁, none, hshows₂, .kept _ y₁ first more (hmet₂.trans hmet₁) hfirst hmore⟩

theorem finish_safe (hs : s.Valid u) {newMode newId : Nat} {data : Bytes}
    (h : Shows c.tree s.privileged s.cwd (s.arrange u (some (.file newId newMode data)) none
      (some (.file id mode content)))) (hmet : f.met c.calls = []) :
    Safe s u f (.file id mode content) (.file newId mode data)
      (finish c f s.path s.temp s.backup mode) := by
  have htried := tried_changeMode hs f h mode
  rw [finish]
  generalize c.changeMode f s.path mode = out at htried ⊢
  cases htried with
  | struck c₁ hshows₁ hmet₁ =>
    rw [hmet] at hmet₁
    exact restore_safe hs hshows₁ (ends_file _ _ _) ends_none hmet₁ (.inr rfl) _ _
  | made c₁ hshows₁ hmet₁ =>
    have htried := tried_removeBackup hs f hshows₁
    simp only
    generalize c₁.remove f s.backup = out at htried ⊢
    cases htried with
    | struck c₂ hshows₂ hmet₂ =>
      have hcall : .remove s.backup ∈ f.met c₂.calls := by
        rw [hmet₂]
        exact List.mem_cons_self
      exact ⟨_, none, _, hshows₂, .backedUp _ _ none _ hcall (.inr rfl) (fun _ => rfl)
        (infix_backupLeft s.path s.backup .injected)⟩
    | made c₂ hshows₂ hmet₂ =>
      exact ⟨_, none, none, hshows₂, .replaced (hmet₂.trans (hmet₁.trans hmet))⟩

theorem moveIn_safe (hs : s.Valid u) {newMode newId : Nat} {data : Bytes}
    (h : Shows c.tree s.privileged s.cwd (s.arrange u none (some (.file newId newMode data))
      (some (.file id mode content)))) (hmet : f.met c.calls = []) :
    Safe s u f (.file id mode content) (.file newId mode data)
      (moveIn c f s.path s.temp s.backup mode) := by
  have htried := tried_moveIn hs f h ends_none
  rw [moveIn]
  generalize c.rename f s.temp s.path = out at htried ⊢
  cases htried with
  | struck c₁ hshows₁ hmet₁ =>
    rw [hmet] at hmet₁
    exact restore_safe hs hshows₁ ends_none (ends_file _ _ _) hmet₁ (.inl rfl) _ _
  | made c₁ hshows₁ hmet₁ => exact finish_safe hs hshows₁ (hmet₁.trans hmet)

theorem swap_safe (hs : s.Valid u) {newMode newId : Nat} {data : Bytes}
    (h : Shows c.tree s.privileged s.cwd (s.arrange u (some (.file id mode content))
      (some (.file newId newMode data)) none)) (hmet : f.met c.calls = []) :
    Safe s u f (.file id mode content) (.file newId mode data)
      (swap c f s.path s.temp s.backup mode) := by
  have htried := tried_setAside hs f h ends_none
  rw [swap]
  generalize c.rename f s.path s.backup = out at htried ⊢
  cases htried with
  | struck c₁ hshows₁ hmet₁ =>
    obtain ⟨c₂, failed, y, more, hremove, hshows₂, hmet₂, hmore⟩ :=
      removeTemp_spec hs f hshows₁ (ends_file _ _ _)
    rw [hmet₁, hmet] at hmet₂
    simp only [hremove]
    exact ⟨_, y, none, hshows₂, .kept _ y _ more hmet₂ (.inl rfl) hmore⟩
  | made c₁ hshows₁ hmet₁ => exact moveIn_safe hs hshows₁ (hmet₁.trans hmet)

end Outcome

/-- The path has the form of a backup path of the file at `r`. -/
def IsBackupOf (r backup : Bytes) : Prop :=
  ∃ k, backup = Path.join [Path.parent r, backupName (Path.base r) k]

/-- The temporary and the backup names that a replacement in a directory with at most `n` entries
can come to are legal. -/
structure Roomy (n : Nat) (r : Bytes) : Prop where
  temporary : ∀ k ≤ n, (Temporary.nameOf (Path.base r) k).length ≤ maxName ∧
    (Temporary.pathIn (Path.parent r) (Temporary.nameOf (Path.base r) k)).length ≤ maxPath
  backup : ∀ k ≤ n + 1, (backupName (Path.base r) k).length ≤ maxName ∧
    (Path.join [Path.parent r, backupName (Path.base r) k]).length ≤ maxPath

theorem Roomy.legal_parent {n : Nat} {r : Bytes} (h : Roomy n r) (hzero : 0 ∉ Path.parent r) :
    IsLegal (Path.parent r) := by
  refine ⟨hzero, Path.parent_ne_nil r, ?_⟩
  have hlen := (h.temporary 0 (Nat.zero_le n)).2
  rw [Temporary.pathIn, List.length_append, List.length_append] at hlen
  omega

theorem Roomy.mono {m n : Nat} {r : Bytes} (h : Roomy n r) (hle : m ≤ n) : Roomy m r :=
  ⟨fun k hk => h.temporary k (by omega), fun k hk => h.backup k (by omega)⟩

/-- A site at the file `r`, with nothing yet at the places of the new file and of the backup. -/
structure Site.Ready (s : Site) (u : View) (privileged : Bool) (cwd : Bytes) (r : Bytes) (D : Place) :
    Prop where
  valid : s.Valid u
  privileged_eq : s.privileged = privileged
  cwd_eq : s.cwd = cwd
  path_eq : s.path = r
  file_eq : s.file = D ++ [Path.base r]
  backup : IsBackupOf r s.backup
  fresh_none : u s.fresh = none
  saved_none : u s.saved = none

theorem Site.Ready.arrange_eq {s : Site} {u : View} {privileged : Bool} {cwd r : Bytes} {D : Place}
    (hs : s.Ready u privileged cwd r D) (x y : Option Node) :
    s.arrange u x y none = Function.update (Function.update u s.file x) s.fresh y := by
  have hne := saved_ne_file hs.valid
  rw [arrange, Function.update_eq_self_iff, Function.update_of_ne (saved_ne_fresh hs.valid),
    Function.update_of_ne hne, hs.saved_none]

theorem Site.Ready.arrange_none {s : Site} {u : View} {privileged : Bool} {cwd r : Bytes} {D : Place}
    (hs : s.Ready u privileged cwd r D) (x : Option Node) :
    s.arrange u x none none = Function.update u s.file x := by
  rw [hs.arrange_eq, Function.update_eq_self_iff,
    Function.update_of_ne (fresh_ne_file hs.valid), hs.fresh_none]

section Run
open Site

variable {c : Course} {f : Faults} {privileged : Bool} {cwd : Bytes} {v : View} {D : Place} {r : Bytes}
  {id mode : Nat} {content : Bytes}

/-- The new file goes to a free name beside the file. -/
theorem write_spec {t : FileTree} (hb : Beside privileged cwd v r D)
    (hD : Admits .write privileged v D) (h : Shows t privileged cwd v)
    (hroom : Roomy (t.entryCount (Path.parent r)) r) (data : Bytes) :
    ∃ temp name, Temporary.write t (Path.parent r) (Path.base r) data =
        .ok (t.putFile (D ++ [name]) 0o600 data, temp) ∧
      Names privileged cwd v temp D name ∧ v (D ++ [name]) = none := by
  obtain ⟨j, hlead⟩ := hb.parent
  obtain ⟨hfree, hle⟩ := h.freeNumber (hroom.legal_parent hb.zero_parent) hlead
    (Temporary.nameOf_injective (Path.base r))
  obtain ⟨hname, hpath⟩ := hroom.temporary _ hle
  obtain ⟨hpart, hzero, hname⟩ := Temporary.isName_nameOf hb.isPart hb.zero_base hname
  have htemp := hb.pathIn hpart hzero hname hpath
  refine ⟨_, _, ?_, htemp, hfree⟩
  rw [Temporary.write, if_neg (by simpa using hb.isPart.2)]
  simp only [h.createNew htemp hD hfree]

theorem backupPath_spec {t : FileTree} {n : Nat} (hb : Beside privileged cwd v r D)
    (h : Shows t privileged cwd v)
    (hroom : Roomy n r) (hn : t.entryCount (Path.parent r) ≤ n + 1) :
    ∃ name, Names privileged cwd v (backupPath t (Path.parent r) (Path.base r)) D name ∧
      v (D ++ [name]) = none ∧ IsBackupOf r (backupPath t (Path.parent r) (Path.base r)) := by
  obtain ⟨j, hlead⟩ := hb.parent
  obtain ⟨hfree, hle⟩ := h.freeNumber (hroom.legal_parent hb.zero_parent) hlead
    (backupName_injective (Path.base r))
  obtain ⟨hname, hpath⟩ := hroom.backup _ (hle.trans hn)
  obtain ⟨hpart, hzero, hname⟩ := isName_backupName hb.isPart hb.zero_base hname
  exact ⟨_, hb.join hpart hzero hname hpath, hfree, _, rfl⟩

/-- A name that is free for the new file, and one that is then free for the backup, make the place of
a replacement a site. -/
theorem ready_of_free (hb : Beside privileged cwd v r D) (hD : Admits .write privileged v D)
    (hfile : v (D ++ [Path.base r]) = some (.file id mode content))
    {temp tempName backup savedName : Bytes} {o : Node} (ho : Ends (some o))
    (htemp : Names privileged cwd v temp D tempName) (htempFree : v (D ++ [tempName]) = none)
    (hsaved : Names privileged cwd (Function.update v (D ++ [tempName]) (some o)) backup D savedName)
    (hsavedFree : Function.update v (D ++ [tempName]) (some o) (D ++ [savedName]) = none)
    (hbackup : IsBackupOf r backup) :
    Ready ⟨privileged, cwd, D, r, Path.base r, temp, tempName, backup, savedName⟩
      v privileged cwd r D := by
  -- Names that are taken differ from names that are free.
  have hfileTemp : Path.base r ≠ tempName := by
    intro heq
    rw [← heq, hfile] at htempFree
    simp at htempFree
  have htempSaved : tempName ≠ savedName := by
    rintro rfl
    rw [Function.update_self] at hsavedFree
    simp at hsavedFree
  rw [Function.update_of_ne (by simpa using htempSaved.symm)] at hsavedFree
  have hfileSaved : Path.base r ≠ savedName := by
    intro heq
    rw [← heq, hfile] at hsavedFree
    simp at hsavedFree
  refine ⟨⟨hb.self, htemp, hsaved.calm (.of_update v ho), hD, hfileTemp, hfileSaved, htempSaved, ?_,
    ?_, ?_⟩, rfl, rfl, rfl, rfl, hbackup, htempFree, hsavedFree⟩
  · exact hfile.symm ▸ ends_file id mode content
  · exact htempFree.symm ▸ ends_none
  · exact hsavedFree.symm ▸ ends_none

/-- A site with a lock elsewhere in the directory is a site without it. -/
theorem Site.Ready.unlock {s : Site} {L : Place} {o : Node} (ho : Ends (some o))
    (hs : Ready s (Function.update v L (some o)) privileged cwd r D) (hfile : L ≠ s.file) :
    Ready s v privileged cwd r D ∧ L ≠ s.fresh ∧ L ≠ s.saved := by
  have hne {q : Place} (hq : Function.update v L (some o) q = none) : L ≠ q := by
    rintro rfl
    rw [Function.update_self] at hq
    simp at hq
  have hfresh := hne hs.fresh_none
  have hsaved := hne hs.saved_none
  have hcalm : Calm (Function.update v L (some o)) v := .of_update v ho
  obtain ⟨⟨hpath, htemp, hbackup, hwrite, hpt, hpb, htb, hendFile, hendFresh, hendSaved⟩,
    hprivileged, hcwd, hpathEq, hfileEq, hisBackup, hfreshNone, hsavedNone⟩ := hs
  rw [Function.update_of_ne hfile.symm] at hendFile
  rw [Function.update_of_ne hfresh.symm] at hendFresh hfreshNone
  rw [Function.update_of_ne hsaved.symm] at hendSaved hsavedNone
  exact ⟨⟨⟨hpath.calm hcalm, htemp.calm hcalm, hbackup.calm hcalm, hwrite.calm hcalm, hpt, hpb, htb,
    hendFile, hendFresh, hendSaved⟩, hprivileged, hcwd, hpathEq, hfileEq, hisBackup, hfreshNone,
    hsavedNone⟩, hfresh, hsaved⟩

/-- Taking away the lock undoes what setting it did. -/
theorem Site.update_arrange_lock {s : Site} {L : Place} (hL : v L = none) (hfile : L ≠ s.file)
    (hfresh : L ≠ s.fresh) (hsaved : L ≠ s.saved) (o x y z : Option Node) :
    Function.update (s.arrange (Function.update v L o) x y z) L none = s.arrange v x y z := by
  rw [arrange, Function.update_comm hsaved.symm, Function.update_comm hfresh.symm,
    Function.update_comm hfile.symm, Function.update_idem, ← hL, Function.update_eq_self, arrange]

end Run

end Linewise.Replacement
