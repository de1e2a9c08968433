import Linewise.Proofs.GrantedRequests
import Linewise.Proofs.ReplacementSafety

/-!
# How replacements end

A replacement can be declined before the file is moved: the process may not write the file or its
directory, or a name or a path beside the file is too long for the system. A replacement that is not
declined ends in one of the ways of `Outcome`. So the old file is never lost, whatever calls fail: it
is afterwards at its place or in a backup that the error names.
-/

namespace Linewise.Replacement
open FileTree Node Site

theorem met_none (calls : List Call) : ({} : Faults).met calls = [] := by
  induction calls with
  | nil => rfl
  | cons call before ih => cases call <;> simpa [Faults.met, Faults.strikes] using ih

variable {t t' : FileTree} {c : Course} {f : Faults} {privileged : Bool} {cwd : Bytes} {v : View}
  {D : Place} {r n : Bytes} {id mode : Nat} {content data : Bytes}

/-- A path beside a file that the system follows names an entry of the directory of the file. -/
theorem names_join (hb : Beside privileged cwd v r D) (hn : Path.Regular n) {follow : Bool}
    {d : Destination}
    (hok : t.resolve follow (Path.join [Path.parent r, n]) = .ok d) :
    Names privileged cwd v (Path.join [Path.parent r, n]) D n := by
  obtain ⟨hpath, hname⟩ :=
    lengths_of_resolve_ok hok (trail_join_name (Path.parent_ne_nil r) hn.isEntry t.cwd)
  exact hb.join hn.isPart hn.zero (hn.isName hname) hpath

theorem names_pathIn (hb : Beside privileged cwd v r D) (hn : Path.Regular n) {follow : Bool}
    {d : Destination}
    (hok : t.resolve follow (Temporary.pathIn (Path.parent r) n) = .ok d) :
    Names privileged cwd v (Temporary.pathIn (Path.parent r) n) D n := by
  obtain ⟨hpath, hname⟩ := lengths_of_resolve_ok hok (trail_pathIn r hn.isPart t.cwd)
  exact hb.pathIn hn.isPart hn.zero (hn.isName hname) hpath

theorem legal_parent (hb : Beside privileged cwd v r D)
    (hn : Names privileged cwd v (Temporary.pathIn (Path.parent r) n) D n) :
    IsLegal (Path.parent r) := by
  refine ⟨hb.zero_parent, Path.parent_ne_nil r, ?_⟩
  have hlen := hn.legal.2.2
  rw [Temporary.pathIn, List.length_append, List.length_append] at hlen
  omega

/-- A new file that could be written has a name of its own. -/
theorem write_ok {temp : Bytes} (hb : Beside privileged cwd v r D) (h : Shows t privileged cwd v)
    (hok : Temporary.write t (Path.parent r) (Path.base r) data = .ok (t', temp)) :
    ∃ name, t' = t.putFile (D ++ [name]) 0o600 data ∧ Names privileged cwd v temp D name ∧
      Admits .write privileged v D ∧ v (D ++ [name]) = none ∧ IsLegal (Path.parent r) ∧
      name ≠ Path.base r := by
  obtain ⟨-, hpath, hcreate⟩ := Temporary.write_ok hok
  obtain ⟨E, x, habsent, halter, rfl⟩ := createNew_ok hcreate
  generalize hk : t.freeNumber (Path.parent r) (Temporary.nameOf (Path.base r)) = k at hpath
  have hnames : Names privileged cwd v temp D (Temporary.nameOf (Path.base r) k) := by
    rw [hpath] at habsent ⊢
    exact names_pathIn hb (Temporary.regular_nameOf hb.isPart hb.zero_base k) habsent
  have hlegal := legal_parent hb (hpath ▸ hnames)
  obtain ⟨j, hlead⟩ := hb.parent
  obtain ⟨hfree, -⟩ := h.freeNumber hlegal hlead (Temporary.nameOf_injective (Path.base r))
  rw [hk] at hfree
  obtain ⟨rfl, rfl⟩ : E = D ∧ x = Temporary.nameOf (Path.base r) k := by
    rw [h.resolve_absent hnames hfree] at habsent
    cases habsent
    exact ⟨rfl, rfl⟩
  have hE := (mayAlter_iff (view_of_resolve_absent habsent).1.directory).mp halter
  rw [h.privileged_eq, h.view_eq] at hE
  exact ⟨_, rfl, hnames, hE, hfree, hlegal, Temporary.nameOf_ne _ k⟩

/-- A replacement that is declined: the file stays where it is, and so does everything else, but for the
new file when the call that takes it away again was struck. -/
inductive Declined (privileged : Bool) (cwd : Bytes) (v : View) (f : Faults) :
    Course × Option Error → Prop
  | unchanged (c : Course) (e : Error) (h : Shows c.tree privileged cwd v) :
      Declined privileged cwd v f (c, some e)
  | littered (c : Course) (e : Error) (q : Place) (n : Node) (hq : v q = none)
      (hn : Ends (some n)) (h : Shows c.tree privileged cwd (Function.update v q (some n)))
      (path : Bytes) (more : List Call) (hmet : f.met c.calls = .remove path :: more) :
      Declined privileged cwd v f (c, some e)

/-- A call that is refused changes nothing. -/
theorem call_error (c : Course) (fault : Bool) (step : Call) (e : PathError) :
    ∃ failed, c.call fault step (.error e) =
      ({ c with calls := step :: c.calls }, some failed) := by
  cases fault with
  | true => exact ⟨_, rfl⟩
  | false => exact ⟨_, rfl⟩

/-- The new file is written, at a place where nothing was, and the file cannot be moved aside. Then the
new file can be taken away again. -/
structure Blocked (privileged : Bool) (cwd : Bytes) (v : View) (r temp backup : Bytes)
    (t₁ : FileTree) : Prop where
  refused : ∃ e, t₁.rename r backup = .error e
  written : ∃ q n, v q = none ∧ Ends (some n) ∧
    Shows t₁ privileged cwd (Function.update v q (some n))
  removed : ∃ t₂, t₁.remove temp = .ok t₂ ∧ Shows t₂ privileged cwd v

theorem Blocked.declined {temp backup : Bytes} (h : Blocked privileged cwd v r temp backup c.tree)
    (f : Faults) (mode : Nat) : Declined privileged cwd v f (swap c f r temp backup mode) := by
  obtain ⟨⟨e, hrename⟩, ⟨q, n, hq, hn, hwritten⟩, t₂, hremove, hshows⟩ := h
  obtain ⟨failed, hfails⟩ := call_error c (f.rename (c.next Course.isRename)) (.rename r backup) e
  rw [swap, Course.rename, hrename, hfails]
  simp only
  generalize hc' : ({ c with calls := .rename r backup :: c.calls } : Course) = c'
  have htree : c'.tree = c.tree := hc' ▸ rfl
  have htried : Tried f c' (.remove temp) privileged cwd _ _ (c'.remove f temp) :=
    tried_call (.remove temp) (htree ▸ hwritten) (htree ▸ hremove) hshows
  generalize c'.remove f temp = out at htried ⊢
  cases htried with
  | struck c'' hshows hmet => exact .littered _ _ q n hq hn hshows _ _ hmet
  | made c'' hshows => exact .unchanged _ _ hshows

/-- Once the new file is written, the file can be moved aside, unless there is no room for the name of
the backup. Then the place of the replacement is a site. -/
theorem site_of_write {t₁ : FileTree} {temp : Bytes} (hb : Beside privileged cwd v r D)
    (h : Shows t privileged cwd v)
    (hfile : v (D ++ [Path.base r]) = some (.file id mode content))
    (hw : Temporary.write t (Path.parent r) (Path.base r) data = .ok (t₁, temp)) :
    let backup := backupPath t₁ (Path.parent r) (Path.base r)
    Beside t₁.privileged t₁.cwd t₁.view r D ∧
      t₁.view (D ++ [Path.base r]) = some (.file id mode content) ∧
      (¬Roomy (t.entryCount (Path.parent r)) r ∧ Blocked privileged cwd v r temp backup t₁ ∨
        ∃ tempName k, let s : Site := ⟨privileged, cwd, D, r, Path.base r, temp, tempName, backup,
            Replacement.backupName (Path.base r) k⟩
          Ready s v privileged cwd r D ∧ Shows t₁ privileged cwd (arrange s v
            (some (.file id mode content)) (some (.file t.nextId 0o600 data)) none)) := by
  intro backup
  obtain ⟨tempName, ht₁, htemp, hD, htempFree, hlegal, hne⟩ := write_ok hb h hw
  have hends : Ends (v (D ++ [tempName])) := htempFree.symm ▸ ends_none
  have hcalm := (Calm.refl v).update hends (some (.file t.nextId 0o600 data))
  have hwritten := ht₁ ▸ h.putFile htemp.directory hends 0o600 data
  have hbw := hb.calm hcalm
  have hfilew : Function.update v (D ++ [tempName]) (some (.file t.nextId 0o600 data))
      (D ++ [Path.base r]) = some (.file id mode content) := by
    rw [Function.update_of_ne (by simpa using hne.symm), hfile]
  refine ⟨by rwa [hwritten.privileged_eq, hwritten.cwd_eq, hwritten.view_eq],
    hwritten.view_eq.symm ▸ hfilew, ?_⟩
  obtain ⟨j, hlead⟩ := hb.parent
  cases hr : t₁.resolve false backup with
  | error e =>
    refine .inl ⟨fun hroom => ?_, ⟨⟨"rename", r ++ utf8 " " ++ backup, e⟩, ?_⟩,
      ⟨_, _, htempFree, ends_file _ _ _, hwritten⟩, ?_⟩
    · -- The path of the backup is one that the system follows.
      have hcount := h.entryCount_putFile_le hlegal hlead hends 0o600 data
      rw [← ht₁] at hcount
      obtain ⟨name, hbackup, hfree, -⟩ := backupPath_spec hbw hwritten hroom hcount
      cases hr.symm.trans (hwritten.resolve_absent hbackup hfree false)
    · simp only [FileTree.rename, hwritten.find_file hbw.self hfilew, hr]
    · obtain ⟨t₂, hremove, hshows⟩ :=
        hwritten.remove (htemp.calm hcalm) (hD.calm hcalm) (Function.update_self _ _ _)
      rw [Function.update_idem, ← htempFree, Function.update_eq_self] at hshows
      exact ⟨t₂, hremove, hshows⟩
  | ok d =>
    obtain ⟨hsavedFree, -⟩ := hwritten.freeNumber hlegal (hlead.calm hcalm)
      (backupName_injective (Path.base r))
    have hready := ready_of_free hb hD hfile (ends_file _ _ _) htemp htempFree
      (names_join hbw (regular_backupName hb.isPart hb.zero_base _) hr) hsavedFree ⟨_, rfl⟩
    have harranged := hready.arrange_eq (some (.file id mode content))
      (some (.file t.nextId 0o600 data))
    rw [← hfile, hready.file_eq, Function.update_eq_self, hfile] at harranged
    exact .inr ⟨tempName, _, hready, harranged ▸ hwritten⟩

/-- A replacement under a lock is declined only when a name or a path beside the file is too long. -/
theorem runLocked_ends (hb : Beside privileged cwd v r D) (hD : Admits .write privileged v D)
    (h : Shows c.tree privileged cwd v)
    (hfile : v (D ++ [Path.base r]) = some (.file id mode content)) (hmet : f.met c.calls = [])
    (data : Bytes) :
    (∃ s newId, Ready s v privileged cwd r D ∧
      Safe s v f (.file id mode content) (.file newId mode data) (runLocked c f r data)) ∨
      ¬Roomy (c.tree.entryCount (Path.parent r)) r ∧
        Declined privileged cwd v f (runLocked c f r data) := by
  have hstat : c.tree.stat r = .ok (.file id mode content) := by
    rw [stat, h.find_file hb.self hfile]
  simp only [runLocked, hstat]
  cases hw : Temporary.write c.tree (Path.parent r) (Path.base r) data with
  | error e =>
    refine .inr ⟨fun hroom => ?_, .unchanged _ _ h⟩
    obtain ⟨temp, name, hwrite, -⟩ := write_spec hb hD h hroom data
    cases hw.symm.trans hwrite
  | ok written =>
    obtain ⟨t₁, temp⟩ := written
    obtain ⟨-, -, hsite⟩ := site_of_write hb h hfile hw
    rcases hsite with ⟨hroom, hblocked⟩ | ⟨tempName, k, hready, hshows⟩
    · exact .inr ⟨hroom, hblocked.declined (c := c.moveTo t₁) f _⟩
    · exact .inl ⟨_, _, hready, swap_safe (c := c.moveTo t₁) hready.valid hshows hmet⟩

/-- A lock that was made is an entry of the directory, which the process may write. -/
theorem openOrCreate_lock {place : Place} (hb : Beside privileged cwd v r D)
    (h : Shows t privileged cwd v) (hlock : v (D ++ [lockName (Path.base r)]) = none)
    (hok : t.openOrCreate [.read] (lockPath r) 0o600 = .ok (t', place)) :
    Names privileged cwd v (lockPath r) D (lockName (Path.base r)) ∧ Admits .write privileged v D ∧
      t' = t.putFile (D ++ [lockName (Path.base r)]) 0o600 [] := by
  have hnames : Names privileged cwd v (lockPath r) D (lockName (Path.base r)) := by
    cases hr : t.resolve true (lockPath r) with
    | ok d => exact names_join hb (regular_lockName hb.isPart hb.zero_base) hr
    | error e =>
      simp only [openOrCreate, hr] at hok
      split at hok
      · split at hok <;> simp at hok
      · simp at hok
  have habsent := h.resolve_absent hnames hlock true
  obtain ⟨-, n, hfound, -⟩ | ⟨E, x, habsent', halter, rfl, rfl⟩ := openOrCreate_ok hok
  · cases habsent.symm.trans hfound
  obtain ⟨rfl, rfl⟩ : D = E ∧ _ = x := by simpa [habsent] using habsent'
  have hD := (mayAlter_iff (view_of_resolve_absent habsent).1.directory).mp halter
  rw [h.privileged_eq, h.view_eq] at hD
  exact ⟨hnames, hD, rfl⟩

section Unlock

variable {s : Site} {L : Place} {o old new : Node} {out : Course × Option Error}
  (hL : L = D ++ [lockName (Path.base r)]) (ho : Ends (some o)) (hlock : v L = none)
  (hnames : Names privileged cwd v (lockPath r) D (lockName (Path.base r)))
  (hD : Admits .write privileged v D)
include hL ho hlock hnames hD

/-- Taking the lock away undoes what making it did. -/
theorem Safe.unlock (hLfile : L ≠ D ++ [Path.base r])
    (hready : Ready s (Function.update v L (some o)) privileged cwd r D)
    (h : Safe s (Function.update v L (some o)) f old new out) :
    Ready s v privileged cwd r D ∧
      Safe s v f old new (out.1.moveTo (out.1.tree.discard (lockPath r)), out.2) := by
  obtain ⟨x, y, z, hshows, hout⟩ := h
  have hsfile : L ≠ s.file := hready.file_eq ▸ hLfile
  obtain ⟨hready', hfresh, hsaved⟩ := hready.unlock ho hsfile
  have hcalm : Calm v (Function.update v L (some o)) :=
    (Calm.refl v).update (hlock.symm ▸ ends_none) _
  have hcalm' := calm_arrange hready.valid x y z
  rw [hready.privileged_eq, hready.cwd_eq] at hshows
  have hends : Ends (s.arrange (Function.update v L (some o)) x y z L) := by
    rwa [arrange_of_ne s _ x y z hsfile hfresh hsaved, Function.update_self]
  have hdiscard := hshows.discard ((hnames.calm hcalm).calm hcalm') ((hD.calm hcalm).calm hcalm')
    (hL ▸ hends)
  rw [← hL, update_arrange_lock hlock hsfile hfresh hsaved] at hdiscard
  refine ⟨hready', x, y, z, ?_, hout⟩
  rw [hready.privileged_eq, hready.cwd_eq]
  exact hdiscard

theorem Declined.unlock (h : Declined privileged cwd (Function.update v L (some o)) f out) :
    Declined privileged cwd v f
      (out.1.moveTo (out.1.tree.discard (lockPath r)), out.2) := by
  have hcalm : Calm v (Function.update v L (some o)) :=
    (Calm.refl v).update (hlock.symm ▸ ends_none) _
  cases h with
  | unchanged c e h =>
    have hdone := h.discard (hnames.calm hcalm) (hD.calm hcalm) (by simpa [hL] using ho)
    rw [← hL, Function.update_idem, ← hlock, Function.update_eq_self] at hdone
    exact .unchanged _ e hdone
  | littered c e q n hq hn h path more hmet =>
    have hne : L ≠ q := by
      rintro rfl
      simp at hq
    rw [Function.update_of_ne hne.symm] at hq
    have hcalm' := hcalm.update (q := q) (hq.symm ▸ ends_none) (some n)
    have hends : Ends (Function.update (Function.update v L (some o)) q (some n) L) := by
      rwa [Function.update_of_ne hne, Function.update_self]
    have hdone := h.discard (hnames.calm hcalm') (hD.calm hcalm') (hL ▸ hends)
    rw [← hL, Function.update_comm hne.symm, Function.update_idem, ← hlock,
      Function.update_eq_self] at hdone
    exact .littered _ e q n hq hn hdone path more hmet

end Unlock

/-- Whether a file can be opened for writing is a matter of its mode. -/
theorem isOk_checkWritable (hb : Beside privileged cwd v r D) (h : Shows t privileged cwd v)
    (hfile : v (D ++ [Path.base r]) = some (.file id mode content)) :
    (t.checkWritable r).isOk = Access.write.granted privileged mode := by
  rw [checkWritable, h.find_file hb.self hfile]
  cases hw : Access.write.granted privileged mode with
  | true => simp [refusal?, grants, Node.mode, h.privileged_eq, hw, Except.isOk, Except.toBool]
  | false => simp [refusal?, grants, Node.mode, h.privileged_eq, hw, Except.isOk, Except.toBool]

/-- The names of the lock, of the new file and of the backup are legal beside the file at `r`. The
lock and the new file are entries of the directory when the name of the backup is looked for. -/
structure HasRoom (t : FileTree) (r : Bytes) : Prop where
  lockName : (lockName (Path.base r)).length ≤ maxName
  lockPath : (lockPath r).length ≤ maxPath
  others : Roomy (t.entryCount (Path.parent r) + 1) r

/-- A replacement is declined only when the process may not write the file or its directory or there is
no room for the names beside the file. -/
theorem runResolved_ends (hb : Beside privileged cwd v r D) (h : Shows c.tree privileged cwd v)
    (hfile : v (D ++ [Path.base r]) = some (.file id mode content))
    (hlock : v (D ++ [lockName (Path.base r)]) = none) (hmet : f.met c.calls = []) (data : Bytes) :
    (Access.write.granted privileged mode = true ∧ ∃ s newId, Ready s v privileged cwd r D ∧
      Safe s v f (.file id mode content) (.file newId mode data) (runResolved c f r data)) ∨
      ¬(Access.write.granted privileged mode = true ∧ Admits .write privileged v D ∧
        HasRoom c.tree r) ∧ Declined privileged cwd v f (runResolved c f r data) := by
  have hgranted := isOk_checkWritable hb h hfile
  cases hw : c.tree.checkWritable r with
  | error e =>
    rw [hw] at hgranted
    simp only [runResolved, hw]
    exact .inr ⟨fun hall => (nomatch hgranted.trans hall.1), .unchanged _ _ h⟩
  | ok _ =>
    have hwrite : Access.write.granted privileged mode = true := by
      rw [← hgranted, hw]
      rfl
    simp only [runResolved, hw]
    cases ho : c.tree.openOrCreate [.read] (lockPath r) 0o600 with
    | error e =>
      refine .inr ⟨?_, .unchanged _ _ h⟩
      rintro ⟨-, hD, hroom⟩
      obtain ⟨hpart, hzero, hname⟩ := isName_lockName hb.isPart hb.zero_base hroom.lockName
      have hnames := hb.join hpart hzero hname hroom.lockPath
      cases ho.symm.trans (h.openOrCreate hnames hD hlock [.read] 0o600)
    | ok opened =>
      obtain ⟨t₁, place⟩ := opened
      obtain ⟨hnames, hD, rfl⟩ := openOrCreate_lock hb h hlock ho
      have hends : Ends (v (D ++ [lockName (Path.base r)])) := hlock.symm ▸ ends_none
      have hcalm := (Calm.refl v).update hends (some (.file c.tree.nextId 0o600 []))
      have hne : D ++ [lockName (Path.base r)] ≠ D ++ [Path.base r] := by
        intro heq
        rw [heq, hfile] at hlock
        simp at hlock
      have hcount (hroom : HasRoom c.tree r) :
          (c.tree.putFile (D ++ [lockName (Path.base r)]) 0o600 []).entryCount (Path.parent r) ≤
            c.tree.entryCount (Path.parent r) + 1 := by
        obtain ⟨j, hlead⟩ := hb.parent
        exact h.entryCount_putFile_le (hroom.others.legal_parent hb.zero_parent) hlead hends 0o600 []
      have hlocked := runLocked_ends (c := c.moveTo (c.tree.putFile _ 0o600 [])) (f := f)
        (hb.calm hcalm) (hD.calm hcalm) (h.putFile hnames.directory hends 0o600 [])
        (by rw [Function.update_of_ne hne.symm, hfile]) hmet data
      rcases hlocked with ⟨s, newId, hready, hsafe⟩ | ⟨hfull, hdeclined⟩
      · obtain ⟨hready', hsafe'⟩ :=
          hsafe.unlock rfl (ends_file _ _ _) hlock hnames hD hne hready
        exact .inl ⟨hwrite, s, newId, hready', hsafe'⟩
      · exact .inr ⟨fun hall => hfull (hall.2.2.others.mono (hcount hall.2.2)),
          hdeclined.unlock rfl (ends_file _ _ _) hlock hnames hD⟩

/-- The view is as it was, or the file at `F` has new content and the mode that it had. -/
def Replaces (t : FileTree) (privileged : Bool) (cwd : Bytes) (v : View) (F : Place) (mode : Nat)
    (data : Bytes) : Prop :=
  Shows t privileged cwd v ∨
    ∃ newId, Shows t privileged cwd (Function.update v F (some (.file newId mode data)))

theorem Safe.replaces {s : Site} (hs : s.Ready v privileged cwd r D) {newId : Nat}
    {out : Course × Option Error}
    (h : Safe s v {} (.file id mode content) (.file newId mode data) out) :
    Replaces out.1.tree privileged cwd v (D ++ [Path.base r]) mode data := by
  obtain ⟨c, failed⟩ := out
  obtain ⟨x, y, z, hshows, hout⟩ := h
  rw [met_none] at hout
  cases hout with
  | replaced =>
    rw [hs.arrange_none, hs.privileged_eq, hs.cwd_eq, hs.file_eq] at hshows
    exact .inr ⟨newId, hshows⟩
  | kept e y first more hmet => simp at hmet
  | backedUp e x y call hcall => simp at hcall

/-- A replacement of which no call is made to fail leaves the tree as it was or with the new content
in place of the old one. -/
theorem run_replaces {path old : Bytes} {place : Place}
    (hfile : t.find true path = .ok (place, .file id mode old))
    (hlock : ∀ D name, place = D ++ [name] → t.view (D ++ [lockName name]) = none) (data : Bytes) :
    Replaces (run t {} path data).1.tree t.privileged t.cwd t.view place mode data := by
  simp only [run]
  cases hr : t.realPath path with
  | error e => exact .inl ⟨rfl, rfl, rfl⟩
  | ok r =>
    obtain ⟨D, hb, rfl, hview⟩ := beside_of_find_file hr (find_realPath hfile hr)
    rcases runResolved_ends (c := { tree := t }) (f := {}) hb ⟨rfl, rfl, rfl⟩ hview (hlock D _ rfl)
      rfl data with ⟨-, s, newId, hready, hsafe⟩ | ⟨-, hdeclined⟩
    · exact hsafe.replaces hready
    · simp only
      generalize runResolved { tree := t } {} r data = out at hdeclined
      cases hdeclined with
      | unchanged c e h => exact .inl h
      | littered c e q n hq hn h path more hmet => simp [met_none] at hmet

/-- A call without which the file is not replaced: all but the removal of the new file. -/
def Essential (r : Bytes) : Call → Prop
  | .rename _ _ | .changeMode _ _ => True
  | .remove path => IsBackupOf r path

section Finding
open Site

variable {s : Site} {u : View} {t : FileTree} {x y z : Option Node} {id mode : Nat}
  {content : Bytes}

theorem find_path (hs : s.Valid u)
    (h : Shows t s.privileged s.cwd (s.arrange u (some (.file id mode content)) y z)) :
    t.find false s.path = .ok (s.file, .file id mode content) :=
  h.find_file (hs.path.calm (calm_arrange hs _ y z)) (arrange_file hs _ y z) false

theorem find_backup (hs : s.Valid u)
    (h : Shows t s.privileged s.cwd (s.arrange u x y (some (.file id mode content)))) :
    t.find false s.backup = .ok (s.saved, .file id mode content) :=
  h.find_file (hs.backup.calm (calm_arrange hs x y _)) (arrange_saved s u x y _) false

end Finding

theorem Outcome.essential {met : List Call} {r backup : Bytes} {old new : Node}
    {x y z : Option Node} {res : Option Error} (h : Outcome met backup old new x y z res)
    (hbackup : IsBackupOf r backup) : res = none ↔ ∀ call ∈ met, ¬ Essential r call := by
  have hmoves {call : Call} (hc : Course.isRename call ∨ Course.isChangeMode call) :
      Essential r call := by
    cases call <;> simp_all [Course.isRename, Course.isChangeMode, Essential]
  cases h with
  | replaced hmet => simp [hmet]
  | kept e y first more hmet hfirst hy =>
    simp only [reduceCtorEq, false_iff]
    intro hall
    exact hall first (by simp [hmet]) (hmoves hfirst)
  | backedUp e x y call hcall hkind honly he =>
    simp only [reduceCtorEq, false_iff]
    intro hall
    apply hall call hcall
    rcases hkind with hkind | rfl
    · exact hmoves (.inl hkind)
    · exact hbackup

/-- The place of the lock that guards replacements of the file at a place. -/
def lockPlace (place : Place) : Place :=
  place.dropLast ++ [lockName (place.getLast?.getD [])]

@[simp] theorem lockPlace_concat (D : Place) (name : Bytes) :
    lockPlace (D ++ [name]) = D ++ [lockName name] := by
  simp [lockPlace]

/-- What can be said of the replacement of the file at `r`, which is at a place, by `data`, when it has
come to its end. -/
structure Accounts (t : FileTree) (f : Faults) (r : Bytes) (place : Place) (id mode : Nat)
    (old data : Bytes) (c : Course) (failed : Option Error) : Prop where
  /-- When there is no error, no call that counts has failed, the new content is in place with the old
  mode, and nothing else has changed. -/
  succeeds : failed = none → (∀ call ∈ f.met c.calls, ¬Essential r call) ∧
    (∃ newId, c.tree.find false r = .ok (place, .file newId mode data)) ∧
      ∀ q, q ≠ place → c.tree.view q = t.view q
  /-- Where the process may write the file and its directory and there is room for the names, there is
  no error when no call that counts has failed. -/
  completes : t.grants .write mode = true → t.mayAlter place.dropLast = true → HasRoom t r →
    (∀ call ∈ f.met c.calls, ¬Essential r call) → failed = none
  /-- When there is an error, the old file is in place, or in a backup that the error names. -/
  keeps : ∀ e, failed = some e → c.tree.find false r = .ok (place, .file id mode old) ∨
    ∃ backup q, IsBackupOf r backup ∧ c.tree.find false backup = .ok (q, .file id mode old) ∧
      backup <:+: e.message
  /-- When the only call that was made to fail is one that renames or changes a mode, all is as
  before. -/
  undoes : ∀ call, f.met c.calls = [call] → Course.isRename call ∨ Course.isChangeMode call →
    c.tree.find false r = .ok (place, .file id mode old) ∧ c.tree.view = t.view

theorem Declined.accounts {out : Course × Option Error}
    (h : Declined t.privileged t.cwd t.view f out) (hb : Beside t.privileged t.cwd t.view r D)
    (hfile : t.view (D ++ [Path.base r]) = some (.file id mode content))
    (hwhy : ¬(t.grants .write mode = true ∧ t.mayAlter D = true ∧ HasRoom t r)) (data : Bytes) :
    Accounts t f r (D ++ [Path.base r]) id mode content data out.1 out.2 := by
  have hcompletes (hwrite : t.grants .write mode = true)
      (halter : t.mayAlter (D ++ [Path.base r]).dropLast = true) (hroom : HasRoom t r) : False :=
    hwhy ⟨hwrite, by rwa [List.dropLast_concat] at halter, hroom⟩
  cases h with
  | unchanged c e h =>
    have hkept := h.find_file hb.self hfile false
    exact ⟨nofun, fun hwrite halter hroom => (hcompletes hwrite halter hroom).elim,
      fun _ _ => .inl hkept, fun _ _ _ => ⟨hkept, h.view_eq⟩⟩
  | littered c e q n hq hn h path more hmet =>
    have hne : D ++ [Path.base r] ≠ q := by
      rintro rfl
      simp [hfile] at hq
    have hcalm := (Calm.refl t.view).update (hq.symm ▸ ends_none) (some n)
    have hkept := h.find_file (hb.self.calm hcalm) (by rw [Function.update_of_ne hne, hfile]) false
    refine ⟨nofun, fun hwrite halter hroom => (hcompletes hwrite halter hroom).elim,
      fun _ _ => .inl hkept, fun call honly hkind => ?_⟩
    -- The call that failed is the removal of the new file.
    obtain ⟨rfl, -⟩ : _ ∧ _ := by simpa [hmet] using honly
    simp [Course.isRename, Course.isChangeMode] at hkind

theorem Safe.accounts {s : Site} {newId : Nat} {out : Course × Option Error}
    (hs : s.Ready t.view t.privileged t.cwd r D)
    (h : Safe s t.view f (.file id mode content) (.file newId mode data) out)
    (hfile : t.view (D ++ [Path.base r]) = some (.file id mode content)) :
    Accounts t f r (D ++ [Path.base r]) id mode content data out.1 out.2 := by
  obtain ⟨c, failed⟩ := out
  obtain ⟨x, y, z, hshows, hout⟩ := h
  have hessential := hout.essential hs.backup
  rw [← hs.file_eq] at hfile ⊢
  rw [← hs.path_eq] at hessential ⊢
  refine ⟨fun hdone => ⟨hessential.mp hdone, ?_⟩, fun _ _ _ => hessential.mpr, ?_, ?_⟩
  · subst hdone
    cases hout with
    | replaced hmet =>
      refine ⟨⟨newId, find_path hs.valid hshows⟩, fun q hq => ?_⟩
      rw [hshows.view_eq, hs.arrange_none, Function.update_of_ne hq]
  · rintro e rfl
    cases hout with
    | kept _ y first more hmet hfirst hy => exact .inl (find_path hs.valid hshows)
    | backedUp _ x y call hcall hkind honly he =>
      exact .inr ⟨s.backup, s.saved, hs.path_eq ▸ hs.backup, find_backup hs.valid hshows, he⟩
  · intro call hmet hkind
    cases hout with
    | replaced hnone => simp [hnone] at hmet
    | kept e y first more hmore hfirst hy =>
      obtain rfl : more = [] := by
        rw [hmore] at hmet
        have hlen := congrArg List.length hmet
        exact List.length_eq_zero_iff.mp (by simpa using hlen)
      refine ⟨find_path hs.valid hshows, ?_⟩
      rw [hshows.view_eq, hy rfl, hs.arrange_none, Function.update_eq_self_iff, hfile]
    | backedUp e x y other hcall hother honly he =>
      rw [hmet, List.mem_singleton] at hcall
      rw [hcall] at honly
      rw [honly hmet] at hkind
      simp [Course.isRename, Course.isChangeMode] at hkind

/-- The old file is never lost, whatever calls fail, and whoever asks. When the path cannot be resolved,
nothing is done. -/
theorem run_never_loses_the_file {path old : Bytes} {place : Place}
    (hfile : t.find true path = .ok (place, .file id mode old))
    (hlock : t.view (lockPlace place) = none) (f : Faults) (data : Bytes) :
    let (c, failed) := run t f path data
    (∀ e, t.realPath path = .error e →
      failed = some (.notWritable path e.message) ∧ c.tree = t ∧ c.calls = []) ∧
      ∀ r, t.realPath path = .ok r → Accounts t f r place id mode old data c failed := by
  refine ⟨fun e he => ?_, fun r hr => ?_⟩
  · simp [he]
  · obtain ⟨D, hb, rfl, hview⟩ := beside_of_find_file hr (find_realPath hfile hr)
    rw [lockPlace_concat] at hlock
    simp only [hr]
    rcases runResolved_ends (c := { tree := t }) (f := f) hb ⟨rfl, rfl, rfl⟩ hview hlock rfl data with
      ⟨-, s, newId, hready, hsafe⟩ | ⟨hwhynot, hdeclined⟩
    · exact hsafe.accounts hready hview
    · refine hdeclined.accounts hb hview (fun hall => hwhynot ⟨hall.1, ?_, hall.2.2⟩) data
      exact (mayAlter_iff hb.self.directory).mp hall.2.1

/-- A file in a directory below the working directory, and a link to it. -/
def linkedTree : FileTree where
  root := .directory 0o755 [(utf8 "w", .directory 0o755
    [(utf8 "d", .directory 0o755 [(utf8 "a", .file 0 0o4755 (utf8 "old"))]),
      (utf8 "l", .link (utf8 "d/a"))])]
  cwd := utf8 "/w"
  nextId := 1
  privileged := false

/-- The new file cannot be moved in, nor the old one back. -/
def stuck : Faults := { rename := fun n => n == 2 || n == 3 }

theorem run_never_loses_the_file_when_stuck :
    ∃ e backup q, (run linkedTree stuck (utf8 "l") (utf8 "new")).2 = some e ∧
      IsBackupOf (utf8 "d/a") backup ∧
      (run linkedTree stuck (utf8 "l") (utf8 "new")).1.tree.find false backup =
        .ok (q, .file 0 0o4755 (utf8 "old")) ∧ backup <:+: e.message := by
  have hfile : linkedTree.find true (utf8 "l") =
      .ok ([utf8 "w", utf8 "d", utf8 "a"], .file 0 0o4755 (utf8 "old")) := by cbv
  have hreal : linkedTree.realPath (utf8 "l") = .ok (utf8 "d/a") := by decide +kernel
  have hsafe := run_never_loses_the_file hfile (by cbv) stuck (utf8 "new")
  have hfailed : (run linkedTree stuck (utf8 "l") (utf8 "new")).2.isSome = true := by
    decide +kernel
  have hgone : ((run linkedTree stuck (utf8 "l") (utf8 "new")).1.tree.find false
      (utf8 "d/a")).isOk = false := by decide +kernel
  generalize run linkedTree stuck (utf8 "l") (utf8 "new") = out at hsafe hfailed hgone ⊢
  obtain ⟨e, he⟩ := Option.isSome_iff_exists.mp hfailed
  rcases (hsafe.2 _ hreal).keeps e he with hkept | ⟨backup, q, hbackup, hfind, hnamed⟩
  · rw [hkept] at hgone
    simp [Except.isOk, Except.toBool] at hgone
  · exact ⟨e, backup, q, he, hbackup, hfind, hnamed⟩

/-- A file in the working directory of a process without privileges. -/
def plainFile (directoryMode mode : Nat) : FileTree where
  root := .directory 0o755
    [(utf8 "w", .directory directoryMode [(utf8 "f", .file 0 mode (utf8 "old"))])]
  cwd := utf8 "/w"
  nextId := 1
  privileged := false

/-- The replacement of the file at a path is declined though nothing is in the place of its lock and
no call fails. -/
def Declines (t : FileTree) (path : Bytes) : Prop :=
  ∃ place id mode old, t.find true path = .ok (place, .file id mode old) ∧
    t.view (lockPlace place) = none ∧
    ∃ c e, run t {} path (utf8 "new") = (c, some e) ∧ ({} : Faults).met c.calls = []

theorem declines_of_isSome {path old : Bytes} {place : Place}
    (hfile : t.find true path = .ok (place, .file id mode old))
    (hlock : t.view (lockPlace place) = none)
    (hfailed : (run t {} path (utf8 "new")).2.isSome = true) : Declines t path := by
  obtain ⟨e, he⟩ := Option.isSome_iff_exists.mp hfailed
  exact ⟨place, id, mode, old, hfile, hlock, _, e, Prod.ext rfl he, met_none _⟩

/-- A replacement may be declined though no call fails: of a file that may not be written, and of one in
a directory that may not be altered. -/
theorem run_declines_undisturbed :
    Declines (plainFile 0o755 0o444) (utf8 "f") ∧ Declines (plainFile 0o555 0o644) (utf8 "f") := by
  have hreadOnly : (plainFile 0o755 0o444).find true (utf8 "f") =
      .ok ([utf8 "w", utf8 "f"], .file 0 0o444 (utf8 "old")) := by cbv
  have hguarded : (plainFile 0o555 0o644).find true (utf8 "f") =
      .ok ([utf8 "w", utf8 "f"], .file 0 0o644 (utf8 "old")) := by cbv
  exact ⟨declines_of_isSome hreadOnly rfl (by decide +kernel),
    declines_of_isSome hguarded rfl (by decide +kernel)⟩

end Linewise.Replacement
