import Linewise.Proofs.FileRequests

/-!
# The calls of a replacement

Every call of a replacement either is made to fail and changes nothing, or it moves files between
three entries of one directory: the file, the new file and the backup. A view of the tree during the
replacement is the view before it with these three entries set.
-/

namespace Linewise.Replacement
open FileTree Node

/-- Whether a call fails when it comes after the calls `before`. -/
def Faults.strikes (f : Faults) (before : List Call) : Call → Bool
  | .rename _ _ => f.rename (before.countP Course.isRename + 1)
  | .changeMode _ _ => f.changeMode (before.countP Course.isChangeMode + 1)
  | .remove _ => f.remove (before.countP Course.isRemove + 1)

/-- The calls that were made to fail, latest first as the calls are. -/
def Faults.met (f : Faults) : List Call → List Call
  | [] => []
  | call :: before => if f.strikes before call then call :: f.met before else f.met before

/-- A call is made to fail and changes nothing, or it goes from one view of the tree to another. -/
inductive Tried (f : Faults) (c : Course) (call : Call) (privileged : Bool) (cwd : Bytes)
    (v w : View) : Course × Option StepError → Prop
  | struck (c' : Course) (hshows : Shows c'.tree privileged cwd v)
      (hmet : f.met c'.calls = call :: f.met c.calls) :
      Tried f c call privileged cwd v w (c', some .injected)
  | made (c' : Course) (hshows : Shows c'.tree privileged cwd w)
      (hmet : f.met c'.calls = f.met c.calls) : Tried f c call privileged cwd v w (c', none)

theorem tried_call {c : Course} {f : Faults} {privileged : Bool} {cwd : Bytes} {v w : View}
    {t' : FileTree} {act : Except PathError FileTree} (call : Call)
    (h : Shows c.tree privileged cwd v) (hact : act = .ok t') (hw : Shows t' privileged cwd w) :
    Tried f c call privileged cwd v w (c.call (f.strikes c.calls call) call act) := by
  subst hact
  cases hs : f.strikes c.calls call with
  | true => exact .struck _ h (by simp [Faults.met, hs])
  | false => exact .made _ hw (by simp [Course.moveTo, Faults.met, hs])

/-- Where a replacement takes place: the process, the paths of the file, the new file and the backup,
and the names that they have in the directory at `dir`. -/
structure Site where
  privileged : Bool
  cwd : Bytes
  dir : Place
  path : Bytes
  name : Bytes
  temp : Bytes
  tempName : Bytes
  backup : Bytes
  backupName : Bytes

namespace Site

def file (s : Site) : Place := s.dir ++ [s.name]

def fresh (s : Site) : Place := s.dir ++ [s.tempName]

def saved (s : Site) : Place := s.dir ++ [s.backupName]

/-- The paths mean three different entries of the directory, which the process may write, and all of
them are files if they are there. -/
structure Valid (s : Site) (u : View) : Prop where
  path : Names s.privileged s.cwd u s.path s.dir s.name
  temp : Names s.privileged s.cwd u s.temp s.dir s.tempName
  backup : Names s.privileged s.cwd u s.backup s.dir s.backupName
  write : Admits .write s.privileged u s.dir
  path_temp : s.name ≠ s.tempName
  path_backup : s.name ≠ s.backupName
  temp_backup : s.tempName ≠ s.backupName
  ends_file : Ends (u s.file)
  ends_fresh : Ends (u s.fresh)
  ends_saved : Ends (u s.saved)

/-- The view with the three entries set. -/
def arrange (s : Site) (u : View) (file fresh saved : Option Node) : View :=
  Function.update (Function.update (Function.update u s.file file) s.fresh fresh) s.saved saved

theorem update_saved (s : Site) (u : View) (x y z z' : Option Node) :
    Function.update (s.arrange u x y z) s.saved z' = s.arrange u x y z' := by
  rw [arrange, Function.update_idem, arrange]

theorem arrange_saved (s : Site) (u : View) (x y z : Option Node) :
    s.arrange u x y z s.saved = z := by
  rw [arrange, Function.update_self]

theorem arrange_of_ne (s : Site) (u : View) (x y z : Option Node) {q : Place} (hfile : q ≠ s.file)
    (hfresh : q ≠ s.fresh) (hsaved : q ≠ s.saved) : s.arrange u x y z q = u q := by
  rw [arrange, Function.update_of_ne hsaved, Function.update_of_ne hfresh,
    Function.update_of_ne hfile]

section Arrange

variable {s : Site} {u : View} (hs : s.Valid u) (x y z : Option Node)
include hs

theorem fresh_ne_file : s.fresh ≠ s.file := by
  simpa [fresh, file] using hs.path_temp.symm

theorem saved_ne_file : s.saved ≠ s.file := by
  simpa [saved, file] using hs.path_backup.symm

theorem saved_ne_fresh : s.saved ≠ s.fresh := by
  simpa [saved, fresh] using hs.temp_backup.symm

theorem arrange_file : s.arrange u x y z s.file = x := by
  rw [arrange, Function.update_of_ne (saved_ne_file hs).symm,
    Function.update_of_ne (fresh_ne_file hs).symm, Function.update_self]

theorem arrange_fresh : s.arrange u x y z s.fresh = y := by
  rw [arrange, Function.update_of_ne (saved_ne_fresh hs).symm, Function.update_self]

theorem update_file (x' : Option Node) :
    Function.update (s.arrange u x y z) s.file x' = s.arrange u x' y z := by
  rw [arrange, Function.update_comm (saved_ne_file hs), Function.update_comm (fresh_ne_file hs),
    Function.update_idem, arrange]

theorem update_fresh (y' : Option Node) :
    Function.update (s.arrange u x y z) s.fresh y' = s.arrange u x y' z := by
  rw [arrange, Function.update_comm (saved_ne_fresh hs), Function.update_idem, arrange]

theorem calm_arrange : Calm u (s.arrange u x y z) :=
  (((Calm.refl u).update hs.ends_file x).update hs.ends_fresh y).update hs.ends_saved z

end Arrange

section Calls

variable {s : Site} {u : View} (hs : s.Valid u) {c : Course} (f : Faults) {x y z : Option Node}
  {id mode : Nat} {content : Bytes}
include hs

theorem tried_setAside
    (h : Shows c.tree s.privileged s.cwd (s.arrange u (some (.file id mode content)) y z))
    (hz : Ends z) :
    Tried f c (.rename s.path s.backup) s.privileged s.cwd
      (s.arrange u (some (.file id mode content)) y z)
      (s.arrange u none y (some (.file id mode content))) (c.rename f s.path s.backup) := by
  have hcalm := calm_arrange hs (some (.file id mode content)) y z
  obtain ⟨t', ht', hshows⟩ := h.rename (hs.path.calm hcalm) (hs.backup.calm hcalm)
    (hs.write.calm hcalm) hs.path_backup (arrange_file hs _ y z)
    ((arrange_saved s u _ y z).symm ▸ hz)
  rw [← file, ← saved, update_file hs, update_saved] at hshows
  exact tried_call (.rename s.path s.backup) h ht' hshows

theorem tried_moveIn
    (h : Shows c.tree s.privileged s.cwd (s.arrange u x (some (.file id mode content)) z))
    (hx : Ends x) :
    Tried f c (.rename s.temp s.path) s.privileged s.cwd
      (s.arrange u x (some (.file id mode content)) z)
      (s.arrange u (some (.file id mode content)) none z) (c.rename f s.temp s.path) := by
  have hcalm := calm_arrange hs x (some (.file id mode content)) z
  obtain ⟨t', ht', hshows⟩ := h.rename (hs.temp.calm hcalm) (hs.path.calm hcalm)
    (hs.write.calm hcalm) hs.path_temp.symm (arrange_fresh hs x _ z)
    ((arrange_file hs x _ z).symm ▸ hx)
  rw [← fresh, ← file, update_fresh hs, update_file hs] at hshows
  exact tried_call (.rename s.temp s.path) h ht' hshows

theorem tried_bringBack
    (h : Shows c.tree s.privileged s.cwd (s.arrange u x y (some (.file id mode content))))
    (hx : Ends x) :
    Tried f c (.rename s.backup s.path) s.privileged s.cwd
      (s.arrange u x y (some (.file id mode content)))
      (s.arrange u (some (.file id mode content)) y none) (c.rename f s.backup s.path) := by
  have hcalm := calm_arrange hs x y (some (.file id mode content))
  obtain ⟨t', ht', hshows⟩ := h.rename (hs.backup.calm hcalm) (hs.path.calm hcalm)
    (hs.write.calm hcalm) hs.path_backup.symm (arrange_saved s u x y _)
    ((arrange_file hs x y _).symm ▸ hx)
  rw [← saved, ← file, update_saved, update_file hs] at hshows
  exact tried_call (.rename s.backup s.path) h ht' hshows

theorem tried_changeMode
    (h : Shows c.tree s.privileged s.cwd (s.arrange u (some (.file id mode content)) y z))
    (mode' : Nat) :
    Tried f c (.changeMode s.path mode') s.privileged s.cwd
      (s.arrange u (some (.file id mode content)) y z)
      (s.arrange u (some (.file id mode' content)) y z) (c.changeMode f s.path mode') := by
  have hcalm := calm_arrange hs (some (.file id mode content)) y z
  obtain ⟨t', ht', hshows⟩ := h.changeMode (hs.path.calm hcalm) (arrange_file hs _ y z) mode'
  rw [← file, update_file hs] at hshows
  exact tried_call (.changeMode s.path mode') h ht' hshows

theorem tried_removeBackup
    (h : Shows c.tree s.privileged s.cwd (s.arrange u x y (some (.file id mode content)))) :
    Tried f c (.remove s.backup) s.privileged s.cwd
      (s.arrange u x y (some (.file id mode content)))
      (s.arrange u x y none) (c.remove f s.backup) := by
  have hcalm := calm_arrange hs x y (some (.file id mode content))
  obtain ⟨t', ht', hshows⟩ := h.remove (hs.backup.calm hcalm) (hs.write.calm hcalm)
    (arrange_saved s u x y _)
  rw [← saved, update_saved] at hshows
  exact tried_call (.remove s.backup) h ht' hshows

/-- Removing the new file, which may be gone already, leaves none unless the call is struck. -/
theorem removeTemp_spec (h : Shows c.tree s.privileged s.cwd (s.arrange u x y z)) (hy : Ends y) :
    ∃ c' failed y' more, c.remove f s.temp = (c', failed) ∧
      Shows c'.tree s.privileged s.cwd (s.arrange u x y' z) ∧ f.met c'.calls = more ++ f.met c.calls ∧
      (more = [] → y' = none) := by
  have hcalm := calm_arrange hs x y z
  have htemp := hs.temp.calm hcalm
  have hfresh := arrange_fresh hs x y z
  cases hy' : y with
  | none =>
    subst hy'
    have hgone : c.tree.remove s.temp = .error ⟨"remove", s.temp, .noEntry⟩ := by
      rw [FileTree.remove, h.find_absent htemp hfresh]
    rw [Course.remove, hgone]
    change ∃ c' failed y' more, c.call (f.strikes c.calls (.remove s.temp)) (.remove s.temp) _ =
      (c', failed) ∧ _
    cases hstrike : f.strikes c.calls (.remove s.temp) with
    | true => exact ⟨_, _, none, [.remove s.temp], rfl, h, by simp [Faults.met, hstrike], by simp⟩
    | false => exact ⟨_, _, none, [], rfl, h, by simp [Faults.met, hstrike], fun _ => rfl⟩
  | some n =>
    cases n with
    | file id mode content =>
      obtain ⟨t', ht', hshows⟩ := h.remove htemp (hs.write.calm hcalm) (hfresh.trans hy')
      rw [← fresh, update_fresh hs] at hshows
      have htried : Tried f c (.remove s.temp) s.privileged s.cwd _ _ (c.remove f s.temp) :=
        tried_call (.remove s.temp) h ht' hshows
      generalize c.remove f s.temp = out at htried ⊢
      cases htried with
      | struck c' hshows hmet => exact ⟨c', _, y, [.remove s.temp], rfl, hshows, hmet, by simp⟩
      | made c' hshows hmet => exact ⟨c', _, none, [], rfl, hshows, hmet, fun _ => rfl⟩
    | directory | link | special =>
      rw [hy'] at hy
      exact hy.elim

end Calls

end Site

end Linewise.Replacement
