import Linewise.Proofs.GrantedRequests

/-!
# What every request of a replacement keeps

A replacement is made of requests of five kinds, and the entries that it renames are among three: the
file, the new file and the backup, all in one directory. What each of these requests keeps, the
replacement keeps, whatever calls fail.
-/

namespace Linewise.Replacement
open FileTree

/-- The paths that a replacement of the file at `r` renames entries from and to. -/
inductive Moves (r : Bytes) : Bytes → Prop
  | file : Moves r r
  | temporary (k : Nat) :
      Moves r (Temporary.pathIn (Path.parent r) (Temporary.nameOf (Path.base r) k))
  | backup (k : Nat) : Moves r (Path.join [Path.parent r, backupName (Path.base r) k])

/-- Something that the requests of a replacement of the file at `r` keep. -/
structure Keeps (P : FileTree → Prop) (r : Bytes) : Prop where
  openOrCreate {t t' : FileTree} {wanted : List Access} {path : Bytes} {mode : Nat} {place : Place}
    (h : P t) (hok : t.openOrCreate wanted path mode = .ok (t', place)) : P t'
  createNew {t t' : FileTree} {path content : Bytes} {mode : Nat} (h : P t)
    (hok : t.createNew path mode content = .ok t') : P t'
  changeMode {t t' : FileTree} {path : Bytes} {mode : Nat} (h : P t)
    (hok : t.changeMode path mode = .ok t') : P t'
  rename {t t' : FileTree} {old new : Bytes} (h : P t) (hold : Moves r old) (hnew : Moves r new)
    (hok : t.rename old new = .ok t') : P t'
  remove {t t' : FileTree} {path : Bytes} (h : P t) (hok : t.remove path = .ok t') : P t'

variable {P : FileTree → Prop} {c : Course} {f : Faults} {r temp backup data : Bytes} {mode : Nat}

theorem keeps_call {act : Except PathError FileTree} (h : P c.tree)
    (hact : ∀ t', act = .ok t' → P t') (fault : Bool) (call : Call) :
    P (c.call fault call act).1.tree := by
  unfold Course.call
  simp only
  split
  · exact h
  · split
    · exact h
    · exact hact _ rfl

section Calls

variable (hP : Keeps P r)
include hP

theorem keeps_rename (h : P c.tree) (f : Faults) {old new : Bytes} (hold : Moves r old)
    (hnew : Moves r new) : P (c.rename f old new).1.tree :=
  keeps_call h (fun _ => hP.rename h hold hnew) _ _

theorem keeps_remove (h : P c.tree) (f : Faults) (path : Bytes) : P (c.remove f path).1.tree :=
  keeps_call h (fun _ => hP.remove h) _ _

theorem keeps_discard {t : FileTree} (h : P t) (path : Bytes) : P (t.discard path) := by
  unfold FileTree.discard
  split
  next hok => exact hP.remove h hok
  · exact h

/-- The new file is at one of the three paths. -/
theorem keeps_write {t t' : FileTree} (h : P t)
    (hok : Temporary.write t (Path.parent r) (Path.base r) data = .ok (t', temp)) :
    P t' ∧ Moves r temp := by
  obtain ⟨-, rfl, hcreate⟩ := Temporary.write_ok hok
  exact ⟨hP.createNew h hcreate, .temporary _⟩

theorem keeps_restore (h : P c.tree) (hbackup : Moves r backup) (cause : Error) :
    P (restore c f r temp backup cause).1.tree := by
  have hback := keeps_rename hP (keeps_remove hP h f temp) f hbackup .file
  unfold restore
  simp only
  split
  next hr => rwa [hr] at hback
  next hr => rwa [hr] at hback

theorem keeps_finish (h : P c.tree) (hbackup : Moves r backup) :
    P (finish c f r temp backup mode).1.tree := by
  have hmode : P (c.changeMode f r mode).1.tree := keeps_call h (fun _ => hP.changeMode h) _ _
  unfold finish
  split
  next hc =>
    rw [hc] at hmode
    exact keeps_restore hP hmode hbackup _
  next hc =>
    rw [hc] at hmode
    have hgone := keeps_remove hP hmode f backup
    split
    next hr => rwa [hr] at hgone
    next hr => rwa [hr] at hgone

theorem keeps_moveIn (h : P c.tree) (htemp : Moves r temp) (hbackup : Moves r backup) :
    P (moveIn c f r temp backup mode).1.tree := by
  have hin := keeps_rename hP h f htemp .file
  unfold moveIn
  split
  next hr =>
    rw [hr] at hin
    exact keeps_restore hP hin hbackup _
  next hr =>
    rw [hr] at hin
    exact keeps_finish hP hin hbackup

theorem keeps_swap (h : P c.tree) (htemp : Moves r temp) (hbackup : Moves r backup) :
    P (swap c f r temp backup mode).1.tree := by
  have haside := keeps_rename hP h f .file hbackup
  unfold swap
  split
  next hr =>
    rw [hr] at haside
    exact keeps_remove hP haside f temp
  next hr =>
    rw [hr] at haside
    exact keeps_moveIn hP haside htemp hbackup

theorem keeps_runLocked (h : P c.tree) : P (runLocked c f r data).1.tree := by
  unfold runLocked
  split
  · exact h
  · simp only
    split
    · exact h
    next hwrite =>
      obtain ⟨hwritten, htemp⟩ := keeps_write hP h hwrite
      exact keeps_swap hP hwritten htemp (.backup _)

end Calls

/-- A replacement keeps what its requests keep once it is known that the file can be written. -/
theorem keeps_run {t : FileTree} {path : Bytes} (h : P t)
    (hP : ∀ r, t.realPath path = .ok r → t.checkWritable r = .ok () → Keeps P r) (f : Faults)
    (data : Bytes) : P (run t f path data).1.tree := by
  unfold run
  simp only
  split
  · exact h
  next r hr =>
    unfold runResolved
    split
    · exact h
    next hwritable =>
      have hP := hP r hr hwritable
      simp only
      split
      · exact h
      next hopen =>
        exact keeps_discard hP (keeps_runLocked hP (hP.openOrCreate h hopen)) _

end Linewise.Replacement
