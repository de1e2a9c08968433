import Linewise.FileTree.Change
import Linewise.FileTree.RealPath

/-!
# Replacing files

Writing a file so that no reader ever sees half of it. `AtomicWrite.run` writes a file beside its
final place and renames it. `Replacement.run` replaces an existing file: it moves the old file
aside, moves the new one into place, restores the mode and removes the old file, and goes back when
a step fails. Steps can be made to fail, and the tree after every step is kept, so that statements
about interrupted runs can be made.
-/

namespace Linewise

/-- Why a step failed. -/
inductive StepError where
  | refused (e : PathError)
  /-- The step was made to fail. -/
  | injected
  deriving DecidableEq, Repr

def StepError.message : StepError → Bytes
  | refused e => e.message
  | injected => utf8 "injected failure"

/-- Why a temporary file was not written. -/
inductive TemporaryError where
  | refused (e : PathError)
  /-- The name of the file has a slash in it. -/
  | badName (pattern : Bytes)
  deriving DecidableEq, Repr

def TemporaryError.message : TemporaryError → Bytes
  | refused e => utf8 "failed to create temp file: " ++ e.message
  | badName pattern =>
    utf8 "failed to create temp file: createtemp " ++ pattern ++
      utf8 ": pattern contains path separator"

/-- What the names of temporary files of `name` start with. -/
def Temporary.stem (name : Bytes) : Bytes := utf8 "." ++ name ++ utf8 ".fuzz-"

/-- The name of a temporary file: ten digits after the stem. -/
def Temporary.nameOf (name : Bytes) (k : Nat) : Bytes :=
  Temporary.stem name ++ Bytes.ofNat (1000000000 + k)

/-- The path of an entry of a directory, the directory written as it is. -/
def Temporary.pathIn (dir name : Bytes) : Bytes :=
  dir ++ (if dir.getLast? == some Path.slash then [] else [Path.slash]) ++ name

/-- Writes data to a fresh hidden file beside `name` in a directory and answers its path. -/
def Temporary.write (t : FileTree) (dir name data : Bytes) :
    Except TemporaryError (FileTree × Bytes) :=
  if name.contains Path.slash then .error (.badName (Temporary.stem name ++ utf8 "*"))
  else
    let k := t.freeNumber dir (Temporary.nameOf name)
    let path := Temporary.pathIn dir (Temporary.nameOf name k)
    match t.createNew path 0o600 data with
    | .error e => .error (.refused e)
    | .ok t => .ok (t, path)

/-- Why a file was not written. -/
inductive AtomicWrite.Error where
  | noDirectory (dir : Bytes) (e : PathError)
  | noTemporary (e : TemporaryError)
  | noMode (e : PathError)
  | noRename (path : Bytes) (e : PathError)
  deriving DecidableEq, Repr

def AtomicWrite.Error.message : AtomicWrite.Error → Bytes
  | noDirectory dir e => utf8 "failed to create directory " ++ dir ++ utf8 ": " ++ e.message
  | noTemporary e => e.message
  | noMode e => utf8 "failed to set permissions: " ++ e.message
  | noRename path e => utf8 "failed to rename temp file to " ++ path ++ utf8 ": " ++ e.message

/-- The permission bits that a file at a path has or, when there is none, is to get. -/
def AtomicWrite.permissions (t : FileTree) (path : Bytes) (fallback : Nat) : Nat :=
  match t.stat path with
  | .ok n => n.mode % 0o1000
  | .error _ => fallback % 0o1000

/-- The tree without an entry, when it can be removed. -/
def FileTree.discard (t : FileTree) (path : Bytes) : FileTree :=
  match t.remove path with
  | .ok t => t
  | .error _ => t

/-- Writes data to a path in one step. A file that is there keeps its permission bits. The tree is
answered also on failure. -/
def AtomicWrite.run (t : FileTree) (path data : Bytes) (mode : Nat) :
    FileTree × Option AtomicWrite.Error :=
  let dir := Path.parent path
  match t.makeDirectories dir with
  | (t, some e) => (t, some (.noDirectory dir e))
  | (t, none) =>
    let mode := AtomicWrite.permissions t path mode
    match Temporary.write t dir (Path.base path) data with
    | .error e => (t, some (.noTemporary e))
    | .ok (t, temp) =>
      match t.changeMode temp mode with
      | .error e => (t.discard temp, some (.noMode e))
      | .ok t =>
        match t.rename temp path with
        | .error e => (t.discard temp, some (.noRename path e))
        | .ok t => (t, none)

namespace Replacement

/-- Why a file was not replaced. -/
inductive Error where
  | notWritable (path detail : Bytes)
  | noLock (path : Bytes) (e : PathError)
  | noStatus (path : Bytes) (e : PathError)
  | noTemporary (e : TemporaryError)
  | noBackup (path : Bytes) (e : StepError)
  | noMove (path : Bytes) (e : StepError)
  | noMode (path : Bytes) (e : StepError)
  /-- The old file could not be brought back after `cause`; it is at `backup`. -/
  | notRestored (cause : Error) (path backup : Bytes) (e : StepError)
  /-- The file was replaced; the old one is still at `backup`. -/
  | backupLeft (path backup : Bytes) (e : StepError)
  deriving DecidableEq, Repr

def Error.message : Error → Bytes
  | notWritable path detail => utf8 "file is not writable: " ++ path ++ utf8 ": " ++ detail
  | noLock path e => utf8 "failed to acquire lock on " ++ path ++ utf8 ": " ++ e.message
  | noStatus path e => utf8 "failed to stat " ++ path ++ utf8 ": " ++ e.message
  | noTemporary e => e.message
  | noBackup path e => utf8 "failed to back up " ++ path ++ utf8 ": " ++ e.message
  | noMove path e => utf8 "failed to move new content into " ++ path ++ utf8 ": " ++ e.message
  | noMode path e => utf8 "failed to restore permissions on " ++ path ++ utf8 ": " ++ e.message
  | notRestored cause path backup e =>
    cause.message ++ utf8 "; restoring " ++ path ++ utf8 " from backup " ++ backup ++
      utf8 " also failed: " ++ e.message
  | backupLeft path backup e =>
    utf8 "updated " ++ path ++ utf8 " but failed to remove backup " ++ backup ++ utf8 ": " ++
      e.message

/-- A step of a replacement. -/
inductive Call where
  | rename (old new : Bytes)
  | changeMode (path : Bytes) (mode : Nat)
  | remove (path : Bytes)
  deriving DecidableEq, Repr

/-- Which calls are made to fail: of every kind, by their number from one on. -/
structure Faults where
  rename : Nat → Bool := fun _ => false
  changeMode : Nat → Bool := fun _ => false
  remove : Nat → Bool := fun _ => false

/-- The course of a replacement: the tree now, the calls made and the trees after every change,
latest first. -/
structure Course where
  tree : FileTree
  calls : List Call := []
  past : List FileTree := []

namespace Course

/-- The number of the next call of a kind. -/
def next (c : Course) (kind : Call → Bool) : Nat := c.calls.countP kind + 1

/-- The course with the tree after a change. -/
def moveTo (c : Course) (t : FileTree) : Course := { c with tree := t, past := c.tree :: c.past }

/-- Makes a call that fails when `fault` says so. -/
def call (c : Course) (fault : Bool) (call : Call) (act : Except PathError FileTree) :
    Course × Option StepError :=
  let c := { c with calls := call :: c.calls }
  if fault then (c, some .injected)
  else
    match act with
    | .error e => (c, some (.refused e))
    | .ok t => (c.moveTo t, none)

def isRename : Call → Bool
  | .rename _ _ => true
  | _ => false

def isChangeMode : Call → Bool
  | .changeMode _ _ => true
  | _ => false

def isRemove : Call → Bool
  | .remove _ => true
  | _ => false

def rename (c : Course) (f : Faults) (old new : Bytes) : Course × Option StepError :=
  c.call (f.rename (c.next isRename)) (.rename old new) (c.tree.rename old new)

def changeMode (c : Course) (f : Faults) (path : Bytes) (mode : Nat) : Course × Option StepError :=
  c.call (f.changeMode (c.next isChangeMode)) (.changeMode path mode) (c.tree.changeMode path mode)

def remove (c : Course) (f : Faults) (path : Bytes) : Course × Option StepError :=
  c.call (f.remove (c.next isRemove)) (.remove path) (c.tree.remove path)

end Course

/-- The name of the lock that guards replacements of a file. -/
def lockName (name : Bytes) : Bytes := utf8 "." ++ name ++ utf8 ".fuzz-lock"

/-- The path of the lock that guards replacements of a file. -/
def lockPath (path : Bytes) : Bytes :=
  Path.join [Path.parent path, lockName (Path.base path)]

/-- The name of the `k`-th backup of a file: a universally unique identifier stands in it. -/
def backupName (name : Bytes) (k : Nat) : Bytes :=
  utf8 "." ++ name ++ utf8 ".00000000-0000-4000-8000-" ++ Bytes.padded 12 k ++ utf8 ".fuzz-bak"

/-- A path for the backup of a file at which there is nothing yet. -/
def backupPath (t : FileTree) (dir name : Bytes) : Bytes :=
  Path.join [dir, backupName name (t.freeNumber dir (backupName name))]

/-- Goes back after a failure: the temporary file is removed and the old file moved back. -/
def restore (c : Course) (f : Faults) (path temp backup : Bytes) (cause : Error) :
    Course × Option Error :=
  let (c, _) := c.remove f temp
  match c.rename f backup path with
  | (c, none) => (c, some cause)
  | (c, some e) => (c, some (.notRestored cause path backup e))

/-- Gives the new file, now in place, the mode of the old one and removes the old one. -/
def finish (c : Course) (f : Faults) (path temp backup : Bytes) (mode : Nat) :
    Course × Option Error :=
  match c.changeMode f path mode with
  | (c, some e) => restore c f path temp backup (.noMode path e)
  | (c, none) =>
    match c.remove f backup with
    | (c, some e) => (c, some (.backupLeft path backup e))
    | (c, none) => (c, none)

/-- Moves the new file to the place that the old one has left. -/
def moveIn (c : Course) (f : Faults) (path temp backup : Bytes) (mode : Nat) :
    Course × Option Error :=
  match c.rename f temp path with
  | (c, some e) => restore c f path temp backup (.noMove path e)
  | (c, none) => finish c f path temp backup mode

/-- Brings new content, already at `temp`, into place. -/
def swap (c : Course) (f : Faults) (path temp backup : Bytes) (mode : Nat) :
    Course × Option Error :=
  match c.rename f path backup with
  | (c, some e) =>
    let (c, _) := c.remove f temp
    (c, some (.noBackup path e))
  | (c, none) => moveIn c f path temp backup mode

/-- Replaces the file at a link-free path while its lock is held. -/
def runLocked (c : Course) (f : Faults) (path data : Bytes) : Course × Option Error :=
  match c.tree.stat path with
  | .error e => (c, some (.noStatus path e))
  | .ok n =>
    let dir := Path.parent path
    let name := Path.base path
    match Temporary.write c.tree dir name data with
    | .error e => (c, some (.noTemporary e))
    | .ok (t, temp) => swap (c.moveTo t) f path temp (backupPath t dir name) n.mode

/-- Replaces the file at a link-free path. -/
def runResolved (c : Course) (f : Faults) (path data : Bytes) : Course × Option Error :=
  match c.tree.checkWritable path with
  | .error e => (c, some (.notWritable path e.message))
  | .ok _ =>
    let lock := lockPath path
    match c.tree.openOrCreate [.read] lock 0o600 with
    | .error e => (c, some (.noLock lock e))
    | .ok (t, _) =>
      let (c, failed) := runLocked (c.moveTo t) f path data
      (c.moveTo (c.tree.discard lock), failed)

/-- Replaces the content of an existing file; a link is followed to the file it leads to. -/
def run (t : FileTree) (f : Faults) (path data : Bytes) : Course × Option Error :=
  let c : Course := { tree := t }
  match t.realPath path with
  | .error e => (c, some (.notWritable path e.message))
  | .ok path => runResolved c f path data

end Replacement

end Linewise
