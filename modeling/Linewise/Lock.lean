import Linewise.FileTree.Change

/-!
# Locks

Exclusive locks on files, shared by parties that know a path. A lock belongs to the file that was
opened and not to the path: when the file is removed and another one made at the path, two parties
can hold locks on different files. A party that takes a transient lock therefore looks whether the
file it holds is still the one at the path, and starts anew if not.
-/

namespace Linewise

/-- The lock of one party: its path and the file on which it holds the lock, by identity. -/
structure Lock where
  path : Bytes
  held : Option Nat := none
  deriving DecidableEq, Repr

/-- Why a lock could not be taken. -/
inductive Lock.Error where
  | acquire (path : Bytes) (e : PathError)
  | attempt (path : Bytes) (e : PathError)
  deriving DecidableEq, Repr

def Lock.Error.message : Lock.Error → Bytes
  | acquire path e => utf8 "failed to acquire lock on " ++ path ++ utf8 ": " ++ e.message
  | attempt path e => utf8 "failed to try lock on " ++ path ++ utf8 ": " ++ e.message

def Lock.Error.cause : Lock.Error → PathError
  | acquire _ e => e
  | attempt _ e => e

/-- The identity of the file, device or pipe that a path leads to. -/
def FileTree.identity? (t : FileTree) (path : Bytes) : Option Nat :=
  match t.find true path with
  | .ok (_, .file id _ _) => some id
  | .ok (_, .special id _ _) => some id
  | _ => none

/-- A file tree and the locks of its parties, each with a name. -/
structure LockRoom where
  tree : FileTree
  locks : List (Bytes × Lock) := []

namespace LockRoom

def get (r : LockRoom) (name : Bytes) : Lock := (r.locks.lookup name).getD ⟨[], none⟩

/-- The room with the lock of a party set. -/
def set (r : LockRoom) (name : Bytes) (l : Lock) : LockRoom :=
  { r with locks := (name, l) :: r.locks.filter (·.1 != name) }

/-- Whether another party than `name` holds the lock of a file. -/
def heldByOther (r : LockRoom) (name : Bytes) (file : Nat) : Bool :=
  r.locks.any fun (n, l) => n != name && l.held == some file

/-- Tries to take a lock and says whether the party holds it afterwards. The file of the lock is
created when it is missing. -/
def tryLock (r : LockRoom) (name : Bytes) : LockRoom × Except Lock.Error Bool :=
  let l := r.get name
  if l.held.isSome then (r, .ok true)
  else
    match r.tree.openOrCreate [.read] l.path 0o600 with
    | .error e => (r, .error (.attempt l.path e))
    | .ok (t, _) =>
      let r := { r with tree := t }
      let file := t.identity? l.path
      if file.any (r.heldByOther name) then (r, .ok false)
      else (r.set name { l with held := file }, .ok true)

/-- Takes a lock that nobody else holds. -/
def lock (r : LockRoom) (name : Bytes) : LockRoom × Option Lock.Error :=
  match r.tryLock name with
  | (r, .ok _) => (r, none)
  | (r, .error e) => (r, some (.acquire (r.get name).path e.cause))

/-- Gives a lock back; nothing happens when it is not held. -/
def unlock (r : LockRoom) (name : Bytes) : LockRoom :=
  r.set name { r.get name with held := none }

/-- Whether the file of a held lock is still the file at its path. A lock that is not held is
current when there is something at its path. -/
def isCurrent (r : LockRoom) (name : Bytes) : Bool :=
  let l := r.get name
  match l.held with
  | some file => r.tree.identity? l.path == some file
  | none => (r.tree.stat l.path).isOk

/-- Takes a transient lock on a path on behalf of a party. -/
def takeTransient (r : LockRoom) (name path : Bytes) : LockRoom × Option Lock.Error :=
  (r.set name { path := path }).lock name

/-- Gives a transient lock back: its file is removed first. -/
def releaseTransient (r : LockRoom) (name : Bytes) : LockRoom :=
  let path := (r.get name).path
  let t := match r.tree.remove path with
    | .ok t => t
    | .error _ => r.tree
  { r with tree := t }.unlock name

end LockRoom

end Linewise
