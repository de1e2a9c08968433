import Linewise.FileTree.Basic

/-!
# Paths without links

`FileTree.realPath` gives the path to the same place that crosses no symbolic link. A relative path
stays relative as long as no link leads to an absolute one.
-/

namespace Linewise.FileTree

/-- No more links than this are replaced in one path. -/
def maxReplacedLinks : Nat := 255

/-- Why a path has no link-free form. -/
inductive RealPathError where
  | refused (e : PathError)
  /-- A component that is no directory has more text after it. -/
  | notDirectory
  | tooManyLinks
  deriving DecidableEq, Repr

def RealPathError.message : RealPathError → Bytes
  | refused e => e.message
  | notDirectory => OsError.notDirectory.text
  | tooManyLinks => utf8 "EvalSymlinks: too many links"

/-- What stands before the last slash of `done`, not looking at its first `fixed` bytes; `none`
when there is no such slash. -/
def beforeLastSlash? (fixed : Nat) (done : Bytes) : Option Bytes :=
  let tail := (done.drop fixed).reverse
  let name := tail.takeWhile (· != Path.slash)
  if name.length < tail.length then some (done.take (done.length - name.length - 1)) else none

/-- The link-free part of a path after `..`: the last name is dropped, unless there is none to
drop. -/
def dropName (fixed : Nat) (done : Bytes) : Bytes :=
  let kept := done ++ (if done.length > fixed then [Path.slash] else []) ++ Path.up
  match beforeLastSlash? fixed done with
  | none => kept
  | some before => if done.drop (before.length + 1) == Path.up then kept else before

/-- The link-free part of a path with one more name. -/
def addName (done name : Bytes) : Bytes :=
  done ++ (if done.isEmpty || done.getLast? == some Path.slash then [] else [Path.slash]) ++ name

/-- The end of a stretch without links, or the link that ended it: the part before the link, its
target and the rest of the path. -/
inductive RealLeg where
  | arrived (done : Bytes)
  | link (done target rest : Bytes)

/-- Goes along a path up to the first link. `fixed` is the length of the leading slash and the fuel
is the length of the rest. -/
def realLeg (t : FileTree) (fixed : Nat) : Nat → Bytes → Bytes → Except RealPathError RealLeg
  | 0, done, _ => .ok (.arrived done)
  | fuel + 1, done, rest =>
    let rest := rest.dropWhile (· == Path.slash)
    let name := rest.takeWhile (· != Path.slash)
    let after := rest.dropWhile (· != Path.slash)
    if name.isEmpty then .ok (.arrived done)
    else if name == Path.here then realLeg t fixed fuel done after
    else if name == Path.up then realLeg t fixed fuel (dropName fixed done) after
    else
      let next := addName done name
      match t.lstat next with
      | .error e => .error (.refused e)
      | .ok (.link target) => .ok (.link next target after)
      | .ok (.directory _ _) => realLeg t fixed fuel next after
      | .ok _ => if after.isEmpty then .ok (.arrived next) else .error .notDirectory

/-- Goes along a path, replacing at most `links` links. -/
def realPathFrom (t : FileTree) : Nat → Nat → Bytes → Bytes → Except RealPathError Bytes
  | links, fixed, done, rest =>
    match realLeg t fixed (rest.length + 1) done rest with
    | .error e => .error e
    | .ok (.arrived done) => .ok (Path.clean done)
    | .ok (.link next target after) =>
      match links with
      | 0 => .error .tooManyLinks
      | links + 1 =>
        if Path.isAbsolute target then
          realPathFrom t links 1 [Path.slash] (target.drop 1 ++ after)
        else
          let done := (beforeLastSlash? fixed next).getD (next.take fixed)
          realPathFrom t links fixed done (target ++ after)

/-- The clean path to the same node that crosses no link. -/
def realPath (t : FileTree) (path : Bytes) : Except RealPathError Bytes :=
  let start := path.takeWhile (· == Path.slash) |>.take 1
  realPathFrom t maxReplacedLinks start.length start (path.drop start.length)

end Linewise.FileTree
