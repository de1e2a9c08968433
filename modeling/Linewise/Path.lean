import Linewise.Bytes

/-!
# Paths

Slash-separated paths and the operations that look at their text alone: cleaning, joining and
taking apart. What a path leads to is the business of the file tree.
-/

namespace Linewise.Path

/-- The separator of path components. -/
def slash : UInt8 := 47

/-- The byte that hides a directory entry when it stands first, and starts an extension. -/
def dot : UInt8 := 46

/-- The component that names the directory it stands in. -/
def here : Bytes := [46]

/-- The component that names the parent directory. -/
def up : Bytes := [46, 46]

def isAbsolute (path : Bytes) : Bool := path.head? == some slash

/-- The non-empty components of a path, in order. -/
def components (path : Bytes) : List Bytes :=
  (Bytes.splitBy (· == slash) path).filter (!·.isEmpty)

/-- One step of cleaning: `done` holds the components kept so far, latest first. -/
def cleanStep (rooted : Bool) (done : List Bytes) (c : Bytes) : List Bytes :=
  if c == here then done
  else if c == up then
    match done with
    | [] => if rooted then [] else [up]
    | d :: rest => if d == up then up :: d :: rest else rest
  else c :: done

/-- The shortest path equal to `path` by the text alone: no `.`, no `..` after a name, no repeated
and no trailing slash. The empty path becomes `.`. -/
def clean (path : Bytes) : Bytes :=
  let rooted := isAbsolute path
  let body := Bytes.joinWith [slash] ((components path).foldl (cleanStep rooted) []).reverse
  if rooted then slash :: body else if body.isEmpty then here else body

/-- The clean path of the parts joined with slashes; empty parts at the front do not count. -/
def join (parts : List Bytes) : Bytes :=
  match parts.dropWhile List.isEmpty with
  | [] => []
  | ps => clean (Bytes.joinWith [slash] ps)

/-- The part of a path after its last slash. -/
def lastElement (path : Bytes) : Bytes :=
  (path.reverse.takeWhile (· != slash)).reverse

/-- The last component of a path, trailing slashes removed: `.` for the empty path and `/` for a
path of slashes. -/
def base (path : Bytes) : Bytes :=
  if path.isEmpty then here
  else
    let trimmed := Bytes.trimRight (· == slash) path
    if trimmed.isEmpty then [slash] else lastElement trimmed

/-- The clean path of everything up to the last slash. -/
def parent (path : Bytes) : Bytes :=
  clean (path.reverse.dropWhile (· != slash)).reverse

/-- The extension of the last element: from its last dot on, or nothing. -/
def extension (path : Bytes) : Bytes :=
  let name := (lastElement path).reverse
  let tail := name.takeWhile (· != dot)
  if tail.length < name.length then dot :: tail.reverse else []

/-- The clean absolute path that `path` means in the working directory `cwd`. -/
def absolute (cwd path : Bytes) : Bytes :=
  if isAbsolute path then clean path else join [cwd, path]

/-- Whether the name of an entry hides it. -/
def startsWithDot (name : Bytes) : Bool := name.head? == some dot

end Linewise.Path
