import Linewise.FileTree.Basic
import Linewise.Glob.Name

/-!
# Expanding patterns

The paths of a file tree that a glob pattern matches, in a definite order: entries of a directory
in byte order, and the alternatives of a pair of braces merged. `**` as a whole segment stands for a
directory and everything below it, links followed.
-/

namespace Linewise.Glob

/-- Where a pattern is expanded: the directory `base` of a file tree. `spread` says that the pattern
has `**` before its end; the paths of all alternatives are then sorted together. -/
structure Ground where
  tree : FileTree
  base : Bytes
  spread : Bool

namespace Ground

/-- Whether a path below the base is in its plain form: no empty, `.` or `..` components. -/
def isPlain (path : Bytes) : Bool :=
  path == Path.here ||
    (Bytes.splitBy (· == Path.slash) path).all fun c => !c.isEmpty && c != Path.here && c != Path.up

/-- The path of something below the base. -/
def full (g : Ground) (path : Bytes) : Bytes :=
  if g.base.getLast? == some Path.slash then g.base ++ path else g.base ++ [Path.slash] ++ path

/-- Whether a path leads somewhere. -/
def leads (g : Ground) (path : Bytes) : Bool :=
  isPlain path && (g.tree.stat (g.full path)).isOk

/-- Whether a path leads to a directory. -/
def isDirectory (g : Ground) (path : Bytes) : Bool :=
  isPlain path && g.tree.isDirectory (g.full path)

/-- The names in a directory, in byte order; nothing when it cannot be listed. -/
def names (g : Ground) (dir : Bytes) : List Bytes :=
  if isPlain dir then
    match g.tree.readDirectory (g.full dir) with
    | .ok names => names
    | .error _ => []
  else []

/-- A directory, everything in it and, in its place, everything below. Only directories are listed
unless `files` is set. The fuel bounds the depth. -/
def allBelow (g : Ground) (files : Bool) : Nat → Bytes → List Bytes
  | 0, _ => []
  | fuel + 1, dir =>
    if g.isDirectory dir then
      dir :: (g.names dir).flatMap fun name =>
        let path := Path.join [dir, name]
        if g.isDirectory path then allBelow g files fuel path
        else if files then [path] else []
    else []

/-- No way down is longer than this: between two links it goes down the tree. -/
def depthBound (g : Ground) : Nat := (FileTree.maxLinks + 1) * (g.tree.root.depth + 1) + 2

/-- The paths that a pattern of one segment matches in a directory. -/
def segment (g : Ground) (dir pattern : Bytes) (files : Bool) : List Bytes :=
  if pattern.isEmpty then (if g.isDirectory dir then [dir] else [])
  else if pattern == [star, star] then g.allBelow files g.depthBound dir
  else
    ((g.names dir).filter (matchesName pattern)).filterMap fun name =>
      let path := Path.join [dir, name]
      if files || g.isDirectory path then some path else none

end Ground

/-- The insertion of a path before the first one that is not smaller. -/
def insertPath (path : Bytes) : List Bytes → List Bytes
  | [] => [path]
  | p :: rest => if !Bytes.le path p then p :: insertPath path rest else path :: p :: rest

/-- Two sorted lists merged, with what both hold once. -/
def mergePaths : List Bytes → List Bytes → List Bytes
  | [], ys => ys
  | x :: xs, [] => x :: xs
  | x :: xs, y :: ys =>
    if x == y then x :: mergePaths xs ys
    else if Bytes.le x y then x :: mergePaths xs (y :: ys)
    else y :: mergePaths xs (insertPath x ys)

/-- A sorted list with a path added unless it is there. -/
def addPath (paths : List Bytes) (path : Bytes) : List Bytes :=
  if paths.contains path then paths else insertPath path paths

/-- A path in front of a pattern; the base itself needs none. -/
def prefixWith (dir pattern : Bytes) : Bytes :=
  if dir.isEmpty || dir == Path.here then pattern else dir ++ [Path.slash] ++ pattern

mutual

/-- The paths that a pattern matches; only directories unless `files` is set. `found` holds what
alternatives before this one have found. The fuel bounds the number of segments and alternatives
that are taken apart. -/
def expand (g : Ground) : Nat → Bool → List Bytes → Bytes → List Bytes
  | 0, _, _, _ => []
  | fuel + 1, files, found, pattern =>
    match firstMeta? pattern with
    | none =>
      let path := unescape pattern
      if g.leads (if path.getLast? == some Path.slash then path.dropLast else path) then [path]
      else []
    | some start =>
      match lastPlace? (fun b => b == Path.slash || b == closeBrace) pattern with
      | none => g.segment Path.here pattern files
      | some place =>
        if pattern[place]? == some closeBrace then
          match opening? (pattern.take place) with
          | some opening => expandBraces g fuel files found pattern opening place
          | none =>
            match lastPlace? (· == Path.slash) (pattern.take place) with
            | some slash => expandBelow g fuel files found pattern start slash
            | none => g.segment Path.here pattern files
        else expandBelow g fuel files found pattern start place

/-- The paths that the segment of a pattern after the slash at a place matches in the directories
that the pattern before it matches. What was found before counts among these directories. -/
def expandBelow (g : Ground) : Nat → Bool → List Bytes → Bytes → Nat → Nat → List Bytes
  | 0, _, _, _, _, _ => []
  | fuel + 1, files, found, pattern, start, slash =>
    let dir := pattern.take slash
    let last := pattern.drop (slash + 1)
    if slash ≤ start then g.segment dir last files
    else (found ++ expand g fuel false found dir).flatMap fun d => g.segment d last files

/-- The paths that a pattern with braces at two places matches. -/
def expandBraces (g : Ground) : Nat → Bool → List Bytes → Bytes → Nat → Nat → List Bytes
  | 0, _, _, _, _, _ => []
  | fuel + 1, files, found, pattern, opening, closing =>
    let body := (pattern.take closing).drop (opening + 1)
    let after := pattern.drop (closing + 1)
    let (dirs, before) :=
      match lastPlace? (fun b => b == Path.slash || b == closeBrace) (pattern.take opening) with
      | some place =>
        if pattern[place]? == some closeBrace then ([[]], pattern.take opening)
        else
          (found ++ expand g fuel false found (pattern.take place),
            (pattern.take opening).drop (place + 1))
      | none => ([[]], pattern.take opening)
    let patterns (d : Bytes) : List Bytes :=
      (alternatives body).map fun a => prefixWith d (before ++ a ++ after)
    if g.spread then
      (dirs.flatMap patterns).foldl (fun paths p => (expand g fuel files [] p).foldl addPath paths) []
    else
      dirs.foldl (fun new d =>
        new ++ (patterns d).foldl (fun here p =>
          mergePaths here (expand g fuel files (found ++ new ++ here) p)) []) []

end

/-- The pattern is malformed. -/
inductive BadPattern where
  | malformed
  deriving DecidableEq, Repr

def BadPattern.text : Bytes := utf8 "syntax error in pattern"

/-- Expansion takes no more steps than this on a pattern and the paths put in front of it. -/
def fuelFor (pattern : Bytes) : Nat := 2 * (pattern.length + FileTree.maxPath)

/-- The paths of a file tree that a pattern matches. -/
def paths (t : FileTree) (pattern : Bytes) : Except BadPattern (List Bytes) :=
  if pattern.isEmpty then .ok []
  else
    let pattern := Path.clean pattern
    let (base, below) := splitBase pattern
    if below.isEmpty || below == Path.here || below == Path.up then
      if !isValid pattern then .error .malformed
      else
        let path := unescape pattern
        .ok (if (t.lstat path).isOk then [path] else [])
    else if !isValid below then .error .malformed
    else
      let g : Ground := ⟨t, base, hasInnerDoubleStar below⟩
      .ok ((expand g (fuelFor pattern) true [] below).map fun p => Path.join [base, p])

end Linewise.Glob
