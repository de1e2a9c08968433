import Linewise.Path

/-!
# File trees

A file tree is a finite tree of directories with files, symbolic links, devices, named pipes and
sockets as leaves, seen by a process from a working directory. A place in it is the list of names
that leads there from the root without crossing a link. `FileTree.resolve` finds the place that a
path means, with the rules and limits of the operating system: links are followed, at most forty of
them, names have at most 255 bytes, and the directories on the way must be open to the process.

Everything in a tree belongs to the user of the process, so that the bits of a mode that speak of
the owner say what the process may do, unless the process is privileged and passes over them.
-/

namespace Linewise

/-- What a leaf is that is neither a file nor a link. -/
inductive Special where
  /-- A device that reads as empty and forgets what is written to it. -/
  | device
  /-- A named pipe. Whoever opens it waits until another process opens its other end. -/
  | pipe
  /-- A socket; it cannot be opened. -/
  | socket
  deriving DecidableEq, Repr

/-- A node of a file tree. All but links have twelve mode bits. -/
inductive Node where
  /-- A regular file with its identity, its mode and its content. -/
  | file (id : Nat) (mode : Nat) (content : Bytes)
  | directory (mode : Nat) (entries : List (Bytes × Node))
  /-- A symbolic link with its target, verbatim. -/
  | link (target : Bytes)
  | special (id : Nat) (kind : Special) (mode : Nat)
  deriving Repr, Inhabited

/-- What a process may want to do with a node. -/
inductive Access where
  | read
  | write
  /-- To look up the entries of a directory. -/
  | search
  deriving DecidableEq, Repr

/-- The bit of a mode that grants the owner an access. -/
def Access.bit : Access → Nat
  | read => 0o400
  | write => 0o200
  | search => 0o100

/-- Whether a mode grants an access to a process that is privileged or owns the node. -/
def Access.granted (a : Access) (privileged : Bool) (mode : Nat) : Bool :=
  privileged || mode &&& a.bit != 0

/-- The names that lead from the root to a node. -/
abbrev Place := List Bytes

namespace Node

def isDirectory : Node → Bool
  | directory _ _ => true
  | _ => false

def isLink : Node → Bool
  | link _ => true
  | _ => false

/-- The mode bits of a node; a link grants everything. -/
def mode : Node → Nat
  | file _ mode _ => mode
  | directory mode _ => mode
  | link _ => 0o777
  | special _ _ mode => mode

/-- The node with other mode bits; a link has none. -/
def withMode : Node → Nat → Node
  | file id _ content, mode => .file id mode content
  | directory _ entries, mode => .directory mode entries
  | link target, _ => .link target
  | special id kind _, mode => .special id kind mode

/-- The node with a name in a directory. -/
def child? : Node → Bytes → Option Node
  | directory _ entries, name => entries.lookup name
  | _, _ => none

/-- The node at a place below `n`. -/
def get? : Node → Place → Option Node
  | n, [] => some n
  | n, name :: rest =>
    match n.child? name with
    | some m => m.get? rest
    | none => none

/-- The entries of a directory with the one named `name` changed by `f`; a new entry goes last. -/
def alterEntry (f : Option Node → Option Node) (name : Bytes) :
    List (Bytes × Node) → List (Bytes × Node)
  | [] => ((f none).map fun n => (name, n)).toList
  | (k, n) :: rest =>
    if k == name then
      match f (some n) with
      | some m => (k, m) :: rest
      | none => rest.filter (·.1 != name)
    else (k, n) :: alterEntry f name rest

/-- The tree with the entry at a place changed by `f`. Nothing changes when the directory of the
place does not exist or the place is the root. -/
def alter (f : Option Node → Option Node) : Node → Place → Node
  | n, [] => n
  | directory mode entries, [name] => directory mode (alterEntry f name entries)
  | directory mode entries, name :: next :: rest =>
    directory mode (alterEntry (Option.map fun n => alter f n (next :: rest)) name entries)
  | n, _ => n

mutual

/-- The number of directories on the longest way down from a node. -/
def depth : Node → Nat
  | directory _ entries => entriesDepth entries + 1
  | _ => 0

def entriesDepth : List (Bytes × Node) → Nat
  | [] => 0
  | (_, n) :: rest => max n.depth (entriesDepth rest)

end

end Node

/-- The reasons for which the operating system refuses a request. -/
inductive OsError where
  | noEntry
  | notDirectory
  | isDirectory
  | tooManyLinks
  | nameTooLong
  | invalid
  | alreadyExists
  | notEmpty
  | denied
  | noDevice
  deriving DecidableEq, Repr

def OsError.text : OsError → Bytes
  | noEntry => utf8 "no such file or directory"
  | notDirectory => utf8 "not a directory"
  | isDirectory => utf8 "is a directory"
  | tooManyLinks => utf8 "too many levels of symbolic links"
  | nameTooLong => utf8 "file name too long"
  | invalid => utf8 "invalid argument"
  | alreadyExists => utf8 "file exists"
  | notEmpty => utf8 "directory not empty"
  | denied => utf8 "permission denied"
  | noDevice => utf8 "no such device or address"

/-- A refused request: what was asked for, on which path or paths, and why. -/
structure PathError where
  request : String
  path : Bytes
  cause : OsError
  deriving DecidableEq, Repr

def PathError.message (e : PathError) : Bytes :=
  utf8 e.request ++ utf8 " " ++ e.path ++ utf8 ": " ++ e.cause.text

/-- A tree of files as a process sees it. -/
structure FileTree where
  root : Node
  /-- The absolute path of the working directory. -/
  cwd : Bytes
  /-- Larger than the identity of every file, device, pipe and socket. -/
  nextId : Nat
  /-- Whether the process may do what modes deny. -/
  privileged : Bool
  deriving Repr, Inhabited

namespace FileTree

/-- No more links than this are followed on one path. -/
def maxLinks : Nat := 40

/-- The longest name of an entry. -/
def maxName : Nat := 255

/-- The longest path. -/
def maxPath : Nat := 4095

/-- Whether the process may do something with a node of a mode. -/
def grants (t : FileTree) (a : Access) (mode : Nat) : Bool := a.granted t.privileged mode

/-- Where a path leads. -/
inductive Destination where
  | found (place : Place) (node : Node)
  /-- The directory is there and the entry is not. -/
  | absent (directory : Place) (name : Bytes)
  deriving Repr

/-- The end of a walk along path components, or the link that it met, with the directory that holds
the link and the components after it. -/
inductive Leg where
  | arrived (d : Destination)
  | link (directory : Place) (target : Bytes) (rest : List Bytes)

/-- Walks along path components from a place up to the first link that has to be followed; a link at
the very end is followed only on request. -/
def walkLeg (t : FileTree) (follow : Bool) : Place → List Bytes → Except OsError Leg
  | place, [] =>
    match t.root.get? place with
    | some n => .ok (.arrived (.found place n))
    | none => .error .noEntry
  | place, c :: rest =>
    match t.root.get? place with
    | some (.directory mode entries) =>
      if !t.grants .search mode then .error .denied
      else if c == Path.here then walkLeg t follow place rest
      else if c == Path.up then walkLeg t follow place.dropLast rest
      else if c.length > maxName then .error .nameTooLong
      else
        match entries.lookup c with
        | none => if rest.isEmpty then .ok (.arrived (.absent place c)) else .error .noEntry
        | some (.link target) =>
          if rest.isEmpty && !follow then .ok (.arrived (.found (place ++ [c]) (.link target)))
          else .ok (.link place target rest)
        | some _ => walkLeg t follow (place ++ [c]) rest
    | some _ => .error .notDirectory
    | none => .error .noEntry

/-- The components of a path; a slash at the end asks for a directory and counts as `.`. -/
def steps (path : Bytes) : List Bytes :=
  Path.components path ++ (if path.getLast? == some Path.slash then [Path.here] else [])

/-- Walks along path components, following at most `links` links. -/
def walkLinks (t : FileTree) (follow : Bool) :
    Nat → Place → List Bytes → Except OsError Destination
  | links, place, cs =>
    match walkLeg t follow place cs with
    | .error e => .error e
    | .ok (.arrived d) => .ok d
    | .ok (.link dir target rest) =>
      match links with
      | 0 => .error .tooManyLinks
      | links + 1 =>
        walkLinks t follow links (if Path.isAbsolute target then [] else dir)
          (steps target ++ rest)

/-- Where a path leads. The last component is followed when it is a link and `follow` is set. -/
def resolve (t : FileTree) (follow : Bool) (path : Bytes) : Except OsError Destination :=
  if path.contains 0 then .error .invalid
  else if path.isEmpty then .error .noEntry
  else if path.length > maxPath then .error .nameTooLong
  else if Path.isAbsolute path then walkLinks t follow maxLinks [] (steps path)
  else walkLinks t follow maxLinks [] (Path.components t.cwd ++ steps path)

/-- The place and the node that a path leads to. -/
def find (t : FileTree) (follow : Bool) (path : Bytes) : Except OsError (Place × Node) :=
  match t.resolve follow path with
  | .error e => .error e
  | .ok (.absent _ _) => .error .noEntry
  | .ok (.found place n) => .ok (place, n)

/-- The node at a path, links followed. -/
def stat (t : FileTree) (path : Bytes) : Except PathError Node :=
  match t.find true path with
  | .ok (_, n) => .ok n
  | .error e => .error ⟨"stat", path, e⟩

/-- The node at a path, a link at its end not followed. -/
def lstat (t : FileTree) (path : Bytes) : Except PathError Node :=
  match t.find false path with
  | .ok (_, n) => .ok n
  | .error e => .error ⟨"lstat", path, e⟩

/-- Whether a path leads to a directory. -/
def isDirectory (t : FileTree) (path : Bytes) : Bool :=
  match t.stat path with
  | .ok n => n.isDirectory
  | .error _ => false

/-- Why the system does not let the process open a node, if so. -/
def refusal? (t : FileTree) (wanted : List Access) (n : Node) : Option OsError :=
  if !wanted.all (t.grants · n.mode) then some .denied
  else
    match n with
    | .special _ .socket _ => some .noDevice
    | _ => none

/-- Opens the node at a path for reading. Where it is a pipe this takes until another process writes
to it. -/
def openNode (t : FileTree) (path : Bytes) : Except PathError Node :=
  match t.find true path with
  | .error e => .error ⟨"open", path, e⟩
  | .ok (_, n) =>
    match t.refusal? [.read] n with
    | some e => .error ⟨"open", path, e⟩
    | none => .ok n

/-- Whether the node at a path can be opened for reading. -/
def readable (t : FileTree) (path : Bytes) : Bool := (t.openNode path).isOk

/-- The content of the file at a path. Devices and pipes have none. -/
def readFile (t : FileTree) (path : Bytes) : Except PathError Bytes :=
  match t.openNode path with
  | .error e => .error e
  | .ok (.file _ _ content) => .ok content
  | .ok (.directory _ _) => .error ⟨"read", path, .isDirectory⟩
  | .ok _ => .ok []

/-- The names in a directory, in byte order. -/
def sortedNames (entries : List (Bytes × Node)) : List Bytes :=
  (entries.map Prod.fst).mergeSort Bytes.le

/-- The names in the directory at a path, in byte order. -/
def readDirectory (t : FileTree) (path : Bytes) : Except PathError (List Bytes) :=
  match t.openNode path with
  | .error e => .error e
  | .ok (.directory _ entries) => .ok (sortedNames entries)
  | .ok _ => .error ⟨"readdirent", path, .notDirectory⟩

end FileTree

end Linewise
