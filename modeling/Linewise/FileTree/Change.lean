import Linewise.FileTree.Basic

/-!
# Changing a file tree

The requests that change a file tree: creating, writing, renaming and removing entries and changing
modes. A refused request leaves the tree as it is.
-/

namespace Linewise

namespace Node

mutual

/-- The tree with the content of every file of one identity replaced. -/
def writeFiles (id : Nat) (content : Bytes) : Node → Node
  | file k mode old => .file k mode (if k == id then content else old)
  | directory mode entries => .directory mode (writeEntries id content entries)
  | link target => .link target
  | special k kind mode => .special k kind mode

def writeEntries (id : Nat) (content : Bytes) : List (Bytes × Node) → List (Bytes × Node)
  | [] => []
  | (name, n) :: rest => (name, writeFiles id content n) :: writeEntries id content rest

end

/-- The identity of a file. -/
def identity? : Node → Option Nat
  | file id _ _ => some id
  | _ => none

end Node

namespace FileTree

/-- The tree with the content of the file with an identity replaced, wherever the file is by now. -/
def writeIdentity (t : FileTree) (id : Nat) (content : Bytes) : FileTree :=
  { t with root := t.root.writeFiles id content }

/-- The tree with the entry at a place set or taken away. -/
def put (t : FileTree) (place : Place) (n : Option Node) : FileTree :=
  { t with root := t.root.alter (fun _ => n) place }

/-- The tree with a new file at a place; the file gets an identity of its own. -/
def putFile (t : FileTree) (place : Place) (mode : Nat) (content : Bytes) : FileTree :=
  { t.put place (some (.file t.nextId mode content)) with nextId := t.nextId + 1 }

/-- The mode of the directories that the program makes. -/
def newDirectoryMode : Nat := 0o755

/-- Whether entries of the directory at a place may be made and taken away. -/
def mayAlter (t : FileTree) (dir : Place) : Bool :=
  (t.root.get? dir).any fun n => t.grants .write n.mode

/-- The tree with a node at a place and with directories above it where nothing is. -/
def plant (t : FileTree) (place : Place) (n : Node) : FileTree :=
  let above := (List.range place.length).map place.take
  let root := above.foldl (fun (root : Node) dir =>
    match root.get? dir with
    | some _ => root
    | none => root.alter (fun _ => some (.directory newDirectoryMode [])) dir) t.root
  let n := match n with
    | .file _ mode content => Node.file t.nextId mode content
    | .special _ kind mode => .special t.nextId kind mode
    | n => n
  { t with root := root.alter (fun _ => some n) place, nextId := t.nextId + 1 }

/-- A path without the slashes at its end. -/
def withoutSlashes (path : Bytes) : Bytes := Bytes.trimRight (· == Path.slash) path

/-- Opens the file at a path, creating it with `mode` when it is missing. A link at the end of the
path is followed, also one whose target is missing. Answers the place of the file. -/
def openOrCreate (t : FileTree) (wanted : List Access) (path : Bytes) (mode : Nat) :
    Except PathError (FileTree × Place) :=
  let refused {α : Type} (e : OsError) : Except PathError α := .error ⟨"open", path, e⟩
  if path.getLast? == some Path.slash then
    match t.resolve false (withoutSlashes path) with
    | .error e => refused (if (withoutSlashes path).isEmpty then .isDirectory else e)
    | .ok _ => refused .isDirectory
  else
    match t.resolve true path with
    | .error e => refused e
    | .ok (.found _ (.directory _ _)) => refused .isDirectory
    | .ok (.found place n) =>
      match t.refusal? wanted n with
      | some e => refused e
      | none => .ok (t, place)
    | .ok (.absent dir name) =>
      if t.mayAlter dir then .ok (t.putFile (dir ++ [name]) mode [], dir ++ [name])
      else refused .denied

/-- The tree with the content of the file at a place replaced; a device forgets it. -/
def writeAt (t : FileTree) (place : Place) (content : Bytes) : FileTree :=
  { t with
    root := t.root.alter
      (Option.map fun
        | .file id mode _ => .file id mode content
        | n => n) place }

/-- Writes a whole file in place. -/
def writeFile (t : FileTree) (path content : Bytes) (mode : Nat) : Except PathError FileTree := do
  let (t, place) ← t.openOrCreate [.read, .write] path mode
  .ok (t.writeAt place content)

/-- Asks for the existing file at a path to be opened for writing. -/
def checkWritable (t : FileTree) (path : Bytes) : Except PathError Unit :=
  match t.find true path with
  | .error e => .error ⟨"open", path, e⟩
  | .ok (_, .directory _ _) => .error ⟨"open", path, .isDirectory⟩
  | .ok (_, n) =>
    match t.refusal? [.write] n with
    | some e => .error ⟨"open", path, e⟩
    | none => .ok ()

/-- Creates a file that must not exist yet. -/
def createNew (t : FileTree) (path : Bytes) (mode : Nat) (content : Bytes) :
    Except PathError FileTree :=
  match t.resolve false path with
  | .error e => .error ⟨"open", path, e⟩
  | .ok (.found _ _) => .error ⟨"open", path, .alreadyExists⟩
  | .ok (.absent dir name) =>
    if t.mayAlter dir then .ok (t.putFile (dir ++ [name]) mode content)
    else .error ⟨"open", path, .denied⟩

/-- Creates one directory. -/
def makeDirectory (t : FileTree) (path : Bytes) : Except PathError FileTree :=
  match t.resolve false (if (withoutSlashes path).isEmpty then path else withoutSlashes path) with
  | .error e => .error ⟨"mkdir", path, e⟩
  | .ok (.found _ _) => .error ⟨"mkdir", path, .alreadyExists⟩
  | .ok (.absent dir name) =>
    if t.mayAlter dir then .ok (t.put (dir ++ [name]) (some (.directory newDirectoryMode [])))
    else .error ⟨"mkdir", path, .denied⟩

/-- What stands before the last component of a path, its slash included. -/
def beforeLast (path : Bytes) : Bytes :=
  ((withoutSlashes path).reverse.dropWhile (· != Path.slash)).reverse

/-- Creates a directory and the missing ones above it. The tree is answered also on failure: the
directories made before it stay. The fuel is the length of the path. -/
def makeDirectoriesFrom : Nat → FileTree → Bytes → FileTree × Option PathError
  | 0, t, _ => (t, none)
  | fuel + 1, t, path =>
    match t.find true path with
    | .ok (_, .directory _ _) => (t, none)
    | .ok _ => (t, some ⟨"mkdir", path, .notDirectory⟩)
    | .error _ =>
      let above := beforeLast path
      let (t, failed) := if above.isEmpty then (t, none) else makeDirectoriesFrom fuel t above
      match failed with
      | some e => (t, some e)
      | none =>
        match t.makeDirectory path with
        | .ok t => (t, none)
        | .error e =>
          match t.find false path with
          | .ok (_, .directory _ _) => (t, none)
          | _ => (t, some e)

/-- Creates a directory and the missing ones above it. -/
def makeDirectories (t : FileTree) (path : Bytes) : FileTree × Option PathError :=
  makeDirectoriesFrom (path.length + 1) t path

/-- Changes the mode of the node that a path leads to. -/
def changeMode (t : FileTree) (path : Bytes) (mode : Nat) : Except PathError FileTree :=
  match t.find true path with
  | .error e => .error ⟨"chmod", path, e⟩
  | .ok (place, n) => .ok (t.put place (some (n.withMode mode)))

/-- Renames an entry; an entry that is no directory is replaced by it. An entry that is renamed to
itself stays, whoever asks. -/
def rename (t : FileTree) (old new : Bytes) : Except PathError FileTree :=
  let refused {α : Type} (e : OsError) : Except PathError α :=
    .error ⟨"rename", old ++ utf8 " " ++ new, e⟩
  match t.find false old with
  | .error e => refused e
  | .ok (source, n) =>
    match t.resolve false new with
    | .error e => refused e
    | .ok (.found _ (.directory _ _)) => refused .alreadyExists
    | .ok (.found place _) =>
      if place == source then .ok t
      else if t.mayAlter source.dropLast && t.mayAlter place.dropLast then
        .ok ((t.put source none).put place (some n))
      else refused .denied
    | .ok (.absent dir name) =>
      if t.mayAlter source.dropLast && t.mayAlter dir then
        .ok ((t.put source none).put (dir ++ [name]) (some n))
      else refused .denied

/-- Removes an entry; a directory has to be empty. -/
def remove (t : FileTree) (path : Bytes) : Except PathError FileTree :=
  match t.find false path with
  | .error e => .error ⟨"remove", path, e⟩
  | .ok (place, n) =>
    if !t.mayAlter place.dropLast then .error ⟨"remove", path, .denied⟩
    else
      match n with
      | .directory _ (_ :: _) => .error ⟨"remove", path, .notEmpty⟩
      | _ => .ok (t.put place none)

/-- Whether a name is taken in the directory at a path. -/
def hasEntry (t : FileTree) (dir name : Bytes) : Bool :=
  match t.find true dir with
  | .ok (_, n) => (n.child? name).isSome
  | .error _ => false

/-- The number of entries of the directory at a path. -/
def entryCount (t : FileTree) (dir : Bytes) : Nat :=
  match t.find true dir with
  | .ok (_, .directory _ entries) => entries.length
  | _ => 0

/-- The first number from `k` on whose name is free in a directory. The fuel bounds the names
tried. -/
def freeNumberFrom (t : FileTree) (dir : Bytes) (nameOf : Nat → Bytes) : Nat → Nat → Nat
  | 0, k => k
  | fuel + 1, k => if t.hasEntry dir (nameOf k) then freeNumberFrom t dir nameOf fuel (k + 1) else k

/-- A number whose name is free in a directory. -/
def freeNumber (t : FileTree) (dir : Bytes) (nameOf : Nat → Bytes) : Nat :=
  t.freeNumberFrom dir nameOf (t.entryCount dir + 1) 0

end FileTree

end Linewise
