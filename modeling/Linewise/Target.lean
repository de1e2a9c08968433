import Linewise.Cursor.Basic
import Linewise.FileTree.Change
import Linewise.Lines

/-!
# Targets

A target is a file or a directory under inspection. The lines of a file are read when they are first
asked for; from then on the target keeps them and a copy of what was read.
-/

namespace Linewise

inductive Kind where
  | file
  | directory
  deriving DecidableEq, Repr

def Kind.text : Kind → Bytes
  | file => utf8 "File"
  | directory => utf8 "Dir"

/-- The lines of a target and the lines that it had at first. -/
structure Target.Content where
  lines : Array Bytes
  initial : Array Bytes
  deriving DecidableEq, Repr

/-- A file or directory under inspection. -/
structure Target where
  /-- The path as given. -/
  path : Bytes
  /-- The clean absolute path. -/
  fullPath : Bytes
  kind : Kind
  /-- The lines, once they are known. -/
  content : Option Target.Content := none
  deriving DecidableEq, Repr

namespace Target

/-- The target at a path. -/
def new (cwd path : Bytes) (kind : Kind) : Target :=
  { path := path, fullPath := Path.absolute cwd path, kind := kind }

def isFile (t : Target) : Bool := t.kind == .file

def isDirectory (t : Target) : Bool := t.kind == .directory

def name (t : Target) : Bytes := Path.base t.path

/-- The extension without its dot. -/
def extension (t : Target) : Bytes := (Path.extension t.path).drop 1

/-- How messages name the target. -/
def label (t : Target) : Bytes :=
  match t.kind with
  | .directory => utf8 "Dir:" ++ t.path
  | .file => utf8 "File:" ++ t.fullPath

/-- The lines of a file could not be read. -/
structure ReadError where
  path : Bytes
  cause : PathError
  deriving DecidableEq, Repr

def ReadError.message (e : ReadError) : Bytes :=
  utf8 "failed to read " ++ e.path ++ utf8 ": " ++ e.cause.message

/-- The target with its lines read, unless it has them already. Directories have no lines. -/
def load (t : Target) (tree : FileTree) : Except ReadError Target :=
  if t.isDirectory || t.content.isSome then .ok t
  else
    match tree.readFile t.fullPath with
    | .error e => .error ⟨t.path, e⟩
    | .ok data =>
      let lines := (Lines.split data).toArray
      .ok { t with content := some ⟨lines, lines⟩ }

/-- The lines in memory. -/
def lines (t : Target) : Array Bytes :=
  match t.content with
  | some c => c.lines
  | none => #[]

/-- The lines that the target shows to rules: none for a directory. -/
def shownLines (t : Target) : Array Bytes := if t.isDirectory then #[] else t.lines

/-- Replaces the lines; the first lines that a target gets count as what was read. -/
def setLines (t : Target) (lines : Array Bytes) : Target :=
  match t.content with
  | some c => { t with content := some { c with lines := lines } }
  | none => { t with content := some ⟨lines, lines⟩ }

/-- Whether the lines differ from what was read. -/
def changed (t : Target) : Bool :=
  match t.kind, t.content with
  | .file, some c => c.lines != c.initial
  | _, _ => false

/-- The bytes of all lines. -/
def text (t : Target) : Bytes := t.lines.toList.flatten

end Target

end Linewise
