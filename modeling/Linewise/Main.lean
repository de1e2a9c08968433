import Linewise.CommandLine.Run
import Linewise.FileTree.Listing
import Std.Time.Zoned

/-!
# The program

The outer layer: it reads the files that a command may look at into a file tree, runs the command on
it, writes what the command says and carries the changes over to the disk. Modes of files cannot be
asked for here; every file counts as one that is not executable, and nothing is denied.
-/

namespace Linewise.Outer

def textOf (bs : Bytes) : String := (String.fromUTF8? ⟨bs.toArray⟩).getD ""

/-- The tree with what is on the disk at an absolute path in it, and everything below. -/
partial def capture (t : FileTree) (path : String) : IO FileTree := do
  let here := (← IO.currentDir) / path
  let place := Path.components (utf8 path)
  if !(← here.pathExists) then return t
  if ← here.isDir then
    let t := if (t.root.get? place).isSome then t else t.plant place (.directory FileTree.newDirectoryMode [])
    (← here.readDir).foldlM (fun t entry => do
      match (← entry.path.symlinkMetadata).type with
      | .symlink =>
        let target ← IO.FS.realPath entry.path
        return t.plant (place ++ [utf8 entry.fileName]) (.link (utf8 target.toString))
      | _ => capture t entry.path.toString) t
  else
    let content ← IO.FS.readBinFile here
    return t.plant place (.file 0 0o644 content.toList)

/-- The paths of the configuration files and rule directories that a process may look at. -/
def configPaths (env : Environment) (cwd : Bytes) : List Bytes :=
  let loader := Config.Loader.ofProcess env cwd
  let above := (Config.ancestors (Path.components cwd)).map fun dir =>
    Path.join [dir, Config.fileName]
  (loader.userFiles ++ above ++ [loader.ruleDir]).filter (!·.isEmpty)

/-- The variables of the environment. -/
def environment : IO Environment := do
  let text ← IO.FS.readBinFile "/proc/self/environ"
  let pairs := (Bytes.splitBy (· == 0) text.toList).map fun entry =>
    (entry.takeWhile (· != 61), (entry.dropWhile (· != 61)).drop 1)
  return fun name => (pairs.lookup name).getD []

/-- The content of the file at a path of a listing. -/
def contentAt? (t : FileTree) (path : Bytes) : Option Bytes :=
  match t.root.get? (Path.components path) with
  | some (.file _ _ content) => some content
  | _ => none

def diskPath (path : Bytes) : String := "/" ++ textOf path

/-- Carries the changes from one tree to another over to the disk. -/
def carryOver (before after : FileTree) : IO Unit := do
  for item in Listing.ofPlace before [] do
    match item with
    | .file path _ _ =>
      if (contentAt? after path).isNone then IO.FS.removeFile (diskPath path)
    | _ => pure ()
  for item in Listing.ofPlace after [] do
    match item with
    | .directory path => IO.FS.createDirAll (diskPath path)
    | .file path _ content =>
      if contentAt? before path != some content then
        IO.FS.writeBinFile (diskPath path) ⟨content.toArray⟩
    | _ => pure ()

/-- The time of day. -/
def clock : IO Bytes := do
  let now ← Std.Time.PlainTime.now
  return Clock.text ⟨now.hour.val.toNat, now.minute.val.toNat, now.second.val.toNat⟩

def emit (stream : IO.FS.Stream) (text : Bytes) : IO Unit := do
  stream.write ⟨text.toArray⟩
  stream.flush

/-- Runs the program and answers its exit code. The time that a check takes is that of reading the
files. -/
def run (args : List String) : IO UInt32 := do
  let start ← IO.monoNanosNow
  let cwd := (← IO.currentDir).toString
  let env ← environment
  let arguments := args.map utf8
  let wanted := cwd :: (configPaths env (utf8 cwd) ++ arguments).map fun path =>
    textOf (Path.absolute (utf8 cwd) path)
  let tree ← wanted.foldlM capture ⟨.directory FileTree.newDirectoryMode [], utf8 cwd, 1, true⟩
  let finish ← IO.monoNanosNow
  let answer := CommandLine.run ⟨tree, env, ← clock, durationText (finish - start), false⟩ arguments
  carryOver tree answer.tree
  emit (← IO.getStdout) answer.out
  emit (← IO.getStderr) answer.errors
  return answer.exitCode.toUInt32

end Linewise.Outer

def main (args : List String) : IO UInt32 := Linewise.Outer.run args
