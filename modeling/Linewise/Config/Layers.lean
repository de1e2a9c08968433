import Linewise.Config.Format
import Linewise.Journal

/-!
# Layers of configuration

The configuration of a run is merged from these layers, each over the ones before: the standard
layer with the standard directory of rules, the file in the home directory, the files that a
variable of the environment lists, the files that were asked for, the files in the working directory
and all directories above it from the root down, and the choices of the command line. No file is
merged twice.
-/

namespace Linewise

/-- The variables of the environment; a variable that is not set is empty. -/
abbrev Environment := Bytes → Bytes

namespace Config

/-- The variable that lists configuration files. -/
def listVariable : Bytes := utf8 "FUZZRC"

/-- The standard directory with excludes files of rules; nothing when no directory for the
configuration of the user is known. -/
def standardRuleDir (env : Environment) : Bytes :=
  let configured := env (utf8 "XDG_CONFIG_HOME")
  let home := env (utf8 "HOME")
  let inside := [utf8 "fuzz", utf8 "rules"]
  if configured.isEmpty then
    if home.isEmpty then [] else Path.join ((home ++ utf8 "/.config") :: inside)
  else if Path.isAbsolute configured then Path.join (configured :: inside)
  else []

/-- Where configuration files are looked for. -/
structure Loader where
  /-- The directory with the file of the user; empty for none. -/
  homeDir : Bytes
  /-- The directory from which files are looked for upwards; empty for none. -/
  workDir : Bytes
  /-- The standard directory of rules; empty for none. -/
  ruleDir : Bytes
  env : Environment
  /-- Whether the variable that lists files counts. -/
  readsVariable : Bool := true

/-- The loader of a process. -/
def Loader.ofProcess (env : Environment) (workDir : Bytes) : Loader :=
  ⟨env (utf8 "HOME"), workDir, standardRuleDir env, env, true⟩

/-- Why configuration files could not be loaded. -/
inductive LoadError where
  /-- A file that was asked for is not there. -/
  | inaccessible (path : Bytes) (cause : PathError)
  | unreadable (cause : PathError)
  | malformed (path : Bytes) (cause : Yaml.DecodeError)

def LoadError.message : LoadError → Bytes
  | inaccessible path cause =>
    utf8 "inaccessible config file: " ++ path ++ utf8 ": " ++ cause.message
  | unreadable cause => utf8 "failed to read config file: " ++ cause.message
  | malformed path cause => path ++ utf8 ": " ++ parseMessage cause

/-- The bytes that end the name of a variable in a path: white space and slashes. -/
def endsVariable (b : UInt8) : Bool :=
  b == 9 || b == 10 || b == 12 || b == 13 || b == 32 || b == Path.slash

/-- A path with every `$NAME` replaced by the variable. The fuel is the length of the path. -/
def expandVariables (env : Environment) : Nat → Bytes → Bytes
  | 0, path => path
  | _ + 1, [] => []
  | fuel + 1, b :: rest =>
    let name := rest.takeWhile (!endsVariable ·)
    if b == 36 && !name.isEmpty then env name ++ expandVariables env fuel (rest.drop name.length)
    else b :: expandVariables env fuel rest

/-- The directory that a rule path of the configuration file `file` means: one relative to the
working directory if it exists there, else one relative to the directory of the file. -/
def resolveRulePath (l : Loader) (t : FileTree) (file path : Bytes) : Bytes :=
  let path := expandVariables l.env path.length path
  let candidate := if Path.isAbsolute path then path else Path.join [l.workDir, path]
  if t.isDirectory candidate then Path.clean candidate
  else if Path.isAbsolute path then Path.clean path
  else Path.join [Path.parent file, path]

/-- Reads a configuration file and resolves its rule paths. -/
def Loader.loadFile (l : Loader) (t : FileTree) (path : Bytes) : Except LoadError Config :=
  match t.readFile path with
  | .error e => .error (.unreadable e)
  | .ok text =>
    match parse text with
    | .error e => .error (.malformed path e)
    | .ok c => .ok { c with rulePaths := c.rulePaths.map (resolveRulePath l t path) }

/-- The state of loading: what was said about files, and the absolute paths of the files that were
merged, in order. -/
structure Loading extends Journal where
  loaded : List Bytes := []

def Loading.say (s : Loading) (text : String) (path : Bytes) : Loading :=
  { s with log := s.log ++ [⟨.trace, utf8 text ++ path⟩] }

/-- Merges a file over a configuration. A file that is missing is passed over unless it is
required, and a file that was merged before is passed over as well. -/
def Loader.mergeFile (l : Loader) (s : Loading) (c : Config) (path : Bytes) (required : Bool) :
    Loading × Except LoadError Config :=
  let full := Path.absolute s.tree.cwd path
  if s.loaded.contains full then (s.say "Ignoring already loaded config " full, .ok c)
  else
    match s.view.stat full with
    | .error e =>
      if required then (s, .error (.inaccessible path e))
      else (s.say "Ignoring inaccessible config " full, .ok c)
    | .ok _ =>
      let s := s.say "Loading config " full
      match l.loadFile s.view full with
      | .error e => (s, .error e)
      | .ok layer => ({ s with loaded := s.loaded ++ [full] }, .ok (c.merge layer))

/-- Merges files over a configuration, in order, up to the first one that cannot be merged. -/
def Loader.mergeFiles (l : Loader) (required : Bool) :
    Loading → Config → List Bytes → Loading × Except LoadError Config
  | s, c, [] => (s, .ok c)
  | s, c, path :: rest =>
    match l.mergeFile s c path required with
    | (s, .ok c) => l.mergeFiles required s c rest
    | (s, .error e) => (s, .error e)

/-- The files of the user: the one in the home directory and those that the variable lists. -/
def Loader.userFiles (l : Loader) : List Bytes :=
  (if l.homeDir.isEmpty then [] else [Path.join [l.homeDir, fileName]]) ++
    (if l.readsVariable then
      (Bytes.splitBy (fun b => b == 58 || b == 59) (l.env listVariable)).filter (!·.isEmpty)
    else [])

/-- The directory with the given names and all directories above it, from the root down. -/
def ancestors (names : List Bytes) : List Bytes :=
  (List.range (names.length + 1)).map fun n =>
    [Path.slash] ++ Bytes.joinWith [Path.slash] (names.take n)

/-- The configuration files in the working directory and above it, from the root down. -/
def Loader.workFiles (l : Loader) (t : FileTree) : List Bytes :=
  if l.workDir.isEmpty then []
  else
    let dirs := ancestors (Path.components (Path.absolute t.cwd l.workDir))
    (dirs.map fun dir => Path.join [dir, fileName]).filter fun path =>
      match t.stat path with
      | .ok n => !n.isDirectory
      | .error _ => false

/-- The first of some paths that leads nowhere, with the reason. -/
def firstMissing? (t : FileTree) : List Bytes → Option LoadError
  | [] => none
  | path :: rest =>
    match t.stat path with
    | .error e => some (.inaccessible path e)
    | .ok _ => firstMissing? t rest

/-- The layer that a loader starts with. -/
def Loader.start (l : Loader) : Config :=
  { standard with rulePaths := if l.ruleDir.isEmpty then [] else [l.ruleDir] }

/-- The configuration from all layers. -/
def Loader.load (l : Loader) (s : Loading) (explicit : List Bytes) (overrides : Config) :
    Loading × Except LoadError Config :=
  match firstMissing? s.view explicit with
  | some e => (s, .error e)
  | none =>
    match l.mergeFiles false s l.start l.userFiles with
    | (s, .error e) => (s, .error e)
    | (s, .ok c) =>
      match l.mergeFiles true s c explicit with
      | (s, .error e) => (s, .error e)
      | (s, .ok c) =>
        match l.mergeFiles false s c (l.workFiles s.view) with
        | (s, .error e) => (s, .error e)
        | (s, .ok c) => (s, .ok (c.merge overrides))

end Config

end Linewise
