import Linewise.Journal
import Linewise.PathFilter
import Linewise.Registry
import Linewise.Replacement

/-!
# The engine

The engine shows targets to the rules that apply to them, counts what comes of it and writes mended
files back. `Session.handle` deals with one target, `Session.walk` with paths and everything below
them.
-/

namespace Linewise

/-- What comes of handling a target. -/
inductive Outcome where
  /-- No rule found a violation, and mended lines were written. -/
  | passed
  /-- A rule found a violation, or mended lines could not be written. -/
  | failed
  /-- A rule gave up or broke down. -/
  | aborted
  deriving DecidableEq, Repr

def Outcome.text : Outcome → Bytes
  | passed => utf8 "passed"
  | failed => utf8 "failed"
  | aborted => utf8 "aborted"

/-- The counters of a session. -/
structure Stats where
  targets : Nat := 0
  failed : Nat := 0
  aborted : Nat := 0
  fixed : Nat := 0
  deriving DecidableEq, Repr

/-- The choices for a run. -/
structure Options where
  applyFix : Bool := false
  recurse : Bool := false
  followLinks : Bool := false
  includes : List Bytes := []
  excludes : List Bytes := []
  /-- The directories with excludes files of rules. -/
  rulePaths : List Bytes := []
  /-- The ids of rules that do not run. -/
  disabled : List Bytes := []
  /-- The settings of rules, by id. -/
  settings : List (Bytes × Settings) := []

/-- A way to write a file back: from the number of files written before, the tree, the path and the
new content to the tree afterwards and the reason for a failure. -/
abbrev Writer := Nat → FileTree → Bytes → Bytes → FileTree × Option Bytes

/-- Writes nothing and reports success. -/
def Writer.pretend : Writer := fun _ t _ _ => (t, none)

/-- Writes nothing and reports a failure. -/
def Writer.failing : Writer := fun _ t _ _ => (t, some StepError.injected.message)

/-- Replaces the file. -/
def Writer.replacing : Writer := fun _ t path data =>
  let (c, e) := Replacement.run t {} path data
  (c.tree, e.map Replacement.Error.message)

/-- Rules with their filters, ready to run. -/
structure Engine where
  rules : List Rule
  options : Options
  writer : Writer
  /-- The filters of the rules, by id. -/
  filters : List (Bytes × PathFilter)
  /-- The exclude patterns that hold for all rules. -/
  excludes : PathFilter
  /-- Directories that cannot be listed although they can be opened. -/
  unlistable : Bytes → Bool := fun _ => false

namespace Engine

/-- The filters of rules, up to the first that cannot be built. -/
def buildFilters (tree : FileTree) (o : Options) :
    List Rule → Except FilterError (List (Bytes × PathFilter))
  | [] => .ok []
  | r :: rest =>
    match PathFilter.ofRule tree r.id o.rulePaths o.includes o.excludes with
    | .error e => .error e
    | .ok f =>
      match buildFilters tree o rest with
      | .error e => .error e
      | .ok fs => .ok ((r.id, f) :: fs)

/-- Makes an engine for the rules of a registry. The registry is closed as soon as the exclude
patterns for all rules have been read. -/
def new (tree : FileTree) (registry : Registry) (writer : Writer) (o : Options) :
    Registry × Except FilterError Engine :=
  match PathFilter.new [] o.excludes with
  | .error e => (registry, .error e)
  | .ok excludes =>
    let registry := registry.close
    match buildFilters tree o registry.rules with
    | .error e => (registry, .error e)
    | .ok filters =>
      (registry, .ok
        { rules := registry.rules
          options := o
          writer := writer
          filters := filters
          excludes := excludes })

/-- Whether a rule is to run on a target. -/
def selects (e : Engine) (t : Target) (r : Rule) : Bool :=
  !e.options.disabled.contains r.id
    && !((e.filters.lookup r.id).any (·.rejects t))
    && r.appliesTo t

/-- The rules that are to run on a target, in order. -/
def select (e : Engine) (t : Target) : List Rule := e.rules.filter (e.selects t)

/-- The circumstances in which a rule runs. -/
def contextOf (e : Engine) (r : Rule) : Context :=
  ⟨e.options.applyFix, (e.options.settings.lookup r.id).getD []⟩

end Engine

/-- The state of a run. -/
structure Session extends Journal where
  stats : Stats := {}
  /-- The targets handled, oldest first. -/
  handled : List Target := []
  /-- The paths and contents given to the writer, oldest first. -/
  writes : List (Bytes × Bytes) := []
  /-- What the writer answered each time: the reason for a failure, if it failed. -/
  answers : List (Option Bytes) := []
  /-- The pipes that were opened, oldest first, each of which took until another process opened its
  other end. -/
  waits : List Bytes := []
  /-- Whether the walk was cut off for want of fuel. -/
  cutOff : Bool := false

namespace Session

/-- Adds a message. -/
def say (s : Session) (level : Level) (text : Bytes) : Session :=
  { s with log := s.log ++ [⟨level, text⟩] }

def countFailed (s : Session) : Session :=
  { s with stats := { s.stats with failed := s.stats.failed + 1 } }

def countAborted (s : Session) : Session :=
  { s with stats := { s.stats with aborted := s.stats.aborted + 1 } }

def countFixed (s : Session) : Session :=
  { s with stats := { s.stats with fixed := s.stats.fixed + 1 } }

/-- Begins to handle a target. -/
def begin (s : Session) (t : Target) : Session :=
  let s := s.say .debug (utf8 "Handling " ++ t.label)
  { s with
    stats := { s.stats with targets := s.stats.targets + 1 }
    handled := s.handled ++ [t] }

/-- The text of what made a rule give up, when it did. -/
def breakdown? : Verdict → Option Bytes
  | .done _ => none
  | .failed _ e => some e.message
  | .panicked value => some (utf8 "rule panicked: " ++ value)

/-- Whether a rule ended without a violation. -/
def isClean : Verdict → Bool
  | .done clean => clean
  | _ => false

/-- Runs rules on a target one after the other, up to the first that gives up. `outcome` is what the
rules before came to. -/
def runRules (e : Engine) :
    List Rule → Session → Target → Outcome → Session × Target × Outcome
  | [], s, t, outcome => (s, t, outcome)
  | r :: rest, s, t, outcome =>
    let s := s.say .trace (utf8 "+ Running rule " ++ r.id)
    let run := r.run (e.contextOf r) s.view t
    let s := { s with log := s.log ++ run.log }
    match breakdown? run.verdict with
    | some text =>
      let s := s.say .error (utf8 "EXCEPTION running rule " ++ r.id ++ utf8 " on " ++ t.label ++
        utf8 " - " ++ text)
      (s.countAborted, run.target, .aborted)
    | none =>
      if isClean run.verdict then runRules e rest s run.target outcome
      else
        runRules e rest (s.say .debug (utf8 "+ Violations reported by rule " ++ r.id)) run.target
          .failed

/-- Writes the lines of a target back. -/
def writeBack (e : Engine) (s : Session) (t : Target) (outcome : Outcome) : Session × Outcome :=
  let (tree, failure) := e.writer s.writes.length s.view t.fullPath t.text
  let s := { s with
    tree := tree
    writes := s.writes ++ [(t.fullPath, t.text)]
    answers := s.answers ++ [failure] }
  match failure with
  | some text =>
    (s.say .error (utf8 "failed to write fixes to " ++ t.path ++ utf8 ": " ++ text), .failed)
  | none => ((s.say .info (utf8 "Fixed " ++ t.path)).countFixed, outcome)

/-- Ends the handling of a target that no rule gave up on. -/
def conclude (e : Engine) (s : Session) (t : Target) (outcome : Outcome) : Session × Outcome :=
  let (s, outcome) :=
    if e.options.applyFix && t.changed then s.writeBack e t outcome else (s, outcome)
  (if outcome == .failed then s.countFailed else s, outcome)

/-- Runs the rules that apply to a target and writes mended lines back. When a rule gives up, the
rest does not run and nothing is written. -/
def handle (e : Engine) (s : Session) (t : Target) : Session × Target × Outcome :=
  let (s, t, outcome) := runRules e (e.select t) (s.begin t) t .passed
  if outcome == .aborted then (s, t, .aborted)
  else
    let (s, outcome) := s.conclude e t outcome
    (s, t, outcome)

/-- Reports a path that cannot be read. -/
def unreadable (s : Session) (path : Bytes) : Session × Bool :=
  ((s.say .warn (utf8 "cannot read " ++ path)).countFailed, false)

/-- The entries of a directory that are not hidden, as paths in byte order. -/
def children (e : Engine) (s : Session) (dir : Bytes) : Option (List Bytes) :=
  if e.unlistable dir then none
  else
    match s.view.readDirectory dir with
    | .error _ => none
    | .ok names =>
      some ((names.filter (!Path.startsWithDot ·)).map fun name => Path.join [dir, name])

/-- Visits paths one after the other and says whether all passed. -/
def visitAll (visit : Session → Bytes → Session × Bool) (s : Session) (paths : List Bytes) :
    Session × Bool :=
  paths.foldl (fun (s, ok) path =>
    let (s, passed) := visit s path
    (s, ok && passed)) (s, true)

/-- Handles a file or a link to one. -/
def visitFile (e : Engine) (s : Session) (path : Bytes) : Session × Bool :=
  let (s, _, outcome) := s.handle e (Target.new s.tree.cwd path .file)
  (s, outcome == .passed)

/-- Handles a directory and, when that is wanted, what is in it. -/
def visitDirectory (e : Engine) (visit : Session → Bytes → Session × Bool) (s : Session)
    (path : Bytes) : Session × Bool :=
  let t := Target.new s.tree.cwd path .directory
  let (s, _, outcome) := s.handle e t
  let ok := outcome == .passed
  if !e.options.recurse || e.excludes.matchesExclude t.fullPath then (s, ok)
  else
    let s := s.say .debug (utf8 "Iterating " ++ path)
    match s.children e path with
    | none =>
      let s := s.say .warn (utf8 "cannot read " ++ path)
      (if ok then s.countFailed else s, false)
    | some paths =>
      let (s, passed) := visitAll visit s paths
      (s, ok && passed)

/-- Goes on after a path with something that is neither a file nor a directory was opened. -/
def passBy (s : Session) (path : Bytes) (kind : Special) : Session × Bool :=
  (if kind == .pipe then { s with waits := s.waits ++ [path] } else s, true)

/-- Handles what a path leads to, after opening it: links only when that is wanted, and devices and
pipes never. What is below a directory is left to `visit`. -/
def visitWith (e : Engine) (visit : Session → Bytes → Session × Bool) (s : Session)
    (path : Bytes) : Session × Bool :=
  match s.view.lstat path with
  | .error _ => s.unreadable path
  | .ok n =>
    if n.isLink && !e.options.followLinks then
      ((s.say .warn (utf8 "cannot follow symlink " ++ path)).countFailed, false)
    else
      match s.view.openNode path with
      | .error _ => s.unreadable path
      | .ok (.directory _ _) => s.visitDirectory e visit path
      | .ok (.file _ _ _) => s.visitFile e path
      | .ok (.special _ kind _) => s.passBy path kind
      | .ok (.link _) => (s, true)

/-- Visits a path and everything below it. The fuel bounds the depth of the walk. -/
def visit (e : Engine) : Nat → Session → Bytes → Session × Bool
  | 0, s, _ => ({ s with cutOff := true }, true)
  | fuel + 1, s, path => s.visitWith e (visit e fuel) path

/-- A bound on the depth of a walk: between two links, and there are at most `maxLinks` of them on a
path, a path goes down in the tree. -/
def walkBound (t : FileTree) : Nat := (FileTree.maxLinks + 1) * (t.root.depth + 1) + 2

/-- Visits paths and everything below them and says whether all passed. -/
def walk (e : Engine) (s : Session) (paths : List Bytes) : Session × Bool :=
  visitAll (visit e (walkBound s.tree)) s paths

end Session

end Linewise
