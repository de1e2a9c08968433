import Linewise.CommandLine.Layer
import Linewise.CommandLine.Process
import Linewise.Engine

/-!
# The command `check`

The configuration is loaded, the words of the command are expanded to paths, and the paths are
walked. Messages go to the console or, when the command line names one, to a report file, which is
emptied before anything else happens.
-/

namespace Linewise.Check

/-- Where the messages of a check go. -/
inductive Sink where
  | console
  | file (id : Nat)
  /-- A device or a pipe that takes them away. -/
  | nowhere
  deriving DecidableEq, Repr

/-- The mode of new reports. -/
def reportMode : Nat := 0o644

/-- Opens the report at a path and empties it; no path stands for the console. -/
def openReport (t : FileTree) (path : Bytes) : Except PathError (FileTree × Sink) :=
  if path.isEmpty then .ok (t, .console)
  else
    match t.openOrCreate [.read, .write] path reportMode with
    | .error e => .error e
    | .ok (t, place) =>
      let t := t.writeAt place []
      match (t.root.get? place).bind Node.identity? with
      | some id => .ok (t, .file id)
      | none => .ok (t, .nowhere)

/-- The choices for the walk. -/
def options (c : Config) (a : Arguments) : Options where
  applyFix := a.isOn Command.applyFixName
  recurse := !a.isOn Command.noRecurseName
  followLinks := c.follows
  includes := c.includes
  excludes := c.excludes
  rulePaths := c.rulePaths
  disabled := c.disabledRules
  settings := c.ruleOptions

/-- The rules of a check. -/
def registry (a : Arguments) : Registry := Registry.standard (a.number Command.tabSpacingName)

/-- How a check ends: with a walk, of which `clean` says whether it found nothing, or before it. -/
inductive Ending where
  | walked (stats : Stats) (clean : Bool)
  | failed (e : Failure)

/-- Loads the configuration, expands the words and walks the paths. -/
def walk (env : Environment) (j : Journal) (a : Arguments) : Journal × Ending :=
  match a.loadConfig env j with
  | (j, .error e) => (j, .failed (.config e))
  | (j, .ok c) =>
    match PathArguments.expand j.view a.words with
    | .error e => (j, .failed (.paths e))
    | .ok paths =>
      match Engine.new j.view (registry a) Writer.replacing (options c a) with
      | (_, .error e) => (j, .failed (.rules e))
      | (_, .ok engine) =>
        let (s, clean) := ({ toJournal := j } : Session).walk engine paths
        (s.toJournal, .walked s.stats clean)

/-- The console of a check. -/
def console (a : Arguments) : Console := ⟨Level.ofVerbosity (a.number Command.verboseName), false⟩

/-- What is written after all messages. -/
def closing (p : Process) (c : Console) : Ending → Bytes
  | .walked s _ => c.summary p.clock ⟨s.targets, s.failed, s.aborted, s.fixed⟩ p.duration
  | .failed _ => []

def failureOf : Ending → Option Failure
  | .walked _ clean => if clean then none else some .violations
  | .failed e => some e

/-- Writes all that a check has to say to where it goes. -/
def deliver (sink : Sink) (t : FileTree) (text : Bytes) (failure : Option Failure) : Answer :=
  match sink with
  | .console => { tree := t, out := text, failure := failure }
  | .file id => { tree := t.writeIdentity id text, failure := failure }
  | .nowhere => { tree := t, failure := failure }

/-- The report on a log, when it goes to a file. -/
def reportTo (p : Process) (c : Console) : Sink → Option Report
  | .file id => some ⟨id, c, p.clock⟩
  | _ => none

/-- The command `check`. -/
def run (p : Process) (a : Arguments) : Answer :=
  match openReport p.tree (a.text Command.outputName) with
  | .error e => { tree := p.tree, failure := some (.noReport e) }
  | .ok (t, sink) =>
    let c := console a
    let (j, ending) := walk p.env { tree := t, report := reportTo p c sink } a
    deliver sink j.tree (c.transcript p.clock j.log ++ closing p c ending) (failureOf ending)

end Linewise.Check
