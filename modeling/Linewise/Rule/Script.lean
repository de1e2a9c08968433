import Linewise.Cursor.Operation
import Linewise.Rule.Scan

/-!
# Scripted rules

A scripted rule is given by data: clauses that say what to do with the cursor on lines that contain
a word. Scripts make it possible to try out any use of a cursor without writing a rule by hand.
-/

namespace Linewise

/-- One step of a script. -/
inductive Script.Step where
  | operation (op : Cursor.Operation)
  | fail (text : Bytes)
  | panic (value : Bytes)
  deriving DecidableEq, Repr

/-- What to do on lines that contain `word`. -/
structure Script.Clause where
  word : Bytes
  steps : List Script.Step
  deriving DecidableEq, Repr

/-- A list of clauses. -/
abbrev Script := List Script.Clause

namespace Script

/-- Performs steps up to the first that fails. -/
def performSteps : List Step → Cursor → Cursor × Visit
  | [], c => (c, .next)
  | .operation op :: rest, c =>
    match c.perform op with
    | (c, .moved _ (some e)) => (c, .fail (.directive e))
    | (c, _) => performSteps rest c
  | .fail text :: _, c => (c, .fail (.raised text))
  | .panic value :: _, c => (c, .panic value)

/-- Performs the clauses whose word is in `line`, up to the first that fails. -/
def performClauses (line : Bytes) : Script → Cursor → Cursor × Visit
  | [], c => (c, .next)
  | clause :: rest, c =>
    if Bytes.occursIn clause.word line then
      match performSteps clause.steps c with
      | (c, .next) => performClauses line rest c
      | failed => failed
    else performClauses line rest c

/-- The visitor of a script remembers the numbers of the lines it has seen. It fails at the visit
with the number `limit`, with a text that says so. -/
def visitor (s : Script) (limit : Nat) (text : Bytes) : Visitor (List Nat) := fun seen c =>
  let seen := seen ++ [c.lineNumber]
  if seen.length ≥ limit then (seen, c, .fail (.raised text))
  else
    let (c, visit) := performClauses c.line s c
    (seen, c, visit)

/-- Scans a target with a script. -/
def scan (s : Script) (limit : Nat) (text : Bytes) (t : Target) (tree : FileTree) (rule : Bytes) :
    Target × Scan (List Nat) :=
  t.scan tree rule (s.visitor limit text) [] (some limit)

/-- What a scripted rule does. -/
inductive Action where
  | pass
  | fail
  | raise (clean : Bool) (text : Bytes)
  | panic (value : Bytes)
  /-- Appends a line. -/
  | append (line : Bytes)
  /-- Scans the lines with a script and fails with `text` at the visit with the number `limit`. -/
  | scan (script : Script) (limit : Nat) (text : Bytes)
  /-- Writes a message at three levels, at the first one the setting `msg` if there is one. -/
  | log (text : Bytes)
  deriving DecidableEq, Repr

/-- Which targets a scripted rule wants to see. -/
inductive Scope where
  | files
  | directories
  | everything
  deriving DecidableEq, Repr

def Scope.holds : Scope → Target → Bool
  | files, t => t.isFile
  | directories, t => t.isDirectory
  | everything, _ => true

/-- The run of a scripted rule. -/
def Action.run (id message : Bytes) (ctx : Context) (tree : FileTree) (t : Target) : Action → Run
  | pass => ⟨t, [], .done true⟩
  | fail => ⟨t, [], .done false⟩
  | raise clean text => ⟨t, [], .failed clean (.raised text)⟩
  | panic value => ⟨t, [], .panicked value⟩
  | append line =>
    match t.load tree with
    | .error e => ⟨t, [], .failed false (.unreadable e)⟩
    | .ok t => ⟨t.setLines (t.shownLines.push line), [], .done true⟩
  | scan script limit text =>
    let (t, s) := script.scan limit text t tree id
    Rule.report t t.path message [] s
  | log text =>
    ⟨t, [⟨.error, utf8 "E:" ++ ctx.settings.text (utf8 "msg") text⟩, ⟨.warn, utf8 "W:" ++ text⟩,
      ⟨.debug, utf8 "D:" ++ text⟩], .done true⟩

/-- A scripted rule. -/
def rule (id description message : Bytes) (scope : Scope) (action : Action) : Rule :=
  { id := id
    description := description
    message := message
    appliesTo := scope.holds
    run := fun ctx tree t => action.run id message ctx tree t }

end Script

end Linewise
