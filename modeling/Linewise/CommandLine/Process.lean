import Linewise.CommandLine.Command
import Linewise.Config.Layers
import Linewise.PathArguments

/-!
# Processes

What a command starts from and what it leaves behind.
-/

namespace Linewise

/-- The circumstances in which a command runs. -/
structure Process where
  tree : FileTree
  env : Environment
  /-- The time of day that messages carry. -/
  clock : Bytes
  /-- How long a check takes, in words. -/
  duration : Bytes
  /-- Whether lists are shown in color. -/
  color : Bool := false

/-- Why a command failed. -/
inductive Failure where
  | arguments (e : FlagError)
  | unknownCommand (e : Command.Unknown)
  /-- A word for a command that takes none. -/
  | unexpected (word : Bytes) (command : Command)
  | tooMany (limit received : Nat)
  /-- The report cannot be opened. -/
  | noReport (e : PathError)
  | config (e : Config.LoadError)
  | paths (e : PathArguments.Error)
  | rules (e : FilterError)
  | save (e : Config.SaveError)
  /-- Violations were found, and have been reported. -/
  | violations

def Failure.message : Failure → Bytes
  | arguments e => e.message
  | unknownCommand e => e.message
  | unexpected word command =>
    utf8 "unknown command " ++ Quoted.double word ++ utf8 " for " ++ Quoted.double command.path
  | tooMany limit received =>
    utf8 "accepts at most " ++ Bytes.ofNat limit ++ utf8 " arg(s), received " ++
      Bytes.ofNat received
  | noReport e => utf8 "open output file: " ++ e.message
  | config e => utf8 "failed to load config: " ++ e.message
  | paths e => e.message
  | rules e => utf8 "failed to set up rules: " ++ e.message
  | save e => e.message
  | violations => utf8 "check failed"

/-- Whether a failure still has to be told to the user. -/
def Failure.isUntold : Failure → Bool
  | violations => false
  | _ => true

/-- What a command leaves behind. -/
structure Answer where
  tree : FileTree
  out : Bytes := []
  /-- What goes to the output for errors unless all output is collected. -/
  notice : Bytes := []
  failure : Option Failure := none

namespace Answer

/-- What a process writes to the output for errors. -/
def errors (a : Answer) : Bytes :=
  a.notice ++
    match a.failure with
    | some f => if f.isUntold then utf8 "Error: " ++ f.message ++ utf8 "\n" else []
    | none => []

/-- The exit code of a process. -/
def exitCode (a : Answer) : Nat := if a.failure.isSome then 1 else 0

end Answer

end Linewise
