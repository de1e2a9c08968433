import Linewise.Log
import Linewise.Target
import Linewise.Value

/-!
# Rules

A rule inspects one target at a time. It answers whether the target is free of violations, tells
what it found in messages and, when asked to, mends the lines of the target.
-/

namespace Linewise

/-- Why a rule could not finish. -/
inductive RuleError where
  | directive (e : MalformedDirective)
  | unreadable (e : Target.ReadError)
  | noStatus (path : Bytes) (e : PathError)
  /-- An error that the rule itself raises. -/
  | raised (text : Bytes)
  deriving DecidableEq, Repr

def RuleError.message : RuleError → Bytes
  | directive e => e.message
  | unreadable e => e.message
  | noStatus path e => utf8 "failed to stat " ++ path ++ utf8 ": " ++ e.message
  | raised text => text

/-- How the run of a rule ends. -/
inductive Verdict where
  /-- The rule is done; `clean` when no violation remains. -/
  | done (clean : Bool)
  /-- The rule gives up. What it says about violations counts for nothing. -/
  | failed (clean : Bool) (e : RuleError)
  /-- The rule breaks down, with the value it breaks down with. -/
  | panicked (value : Bytes)
  deriving DecidableEq, Repr

/-- What a run of a rule leaves behind. -/
structure Run where
  target : Target
  log : Log := []
  verdict : Verdict
  deriving DecidableEq, Repr

/-- The circumstances of a run. -/
structure Context where
  applyFix : Bool := false
  settings : Settings := []

/-- A checker of targets. -/
structure Rule where
  id : Bytes
  description : Bytes := []
  /-- What is reported next to flagged lines. -/
  message : Bytes := []
  /-- Whether the rule wants to see a target. -/
  appliesTo : Target → Bool := fun _ => true
  run : Context → FileTree → Target → Run

end Linewise
