import Linewise.Rule.Header
import Linewise.Rule.LinePattern
import Linewise.Rule.Whitespace

/-!
# The standard rules

The eight rules that the program brings along, in the order in which they run.
-/

namespace Linewise

/-- The rule `check_filename`: no capital ASCII letters in names of files and directories. -/
def Filename.rule : Rule :=
  { id := utf8 "check_filename"
    description := utf8 "checks against the use of uppercase in file/directory names"
    run := fun _ _ t =>
      if t.name.any Bytes.isUpper then
        ⟨t, [⟨.error, utf8 "name for " ++ t.path ++ utf8 " contains uppercase"⟩], .done false⟩
      else ⟨t, [], .done true⟩ }

/-- The extensions of scripts. -/
def ExecutableBit.extensions : List Bytes := ["pl", "sh", "bat"].map utf8

/-- Whether one of the three execute bits of a mode is set. -/
def ExecutableBit.isSet (mode : Nat) : Bool := mode &&& 0o111 != 0

/-- The rule `check_executablebit`: scripts can be executed. -/
def ExecutableBit.rule : Rule :=
  { id := utf8 "check_executablebit"
    description := utf8 "checks for executable bit set"
    appliesTo := fun t => t.isFile && ExecutableBit.extensions.contains t.extension
    run := fun _ tree t =>
      match tree.stat t.fullPath with
      | .error e => ⟨t, [], .failed false (.noStatus t.path e)⟩
      | .ok n =>
        if ExecutableBit.isSet n.mode then ⟨t, [], .done true⟩
        else ⟨t, [⟨.error, t.path ++ utf8 " - lacks executable bit"⟩], .done false⟩ }

/-- The standard rules; `tabWidth` is the tab width from the command line, zero when not given. -/
def standardRules (tabWidth : Int := 0) : List Rule :=
  [Whitespace.rule tabWidth, Filename.rule, Header.rule, LinePattern.idTag, LinePattern.aceError,
    LinePattern.exitKeyword, LinePattern.namespaceMacro, ExecutableBit.rule]

end Linewise
