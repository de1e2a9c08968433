import Linewise.Bytes

/-!
# Log messages

What the program tells its user, message by message, before it is laid out for the console.
-/

namespace Linewise

/-- How important a message is, from the least important up. -/
inductive Level where
  | trace
  | debug
  | info
  | warn
  | error
  deriving DecidableEq, Repr

/-- A message of the program. -/
structure Message where
  level : Level
  text : Bytes
  deriving DecidableEq, Repr

/-- The messages of a run, oldest first. -/
abbrev Log := List Message

/-- The report of flagged lines: `path:[1,2] message`. -/
def violationText (path : Bytes) (lines : List Int) (message : Bytes) : Bytes :=
  path ++ utf8 ":[" ++ Bytes.joinWith (utf8 ",") (lines.map Bytes.ofInt) ++ utf8 "] " ++ message

end Linewise
