import Linewise.Rule.Scan

/-!
# File headers

The rule `check_fileheader` wants a comment of at least six lines at the top of a file, with the
name of the file on its second line. The comment opens on the first or second line; one in the style
of C runs to the first `*/`, one made of `#` lines to the first line without that sign.
-/

namespace Linewise.Header

def id : Bytes := utf8 "check_fileheader"

def message : Bytes :=
  utf8 "incorrect or no fileheader detected. Fileheaders should start on the first or second line, "
    ++ utf8 "should have a size of 6 lines and the file name should be on the second line of the header."

/-- The least number of lines of a header. -/
def leastLines : Nat := 6

def hash : UInt8 := 35

def closer : Bytes := utf8 "*/"

def startsWithHash (line : Bytes) : Bool := line.head? == some hash

/-- Whether a line starts like a comment. -/
def opens (line : Bytes) : Bool := (utf8 "/*").isPrefixOf line || startsWithHash line

/-- Whether a line names an interpreter. -/
def isInterpreterLine (line : Bytes) : Bool := (utf8 "#!").isPrefixOf line

/-- The line on which the header opens, zero as long as it has not, and whether a line that could
open it started with `#`. -/
structure Progress where
  start : Nat := 0
  script : Bool := false
  deriving DecidableEq, Repr

/-- Follows the header line by line; `name` is the name of the file. -/
def visitor (name : Bytes) : Visitor Progress := fun p c =>
  let line := c.line
  let n := c.lineNumber
  if n == 1 then
    (⟨if opens line && !isInterpreterLine line then 1 else p.start, startsWithHash line⟩, c, .next)
  else if n == 2 && p.start == 0 then
    if opens line then (⟨2, p.script || startsWithHash line⟩, c, .next)
    else (p, (c.markLine 1).skipToEnd, .next)
  else if n == 2 then
    let c := if Bytes.occursIn closer line then c.mark else c
    let c := if Bytes.occursIn name line then c else c.mark
    (p, c, .next)
  else if p.start > 0 then
    let c := if n == 3 && p.start == 2 && !Bytes.occursIn name line then c.mark else c
    if Bytes.occursIn closer line || (p.script && !line.contains hash) then
      let c := if 1 + n - p.start < leastLines then c.mark else c
      (p, c.skipToEnd, .next)
    else (p, c, .next)
  else (p, c, .next)

def run (_ : Context) (tree : FileTree) (t : Target) : Run :=
  let (t, s) := t.scan tree id (visitor t.name) {}
  Rule.report t t.path message [] s

/-- The rule `check_fileheader`. -/
def rule : Rule :=
  { id := id
    description := utf8 "checks whether a file contains a correct file header"
    message := message
    appliesTo := Target.isFile
    run := run }

end Linewise.Header
