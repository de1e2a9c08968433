import Linewise.Rule.Scan

/-!
# Blanks at line ends and tabs

The rule `check_whitespace` flags lines whose text before the terminator ends in a blank, a carriage
return included, and lines with tabs. It mends the former by stripping and the latter by replacing
every tab with spaces.
-/

namespace Linewise.Whitespace

def id : Bytes := utf8 "check_whitespace"

def message : Bytes := utf8 "trailing whitespace or incorrect line ending detected"

def tabMessage : Bytes := utf8 "tab(s) detected"

def tab : UInt8 := 9

/-- The blanks that may not end a line: space, tab, form feed, carriage return and vertical tab. -/
def isBlank (b : UInt8) : Bool := b == 32 || b == 9 || b == 12 || b == 13 || b == 11

/-- A line without its terminator, and whether it had one. -/
def splitTerminator (line : Bytes) : Bytes × Bool :=
  if line.getLast? == some Bytes.newline then (line.dropLast, true) else (line, false)

/-- Whether the text of a line before its terminator ends in a blank. -/
def hasTrailing (line : Bytes) : Bool :=
  (splitTerminator line).1.getLast?.any isBlank

/-- The line without the blanks before its terminator. -/
def strip (line : Bytes) : Bytes :=
  let (body, terminated) := splitTerminator line
  Bytes.trimRight isBlank body ++ if terminated then [Bytes.newline] else []

def hasTab (line : Bytes) : Bool := line.contains tab

/-- The line with every tab replaced by `width` spaces. -/
def expandTabs (width : Nat) (line : Bytes) : Bytes :=
  Bytes.replaceByte tab (List.replicate width 32) line

/-- The line as the rule leaves it when it mends. -/
def fixLine (width : Nat) (line : Bytes) : Bytes :=
  expandTabs width (if hasTrailing line then strip line else line)

/-- The numbers of the offending lines and the messages so far. -/
structure Findings where
  trailing : List Nat := []
  tabs : List Nat := []
  log : Log := []
  deriving DecidableEq, Repr

/-- `path:line - text`, the message about one mended line. -/
def mendingText (path : Bytes) (line : Nat) (text : String) : Bytes :=
  path ++ utf8 ":" ++ Bytes.ofNat line ++ utf8 " - " ++ utf8 text

/-- Notes what is wrong with a line. -/
def checkVisitor : Visitor Findings := fun found c =>
  let line := c.line
  let found := if hasTrailing line
    then { found with trailing := found.trailing ++ [c.lineNumber] } else found
  let found := if hasTab line
    then { found with tabs := found.tabs ++ [c.lineNumber] } else found
  (found, c, .next)

/-- Mends a line. -/
def fixVisitor (path : Bytes) (width : Nat) : Visitor Findings := fun found c =>
  let line := c.line
  let (found, c, line) :=
    if hasTrailing line then
      let text := mendingText path c.lineNumber "stripping trailing whitespace"
      ({ found with log := found.log ++ [⟨.debug, text⟩] }, (c.setLine (strip line)).1, strip line)
    else (found, c, line)
  if hasTab line then
    let text := mendingText path c.lineNumber "replacing tabs"
    ({ found with log := found.log ++ [⟨.warn, text⟩] }, (c.setLine (expandTabs width line)).1,
      .next)
  else (found, c, .next)

/-- The width of a tab when nothing else is said. -/
def defaultWidth : Int := 2

/-- The width of a tab: the command line before the settings before the default. -/
def tabWidth (flag : Int) (settings : Settings) : Int :=
  if flag > 0 then flag
  else
    let n := settings.int (utf8 "tab_spacing") defaultWidth
    if n > 0 then n else defaultWidth

/-- The report of one kind of offence, when there is any. -/
def offence (path : Bytes) (lines : List Nat) (text : Bytes) : Log :=
  if lines.isEmpty then [] else [⟨.error, violationText path (lines.map Int.ofNat) text⟩]

/-- The visitor of a run; `flag` is the tab width from the command line, zero when not given. -/
def visitor (flag : Int) (ctx : Context) (path : Bytes) : Visitor Findings :=
  if ctx.applyFix then fixVisitor path (tabWidth flag ctx.settings).toNat else checkVisitor

/-- The run that a scan of a target comes to. -/
def conclude (t : Target) (s : Scan Findings) : Run :=
  match s.ending with
  | .finished =>
    let found := s.memory
    ⟨t, found.log ++ offence t.path found.trailing message ++ offence t.path found.tabs tabMessage,
      .done (found.trailing.isEmpty && found.tabs.isEmpty)⟩
  | .failed e => ⟨t, s.memory.log, .failed false e⟩
  | .panicked value => ⟨t, s.memory.log, .panicked value⟩
  -- The visitors of the rule only move down, so that there are always enough visits.
  | .exhausted => ⟨t, s.memory.log, .failed false (.raised [])⟩

/-- The length of the longest text that can be made, two to the power of 48. -/
def maxText : Nat := 0x1000000000000

/-- What the rule breaks down with when the text for a tab is too long to be made. -/
def oversized : Bytes := utf8 "runtime error: makeslice: len out of range"

/-- The run of the rule. The text for a tab is made first, whether or not it is needed. -/
def run (flag : Int) (ctx : Context) (tree : FileTree) (t : Target) : Run :=
  if tabWidth flag ctx.settings > maxText then ⟨t, [], .panicked oversized⟩
  else
    let (t, s) := t.scan tree id (visitor flag ctx t.path) {}
    conclude t s

/-- The rule `check_whitespace`. -/
def rule (flag : Int := 0) : Rule :=
  { id := id
    description := utf8 "checks for trailing whitespace, incorrect line endings and tabs"
    message := message
    appliesTo := Target.isFile
    run := run flag }

end Linewise.Whitespace
