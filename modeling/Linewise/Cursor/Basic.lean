import Linewise.Directive

/-!
# Cursors

A cursor moves over the lines of a file on behalf of one rule. At every line it lands on it knows
whether a directive has switched the rule off. Edits through the cursor change the lines; the states
known for the lines before an edit stay valid and are kept.
-/

namespace Linewise

/-- A position in the lines of a file. -/
structure Cursor where
  lines : Array Bytes
  rule : Bytes
  /-- The number of lines before the current one. -/
  index : Nat := 0
  /-- Whether the rule was off when the cursor last landed on a line. -/
  suppressed : Bool := false
  /-- The line numbers marked so far, ascending. -/
  flagged : List Int := []
  /-- For the lines from the first on, as far as known, whether the rule is off there. -/
  states : Array Bool := #[]
  deriving DecidableEq, Repr

namespace Cursor

/-- The number of the current line, counted from one. -/
def lineNumber (c : Cursor) : Nat := c.index + 1

/-- Whether the cursor stands behind the last line. -/
def atEnd (c : Cursor) : Bool := c.index ≥ c.lines.size

/-- Whether the cursor stands on the first line. -/
def atStart (c : Cursor) : Bool := c.index == 0

/-- The index at a distance from the cursor in 64-bit arithmetic, when it is one of a line. -/
def target? (c : Cursor) (offset : Int64) : Option Nat :=
  let i := (Int64.ofNat c.index + offset).toInt
  if i < 0 || i ≥ c.lines.size then none else some i.toNat

/-- The line at a distance from the cursor. -/
def peek (c : Cursor) (offset : Int64) : Option Bytes :=
  match c.target? offset with
  | some i => c.lines[i]?
  | none => none

/-- The current line, empty at the end. -/
def line (c : Cursor) : Bytes := (c.peek 0).getD []

/-- Replaces the line at a distance from the cursor and says whether there is one. -/
def setText (c : Cursor) (offset : Int64) (text : Bytes) : Cursor × Bool :=
  match c.target? offset with
  | some i => ({ c with lines := c.lines.setIfInBounds i text, states := c.states.take i }, true)
  | none => (c, false)

/-- Replaces the current line. -/
def setLine (c : Cursor) (text : Bytes) : Cursor × Bool := c.setText 0 text

/-- Whether the rule is off at the last line whose state is known. -/
def lastState (c : Cursor) : Bool := c.states.back?.getD false

/-- Learns the states of the next `n` lines, up to the first malformed directive. -/
def learn : Nat → Cursor → Cursor × Option MalformedDirective
  | 0, c => (c, none)
  | n + 1, c =>
    match c.lines[c.states.size]? with
    | none => (c, none)
    | some line =>
      match Directive.applyLine c.rule c.lastState line (c.states.size + 1 : Nat) with
      | .ok off => learn n { c with states := c.states.push off }
      | .error e => (c, some e)

/-- Finds out whether the rule is off at the current line. -/
def land (c : Cursor) : Cursor × Option MalformedDirective :=
  if c.atEnd then (c, none)
  else
    match learn (c.index + 1 - c.states.size) c with
    | (c, some e) => (c, some e)
    | (c, none) => ({ c with suppressed := c.states[c.index]?.getD c.suppressed }, none)

/-- A cursor on the first line. -/
def start (lines : Array Bytes) (rule : Bytes) : Except MalformedDirective Cursor :=
  match land { lines := lines, rule := rule } with
  | (c, none) => .ok c
  | (_, some e) => .error e

/-- Moves down line by line, up to the end or to a malformed directive. -/
def forward : Nat → Cursor → Cursor × Option MalformedDirective
  | 0, c => (c, none)
  | n + 1, c =>
    if c.atEnd then (c, none)
    else
      let c := { c with index := c.index + 1 }
      if c.atEnd then (c, none)
      else
        match c.land with
        | (c, some e) => (c, some e)
        | (c, none) => forward n c

/-- Moves up line by line, up to the first line or to a malformed directive. -/
def backward : Nat → Cursor → Cursor × Option MalformedDirective
  | 0, c => (c, none)
  | n + 1, c =>
    if c.atStart then (c, none)
    else
      match land { c with index := c.index - 1 } with
      | (c, some e) => (c, some e)
      | (c, none) => backward n c

/-- Moves by a number of lines, down when it is positive. -/
def advance (c : Cursor) : Int → Cursor × Option MalformedDirective
  | .ofNat n => forward n c
  | .negSucc n => backward (n + 1) c

/-- Moves behind the last line. -/
def skipToEnd (c : Cursor) : Cursor := { c with index := c.lines.size }

/-- The number of those at the start of an ascending list that are smaller than `n`, when it lies
between `low` and `high`: the stretch is halved until it is empty. The fuel is its length. -/
def searchFrom (n : Int) (numbers : List Int) : Nat → Nat → Nat → Nat
  | 0, low, _ => low
  | fuel + 1, low, high =>
    if low < high then
      let middle := (low + high) / 2
      if numbers[middle]?.getD n < n then searchFrom n numbers fuel (middle + 1) high
      else searchFrom n numbers fuel low middle
    else low

/-- The place of a number in an ascending list, or the place where it is missing. -/
def searchNumber (n : Int) (numbers : List Int) : Nat :=
  searchFrom n numbers numbers.length 0 numbers.length

/-- Inserts a number into an ascending list unless it is there. -/
def insertNumber (n : Int) (numbers : List Int) : List Int :=
  let place := searchNumber n numbers
  if numbers[place]? == some n then numbers else numbers.take place ++ n :: numbers.drop place

/-- Marks a line number. -/
def markLine (c : Cursor) (n : Int) : Cursor := { c with flagged := insertNumber n c.flagged }

/-- Marks the current line. -/
def mark (c : Cursor) : Cursor := c.markLine c.lineNumber

end Cursor

end Linewise
