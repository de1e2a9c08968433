import Linewise.Cursor.Basic

/-!
# Cursor operations

The operations of a cursor as data, so that a history of a cursor is a list of them.
-/

namespace Linewise.Cursor

/-- A request to a cursor. -/
inductive Operation where
  | advance (distance : Int)
  | peek (offset : Int64)
  | setText (offset : Int64) (text : Bytes)
  | setLine (text : Bytes)
  | skipToEnd
  | mark
  | markLine (number : Int)
  | length
  | ruleId
  deriving DecidableEq, Repr

/-- What a cursor answers. -/
inductive Reply where
  | none
  | moved (lineNumber : Nat) (error : Option MalformedDirective)
  | text (line : Option Bytes)
  | changed (ok : Bool)
  | length (lines : Nat)
  | ruleId (id : Bytes)
  deriving DecidableEq, Repr

/-- The cursor after an operation, and its answer. -/
def perform (c : Cursor) : Operation → Cursor × Reply
  | .advance d =>
    let (c, e) := c.advance d
    (c, .moved c.lineNumber e)
  | .peek offset => (c, .text (c.peek offset))
  | .setText offset text =>
    let (c, ok) := c.setText offset text
    (c, .changed ok)
  | .setLine text =>
    let (c, ok) := c.setLine text
    (c, .changed ok)
  | .skipToEnd => (c.skipToEnd, .none)
  | .mark => (c.mark, .none)
  | .markLine n => (c.markLine n, .none)
  | .length => (c, .length c.lines.size)
  | .ruleId => (c, .ruleId c.rule)

/-- The cursor after a list of operations. -/
def performAll (c : Cursor) (ops : List Operation) : Cursor :=
  ops.foldl (fun c op => (c.perform op).1) c

end Linewise.Cursor
