import Linewise.Rule.Basic

/-!
# Scanning lines

A scan shows the lines of a file to a visitor, one at a time, leaving out those at which a directive
has switched the rule off. The visitor may read, mark and edit lines and move the cursor.
-/

namespace Linewise

/-- What a visitor asks for after a visit. -/
inductive Visit where
  | next
  | fail (e : RuleError)
  | panic (value : Bytes)
  deriving DecidableEq, Repr

/-- A visitor with memory `σ`: from its memory and the cursor to the new ones. -/
abbrev Visitor (σ : Type) := σ → Cursor → σ × Cursor × Visit

/-- How a scan ends. -/
inductive Scan.Ending where
  | finished
  | failed (e : RuleError)
  | panicked (value : Bytes)
  /-- The visits granted to the scan were used up. -/
  | exhausted
  deriving DecidableEq, Repr

/-- The outcome of a scan. -/
structure Scan (σ : Type) where
  memory : σ
  lines : Array Bytes
  flagged : List Int := []
  ending : Scan.Ending

namespace Scan

/-- Moves on to the next line at which the rule is not off, at most `n` lines down. -/
def seek : Nat → Cursor → Cursor × Option MalformedDirective
  | 0, c => (c, none)
  | n + 1, c =>
    if c.atEnd || !c.suppressed then (c, none)
    else
      match c.advance 1 with
      | (c, some e) => (c, some e)
      | (c, none) => seek n c

/-- The outcome of a scan that ends at a cursor. -/
def stop {σ : Type} (memory : σ) (c : Cursor) (ending : Ending) : Scan σ :=
  ⟨memory, c.lines, c.flagged, ending⟩

/-- Shows the lines from the cursor on to a visitor, with at most `visits` visits. -/
def drive {σ : Type} (visit : Visitor σ) : Nat → σ → Cursor → Scan σ
  | visits, memory, c =>
    match seek (c.lines.size + 1) c with
    | (c, some e) => stop memory c (.failed (.directive e))
    | (c, none) =>
      if c.atEnd then stop memory c .finished
      else
        match visits with
        | 0 => stop memory c .exhausted
        | visits + 1 =>
          match visit memory c with
          | (memory, c, .fail e) => stop memory c (.failed e)
          | (memory, c, .panic value) => stop memory c (.panicked value)
          | (memory, c, .next) =>
            match c.advance 1 with
            | (c, some e) => stop memory c (.failed (.directive e))
            | (c, none) => drive visit visits memory c

/-- Shows lines to a visitor on behalf of a rule. -/
def ofLines {σ : Type} (visit : Visitor σ) (visits : Nat) (memory : σ) (lines : Array Bytes)
    (rule : Bytes) : Scan σ :=
  match Cursor.start lines rule with
  | .error e => ⟨memory, lines, [], .failed (.directive e)⟩
  | .ok c => drive visit visits memory c

end Scan

/-- Scans the lines of a target on behalf of a rule and keeps the edits. A directory has nothing to
scan. When `visits` is not given, there are enough of them for a visitor that never moves up. -/
def Target.scan {σ : Type} (t : Target) (tree : FileTree) (rule : Bytes) (visit : Visitor σ)
    (memory : σ) (visits : Option Nat := none) : Target × Scan σ :=
  if t.isDirectory then (t, ⟨memory, #[], [], .finished⟩)
  else
    match t.load tree with
    | .error e => (t, ⟨memory, #[], [], .failed (.unreadable e)⟩)
    | .ok t =>
      let s := Scan.ofLines visit (visits.getD t.lines.size) memory t.lines rule
      (t.setLines s.lines, s)

/-- The run of a rule that scans a target and reports the lines it marked. -/
def Rule.report {σ : Type} (target : Target) (path message : Bytes) (log : Log) (s : Scan σ) :
    Run :=
  match s.ending with
  | .finished =>
    if s.flagged.isEmpty then ⟨target, log, .done true⟩
    else ⟨target, log ++ [⟨.error, violationText path s.flagged message⟩], .done false⟩
  | .failed e => ⟨target, log, .failed false e⟩
  | .panicked value => ⟨target, log, .panicked value⟩
  -- No visitor of a rule of the program moves up, so that there are always enough visits.
  | .exhausted => ⟨target, log, .failed false (.raised [])⟩

end Linewise
