import Linewise.Yaml.Token

/-!
# Scalars

Reading the five styles of scalars. Plain and quoted scalars fold their line breaks: a single break
counts as a space, and of several breaks the first one is dropped. Block scalars keep or fold the
lines below their header.
-/

namespace Linewise.Yaml

/-- A stretch of blanks and line breaks inside a plain or quoted scalar. -/
structure Gap where
  /-- The blanks before the first line break. -/
  blanks : List Char := []
  /-- The first line break. -/
  first : List Char := []
  /-- The line breaks after it. -/
  more : List Char := []
  /-- Whether a line ended in the stretch. -/
  broken : Bool := false

namespace Gap

/-- What a stretch of blanks and line breaks counts as. -/
def text (g : Gap) : List Char :=
  if !g.broken then g.blanks
  else if g.first.head? == some '\n' then (if g.more.isEmpty then [' '] else g.more)
  else g.first ++ g.more

/-- Reads blanks and line breaks up to the next character. In a plain scalar no tab may stand
before the column `indent` of a line. The fuel is the number of characters ahead. -/
def read (indent : Nat) : Nat → Gap → Source → Except Problem (Gap × Source)
  | 0, g, s => .ok (g, s)
  | fuel + 1, g, s =>
    match s.rest with
    | [] => .ok (g, s)
    | c :: _ =>
      if isBlank c then
        if g.broken && s.column < indent && c == '\t' then .error .tabIndentation
        else if g.broken then read indent fuel g s.skip
        else read indent fuel { g with blanks := g.blanks ++ [c] } s.skip
      else if isBreak c then
        let (b, s) := s.readBreak
        if g.broken then read indent fuel { g with more := g.more ++ b } s
        else read indent fuel { g with first := b, broken := true } s
      else .ok (g, s)

end Gap

/-- A scalar that was read: its characters, the position after it, and whether the blanks after it
that were read too end a line. -/
structure ScalarText where
  chars : List Char
  after : Source
  lineEnded : Bool := false

namespace ScalarText

/-- The characters that end a plain scalar between brackets. -/
def endsInFlow (c : Char) : Bool :=
  c == ',' || c == '?' || c == '[' || c == ']' || c == '\x7b' || c == '\x7d'

/-- Reads a plain scalar. `done` holds the characters read so far, latest first, `gap` the blanks
after them, and `fresh` says that a gap was just read. -/
def plainFrom (inFlow : Bool) (indent : Nat) :
    Nat → Source → List Char → Gap → Bool → Except Problem ScalarText
  | 0, s, done, gap, _ => .ok ⟨done.reverse, s, gap.broken⟩
  | fuel + 1, s, done, gap, fresh =>
    if fresh && (s.atDocumentMark || s.sees '#') then .ok ⟨done.reverse, s, gap.broken⟩
    else
      match s.rest with
      | [] => .ok ⟨done.reverse, s, gap.broken⟩
      | c :: _ =>
        if isSpacing c then
          match Gap.read indent s.rest.length {} s with
          | .error e => .error e
          | .ok (gap, s) =>
            if !inFlow && s.column < indent then .ok ⟨done.reverse, s, gap.broken⟩
            else plainFrom inFlow indent fuel s done gap true
        else if (c == ':' && s.spacingAt 1) || (inFlow && endsInFlow c) then
          .ok ⟨done.reverse, s, gap.broken⟩
        else plainFrom inFlow indent fuel s.skip (c :: (gap.text.reverse ++ done)) {} false

/-- Reads a plain scalar whose lines are indented by at least `indent` characters. -/
def plain (inFlow : Bool) (indent : Nat) (s : Source) : Except Problem ScalarText :=
  plainFrom inFlow indent (2 * s.rest.length + 1) s [] {} false

/-- The character that an escape of one letter stands for. -/
def escaped? (c : Char) : Option Char :=
  match c with
  | '0' => some '\x00'
  | 'a' => some '\x07'
  | 'b' => some '\x08'
  | 't' => some '\t'
  | '\t' => some '\t'
  | 'n' => some '\n'
  | 'v' => some '\x0b'
  | 'f' => some '\x0c'
  | 'r' => some '\r'
  | 'e' => some '\x1b'
  | ' ' => some ' '
  | '"' => some '"'
  | '\'' => some '\''
  | '\\' => some '\\'
  | 'N' => some '\x85'
  | '_' => some '\xa0'
  | 'L' => some '\u2028'
  | 'P' => some '\u2029'
  | _ => none

/-- The number of hexadecimal digits after an escape letter. -/
def codeLength? (c : Char) : Option Nat :=
  match c with
  | 'x' => some 2
  | 'u' => some 4
  | 'U' => some 8
  | _ => none

/-- The value of hexadecimal digits. -/
def hexValue? (cs : List Char) : Option Nat :=
  cs.foldlM (fun n c =>
    if c.toNat < 128 then
      match Bytes.digitValue? (Bytes.ascii c) with
      | some d => if d < 16 then some (n * 16 + d) else none
      | none => none
    else none) 0

/-- The character that the escape after a backslash stands for, and the number of characters of
the escape, the backslash included. -/
def escape (cs : List Char) : Except Problem (Char × Nat) :=
  match cs with
  | _ :: e :: more =>
    match escaped? e, codeLength? e with
    | some c, _ => .ok (c, 2)
    | none, some n =>
      let digits := more.take n
      match hexValue? digits with
      | some v =>
        if digits.length < n || (0xD800 ≤ v && v ≤ 0xDFFF) || v > 0x10FFFF then .error .escape
        else .ok (Char.ofNat v, n + 2)
      | none => .error .escape
    | none, none => .error .escape
  | _ => .error .escape

/-- Reads the rest of a quoted scalar after the quote `quote`. -/
def quotedFrom (quote : Char) : Nat → Source → List Char → Bool → Except Problem ScalarText
  | 0, _, _, _ => .error .unclosedQuote
  | fuel + 1, s, done, fresh =>
    if fresh && s.atDocumentMark then .error .documentMarkInQuote
    else
      match s.rest with
      | [] => .error .unclosedQuote
      | c :: more =>
        if isSpacing c then
          match Gap.read 0 s.rest.length {} s with
          | .error e => .error e
          | .ok (gap, s) => quotedFrom quote fuel s (gap.text.reverse ++ done) true
        else if c == quote then
          if quote == '\'' && more.head? == some '\'' then
            quotedFrom quote fuel (s.skipMany 2) ('\'' :: done) false
          else .ok ⟨done.reverse, s.skip, false⟩
        else if quote == '"' && c == '\\' then
          if more.head?.any isBreak then
            let s := s.skip.skipBreak
            match Gap.read 0 s.rest.length { broken := true } s with
            | .error e => .error e
            | .ok (gap, s) => quotedFrom quote fuel s (gap.text.reverse ++ done) true
          else
            match escape s.rest with
            | .error e => .error e
            | .ok (c, n) => quotedFrom quote fuel (s.skipMany n) (c :: done) false
        else quotedFrom quote fuel s.skip (c :: done) false

/-- Reads a quoted scalar. -/
def quoted (quote : Char) (s : Source) : Except Problem ScalarText :=
  quotedFrom quote (s.rest.length + 1) s.skip [] true

/-- What happens to the line breaks at the end of a block scalar. -/
inductive Chomping where
  | strip
  | clip
  | keep
  deriving DecidableEq

/-- The header of a block scalar: chomping and extra indentation, each at most once. -/
structure BlockHeader where
  chomping : Chomping := .clip
  increment : Option Nat := none

def chomping? (s : Source) : Option Chomping :=
  if s.sees '+' then some .keep else if s.sees '-' then some .strip else none

/-- The digit ahead, which must not be zero. -/
def increment? (s : Source) : Except Problem (Option Nat) :=
  match s.rest with
  | c :: _ =>
    if c.isDigit then (if c == '0' then .error .blockHeader else .ok (some (c.toNat - 48)))
    else .ok none
  | [] => .ok none

/-- Reads the header of a block scalar up to the start of the next line. -/
def blockHeader (s : Source) : Except Problem (BlockHeader × Source) := do
  let (h, s) ← match chomping? s with
    | some chomping => do
      let s := s.skip
      match ← increment? s with
      | some n => .ok (({ chomping := chomping, increment := some n } : BlockHeader), s.skip)
      | none => .ok (({ chomping := chomping } : BlockHeader), s)
    | none => do
      match ← increment? s with
      | some n =>
        let s := s.skip
        match chomping? s with
        | some chomping =>
          .ok (({ chomping := chomping, increment := some n } : BlockHeader), s.skip)
        | none => .ok (({ increment := some n } : BlockHeader), s)
      | none => .ok (({} : BlockHeader), s)
  let s := s.dropWhile isBlank
  let s := if s.sees '#' then s.dropLine else s
  if s.atEnd then .ok (h, s)
  else if s.peek?.any isBreak then .ok (h, s.skipBreak)
  else .error .blockHeader

/-- Reads the indentation and the empty lines before a line of a block scalar. The indentation is
not known yet when `indent` is `none`. Answers the breaks, the widest indentation and the
position. -/
def blockBreaks (indent : Option Nat) :
    Nat → Nat → List Char → Source → Except Problem (List Char × Nat × Source)
  | 0, widest, breaks, s => .ok (breaks, widest, s)
  | fuel + 1, widest, breaks, s =>
    let room := match indent with
      | some n => n - s.column
      | none => s.rest.length
    let spaces := ((s.rest.take room).takeWhile (· == ' ')).length
    let s := s.skipMany spaces
    let widest := Nat.max widest s.column
    if indent.all (s.column < ·) && s.sees '\t' then .error .tabIndentation
    else if s.peek?.any isBreak then
      let (b, s) := s.readBreak
      blockBreaks indent fuel widest (breaks ++ b) s
    else .ok (breaks, widest, s)

/-- Reads the lines of a block scalar. `lead` is the break that ended the line before, `breaks` the
empty lines after it, and `blankBefore` says whether that line started with a blank. -/
def blockLines (folded : Bool) (indent : Nat) :
    Nat → Source → List Char → List Char → List Char → Bool →
      Except Problem (List Char × List Char × List Char × Source)
  | 0, s, done, lead, breaks, _ => .ok (done, lead, breaks, s)
  | fuel + 1, s, done, lead, breaks, blankBefore =>
    if s.column == indent && !s.atEnd then
      let blank := s.peek?.any isBlank
      let joint :=
        if folded && !blankBefore && !blank && lead.head? == some '\n' then
          (if breaks.isEmpty then [' '] else [])
        else lead
      let (line, s) := s.takeWhile fun _ => true
      let done := line.reverse ++ (breaks.reverse ++ (joint.reverse ++ done))
      let (lead, s) := s.readBreak
      match blockBreaks (some indent) (s.rest.length + 1) 0 [] s with
      | .error e => .error e
      | .ok (breaks, _, s) => blockLines folded indent fuel s done lead breaks blank
    else .ok (done, lead, breaks, s)

/-- Reads a block scalar; `parent` is the indentation of the collection around it. -/
def block (folded : Bool) (parent : Int) (s : Source) : Except Problem ScalarText := do
  let (h, s) ← blockHeader s.skip
  let base : Nat := parent.toNat
  let indent := h.increment.map (base + ·)
  let (breaks, widest, s) ← blockBreaks indent (s.rest.length + 1) 0 [] s
  let indent := indent.getD (Nat.max (Nat.max widest (parent + 1).toNat) 1)
  let (done, lead, breaks, s) ← blockLines folded indent (s.rest.length + 1) s [] [] breaks false
  let tail := match h.chomping with
    | .strip => []
    | .clip => lead
    | .keep => lead ++ breaks
  .ok ⟨done.reverse ++ tail, s, true⟩

end ScalarText

end Linewise.Yaml
