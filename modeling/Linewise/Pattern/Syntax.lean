import Linewise.Pattern.Basic

/-!
# The notation of search patterns

Reading a search pattern from its written form. The reader goes from left to right and keeps, for
the whole pattern and for every group still open, the finished alternatives and the items of the
current one. It stops at the first fault and reports the part of the text that shows it.
-/

namespace Linewise.Pattern

/-- What can be wrong with a written pattern. -/
inductive Fault where
  | missingParen
  | unexpectedParen
  | missingBracket
  | missingOperand
  | nestedRepeat
  | repeatCount
  | classRange
  | badEscape
  | trailingBackslash
  | badGroup
  | badGroupName
  | invalidUtf8
  | tooDeep
  | tooLarge
  deriving DecidableEq, Repr

/-- A fault with the part of the pattern that shows it. -/
structure SyntaxError where
  fault : Fault
  fragment : Bytes
  deriving DecidableEq, Repr

def Fault.text : Fault → String
  | missingParen => "missing closing )"
  | unexpectedParen => "unexpected )"
  | missingBracket => "missing closing ]"
  | missingOperand => "missing argument to repetition operator"
  | nestedRepeat => "invalid nested repetition operator"
  | repeatCount => "invalid repeat count"
  | classRange => "invalid character class range"
  | badEscape => "invalid escape sequence"
  | trailingBackslash => "trailing backslash at end of expression"
  | badGroup => "invalid or unsupported Perl syntax"
  | badGroupName => "invalid named capture"
  | invalidUtf8 => "invalid UTF-8"
  | tooDeep => "expression nests too deeply"
  | tooLarge => "expression too large"

def SyntaxError.message (e : SyntaxError) : Bytes :=
  utf8 "error parsing regexp: " ++ utf8 e.fault.text ++ utf8 ": `" ++ e.fragment ++ utf8 "`"

/-- Options that a group can switch. -/
structure Flags where
  fold : Bool := false
  multiline : Bool := false
  dotNewline : Bool := false
  deriving DecidableEq, Repr

/-- What a piece consists of, as far as the pieces next to it matter. -/
inductive Kind where
  | nothing
  /-- Literal characters, and whether case is ignored. -/
  | text (fold : Bool) (codes : List Nat)
  /-- One character out of a set. -/
  | set
  | other
  deriving DecidableEq, Repr

/-- What has to be known of a piece to tell how deep a choice is in which it stands. -/
structure Outline where
  kind : Kind := .other
  height : Nat := 1
  deriving DecidableEq, Repr

/-- A pattern read so far, with the measures that the limits are stated in. -/
structure Piece extends Outline where
  pattern : Pattern
  size : Nat := 1
  /-- The largest product of nested repeat counts. -/
  counts : Nat := 1

/-- No pattern may be deeper. -/
def maxHeight : Nat := 1000

/-- No pattern may be larger. -/
def maxSize : Nat := 3355443

/-- No product of nested repeat counts may be larger. -/
def maxCount : Nat := 1000

/-- The finished alternatives and the items of the current one, each latest first. -/
structure Level where
  branches : List Piece := []
  items : List Piece := []

/-- A group that is still open: what stood around it and the flags to return to. -/
structure OpenGroup where
  level : Level
  flags : Flags
  capturing : Bool

/-- The state of the reader. -/
structure Reader where
  flags : Flags := {}
  level : Level := {}
  groups : List OpenGroup := []
  /-- The text from the repetition operator that was read last, when nothing stood after it. -/
  lastRepeat : Option (List Symbol) := none
  /-- The product of all repeat counts read so far, at most `maxSize`. -/
  repeats : Nat := 1
  /-- The number of pieces read so far. -/
  pieces : Nat := 0

/-- The text of `start` up to where `rest` begins. -/
def cut (start rest : List Symbol) : Bytes :=
  Utf8.ofSymbols (start.take (start.length - rest.length))

def fail {α : Type} (fault : Fault) (fragment : Bytes) : Except SyntaxError α :=
  .error ⟨fault, fragment⟩

def failInvalid {α : Type} (start : List Symbol) : Except SyntaxError α :=
  fail .invalidUtf8 (Utf8.ofSymbols start)

/-- The measures of pieces one after the other. -/
def sequenceMeasures (ps : List Piece) : Piece :=
  { pattern := .empty
    height := 1 + ps.foldl (fun h p => max h p.height) 0
    size := ps.foldl (fun n p => n + p.size) 0
    counts := ps.foldl (fun n p => max n p.counts) 0 }

/-- Two literal texts as one, if case is ignored in both or in none of them. -/
def Kind.append? : Kind → Kind → Option Kind
  | text fold codes, text fold' codes' =>
    if fold == fold' then some (.text fold (codes ++ codes')) else none
  | _, _ => none

/-- Neighbouring literals of the same kind count as one piece. -/
def mergeLiterals : List Piece → List Piece
  | [] => []
  | p :: rest =>
    match mergeLiterals rest with
    | [] => [p]
    | q :: qs =>
      match p.kind.append? q.kind with
      | some kind => { p with kind := kind, size := p.size + q.size } :: qs
      | none => p :: q :: qs

/-- The patterns one after the other. -/
def sequence : List Pattern → Pattern
  | [] => .empty
  | [p] => p
  | p :: ps => .concat p (sequence ps)

/-- The patterns as alternatives. -/
def choice : List Pattern → Pattern
  | [] => .empty
  | [p] => p
  | p :: ps => .either p (choice ps)

/-- The items of an alternative as one piece. -/
def Level.joined (l : Level) : Piece :=
  let items := l.items.reverse
  let pattern := sequence (items.map Piece.pattern)
  match mergeLiterals items with
  | [] => { kind := .nothing, pattern := .empty }
  | [p] => { p with pattern := pattern }
  | ps => { sequenceMeasures ps with pattern := pattern }

/-- Whether a piece describes exactly one character. -/
def Kind.isSingle : Kind → Bool
  | text _ [_] => true
  | set => true
  | _ => false

/-- The characters of a literal text. -/
def Kind.codes : Kind → List Nat
  | text _ codes => codes
  | _ => []

/-- What remains of a literal text behind its first `n` characters. -/
def Kind.drop (n : Nat) : Kind → Kind
  | text fold codes =>
    match codes.drop n with
    | [] => nothing
    | rest => text fold rest
  | k => k

/-- Whether two literal texts start with the same character. -/
def Kind.startsLike : Kind → Kind → Bool
  | text fold (c :: _), text fold' (c' :: _) => fold == fold' && c == c'
  | _, _ => false

/-- How many characters two texts have in common at their start. -/
def commonLength : List Nat → List Nat → Nat
  | c :: cs, d :: ds => if c == d then commonLength cs ds + 1 else 0
  | _, _ => 0

namespace Outline

/-- How many characters literal texts have in common at their start. -/
def sharedLength : List Outline → Nat
  | [] => 0
  | o :: rest => rest.foldl (fun n o' => min n (commonLength o.kind.codes o'.kind.codes))
      o.kind.codes.length

/-- Neighbouring alternatives of one sort become one. -/
def mergeNeighbours (sort : Kind → Bool) : List Outline → List Outline
  | [] => []
  | o :: rest =>
    match mergeNeighbours sort rest with
    | [] => [o]
    | o' :: rest' =>
      if sort o.kind && sort o'.kind then (if o == o' then o else { kind := .set }) :: rest'
      else o :: o' :: rest'

def mergeSingles : List Outline → List Outline := mergeNeighbours Kind.isSingle

def mergeNothings : List Outline → List Outline := mergeNeighbours (· == .nothing)

/-- The outline of a choice between alternatives. -/
def choice : List Outline → Outline
  | [o] => o
  | os => { height := 1 + os.foldl (fun h o => max h o.height) 0 }

/-- What remains of literal texts behind what they have in common at their start. -/
def behindShared (run : List Outline) : List Outline :=
  run.map fun o => { o with kind := o.kind.drop (sharedLength run) }

/-- Alternatives that start alike as one: what they have in common at their start, in front of what
`below` makes of the rest. -/
def collapse (below : List Outline → Outline) : List Outline → Outline
  | [o] => o
  | run => { height := 1 + (below (behindShared run)).height }

/-- Writes what neighbouring literal alternatives have in common at their start only once, in front
of the choice between what remains of them. The fuel is the length of the longest text. -/
def factor : Nat → List Outline → List Outline
  | 0, os => mergeNothings (mergeSingles os)
  | fuel + 1, os => mergeNothings <| mergeSingles <|
    (os.splitBy (·.kind.startsLike ·.kind)).map (collapse fun rest => choice (factor fuel rest))

/-- The length of the longest literal text. -/
def longest (os : List Outline) : Nat := os.foldl (fun n o => max n o.kind.codes.length) 0

/-- The outline of alternatives as they are kept. -/
def ofAlternatives (os : List Outline) : Outline :=
  choice (factor (longest os) (mergeSingles os))

end Outline

/-- All alternatives as one piece. -/
def Level.alternatives (l : Level) : Piece :=
  match l.branches with
  | [] => l.joined
  | bs =>
    let ps := (l.joined :: bs).reverse
    let measures := sequenceMeasures ps
    { measures with
      toOutline := .ofAlternatives (ps.map Piece.toOutline)
      pattern := choice (ps.map Piece.pattern)
      size := measures.size + bs.length }

/-- A piece within the limits on depth and size. -/
def Reader.limited (r : Reader) (whole : Bytes) (p : Piece) : Except SyntaxError Piece :=
  if p.size > maxSize && r.pieces ≥ maxSize / r.repeats then fail .tooLarge whole
  else if p.height > maxHeight then fail .tooDeep whole
  else .ok p

/-- Appends an item to the current alternative. -/
def Reader.push (r : Reader) (p : Piece) : Reader :=
  { r with
    level := { r.level with items := p :: r.level.items }
    lastRepeat := none
    pieces := r.pieces + 1 }

/-- A literal character, in any case if the flags say so. -/
def literalPiece (flags : Flags) (code : Nat) : Piece :=
  { pattern := if flags.fold then .set (CharSet.anyCase code) else .literal code
    kind := .text flags.fold [code] }

def Reader.pushLiteral (r : Reader) (code : Nat) : Reader := r.push (literalPiece r.flags code)

def Reader.pushSet (r : Reader) (s : CharSet) : Reader := r.push { kind := .set, pattern := .set s }

def Reader.pushAssertion (r : Reader) (a : Assertion) : Reader := r.push { pattern := .assertion a }

/-- Opens a group, inside which `inner` holds. -/
def Reader.openGroup (r : Reader) (capturing : Bool) (inner : Flags) : Reader :=
  { r with
    flags := inner
    level := {}
    groups := ⟨r.level, r.flags, capturing⟩ :: r.groups
    lastRepeat := none }

/-- Ends the current alternative. -/
def Reader.nextBranch (r : Reader) (whole : Bytes) : Except SyntaxError Reader := do
  let p ← r.limited whole r.level.joined
  .ok { r with level := ⟨p :: r.level.branches, []⟩, lastRepeat := none }

/-- Ends the innermost group. -/
def Reader.closeGroup (r : Reader) (whole : Bytes) : Except SyntaxError Reader := do
  let p ← r.limited whole r.level.joined
  match r.groups with
  | [] => fail .unexpectedParen whole
  | g :: groups =>
    let p ← r.limited whole ({ r.level with items := [p] } : Level).alternatives
    let p := if g.capturing then
        { p with kind := .other, height := p.height + 1, size := p.size + 2 } else p
    let p ← r.limited whole p
    .ok { ({ r with groups := groups, level := g.level, flags := g.flags } : Reader).push p with
      lastRepeat := none }

/-- How often a repetition operator repeats. -/
structure Bounds where
  min : Nat
  max : Option Nat
  /-- Whether the bounds were written as numbers. -/
  counted : Bool

/-- The size of a repeated piece. -/
def Bounds.size (b : Bounds) (sub : Nat) : Nat :=
  match b.counted, b.min, b.max with
  | true, 0, none => 2 + sub
  | true, n, none => 1 + n * sub
  | true, n, some m => Nat.max 1 (m * sub + (m - n))
  | false, 0, none => 2 + sub
  | false, _, _ => 1 + sub

/-- The largest product of nested counts in a repeated piece. -/
def Bounds.counts (b : Bounds) (sub : Nat) : Nat :=
  if b.counted then
    match b.max with
    | some m => m * sub
    | none => if b.min == 0 then sub else b.min * sub
  else sub

/-- Applies a repetition operator written from `start` up to `rest` to the last item. -/
def Reader.repeatLast (r : Reader) (whole : Bytes) (b : Bounds) (start rest : List Symbol) :
    Except SyntaxError (Reader × List Symbol) := do
  let rest := match rest with
    | .char '?' :: rest => rest
    | rest => rest
  match r.lastRepeat with
  | some before => fail .nestedRepeat (cut before rest)
  | none =>
    match r.level.items with
    | [] => fail .missingOperand (cut start rest)
    | p :: items =>
      let factor := max 1 (b.max.getD b.min)
      let repeats := if !b.counted then r.repeats
        else if factor > maxSize / r.repeats then maxSize else r.repeats * factor
      let r := { r with repeats := repeats, pieces := r.pieces + 1 }
      let q : Piece :=
        { pattern := .repeated p.pattern b.min b.max
          height := p.height + 1
          size := b.size p.size
          counts := b.counts p.counts }
      let q ← r.limited whole q
      if b.counted && (b.min ≥ 2 || b.max.any (· ≥ 2)) && q.counts > maxCount then
        fail .repeatCount (cut start rest)
      else
        .ok ({ r with
          level := { r.level with items := q :: items }
          lastRepeat := some start }, rest)

def isDigitSymbol : Symbol → Bool
  | .char c => c.isDigit
  | .stray _ => false

def digitsValue (ds : List Symbol) : Nat :=
  ds.foldl (fun n d => n * 10 + (d.toChar.toNat - 48)) 0

/-- A decimal number without leading zeros, and what follows it. -/
def readNumber? (s : List Symbol) : Option (Nat × List Symbol) :=
  match s.takeWhile isDigitSymbol with
  | [] => none
  | .char '0' :: _ :: _ => none
  | ds => some (digitsValue ds, s.dropWhile isDigitSymbol)

/-- Bounds written as `{n}`, `{n,}` or `{n,m}`, after the opening brace. -/
def readBounds? (s : List Symbol) : Option (Bounds × List Symbol) :=
  match readNumber? s with
  | none => none
  | some (n, rest) =>
    match rest with
    | .char '\x7d' :: rest => some (⟨n, some n, true⟩, rest)
    | .char ',' :: .char '\x7d' :: rest => some (⟨n, none, true⟩, rest)
    | .char ',' :: rest =>
      match readNumber? rest with
      | some (m, .char '\x7d' :: rest) => some (⟨n, some m, true⟩, rest)
      | _ => none
    | _ => none

/-- Whether written bounds are in order and small enough. -/
def Bounds.acceptable (b : Bounds) : Bool :=
  b.min ≤ maxCount && b.max.all fun m => m ≤ maxCount && b.min ≤ m

def hexValue? (c : Char) : Option Nat :=
  if c.isDigit then some (c.toNat - 48)
  else if 'a' ≤ c && c ≤ 'f' then some (c.toNat - 87)
  else if 'A' ≤ c && c ≤ 'F' then some (c.toNat - 55)
  else none

def isOctal (c : Char) : Bool := '0' ≤ c && c ≤ '7'

/-- Up to `n` further octal digits. -/
def readOctal : Nat → Nat → List Symbol → Nat × List Symbol
  | 0, acc, s => (acc, s)
  | n + 1, acc, .char c :: rest =>
    if isOctal c then readOctal n (acc * 8 + (c.toNat - 48)) rest else (acc, .char c :: rest)
  | _ + 1, acc, s => (acc, s)

/-- The hexadecimal digits up to the closing brace of `\x{…}`; `start` is where the escape began
and `seen` whether a digit has been read. -/
def readBracedHex (start : List Symbol) (seen : Bool) (acc : Nat) :
    List Symbol → Except SyntaxError (Nat × List Symbol)
  | [] => fail .badEscape (cut start [])
  | .stray b :: rest => failInvalid (.stray b :: rest)
  | .char c :: rest =>
    if c == '\x7d' then
      if seen then .ok (acc, rest) else fail .badEscape (cut start rest)
    else
      match hexValue? c with
      | none => fail .badEscape (cut start rest)
      | some v =>
        if acc * 16 + v > 0x10FFFF then fail .badEscape (cut start rest)
        else readBracedHex start true (acc * 16 + v) rest

/-- The two digits of `\xhh`. -/
def readTwoHex (start : List Symbol) (c : Char) (s : List Symbol) :
    Except SyntaxError (Nat × List Symbol) :=
  match s with
  | [] => fail .badEscape (cut start [])
  | .stray b :: rest => failInvalid (.stray b :: rest)
  | .char d :: rest =>
    match hexValue? c, hexValue? d with
    | some x, some y => .ok (x * 16 + y, rest)
    | _, _ => fail .badEscape (cut start rest)

/-- The character that an escape denotes. `start` begins with the backslash. -/
def readEscape (start : List Symbol) : Except SyntaxError (Nat × List Symbol) :=
  match start.drop 1 with
  | [] => fail .trailingBackslash []
  | .stray b :: rest => failInvalid (.stray b :: rest)
  | .char c :: rest =>
    if isOctal c then
      let more := match rest with
        | .char d :: _ => isOctal d
        | _ => false
      if c == '0' || more then .ok (readOctal 2 (c.toNat - 48) rest)
      else fail .badEscape (cut start rest)
    else if c == 'x' then
      match rest with
      | [] => fail .badEscape (cut start [])
      | .stray b :: rest => failInvalid (.stray b :: rest)
      | .char '\x7b' :: rest => readBracedHex start false 0 rest
      | .char d :: rest => readTwoHex start d rest
    else if c == 'a' then .ok (7, rest)
    else if c == 'f' then .ok (12, rest)
    else if c == 'n' then .ok (10, rest)
    else if c == 'r' then .ok (13, rest)
    else if c == 't' then .ok (9, rest)
    else if c == 'v' then .ok (11, rest)
    else if c.toNat < 128 && !c.isAlphanum then .ok (c.toNat, rest)
    else fail .badEscape (cut start rest)

/-- The first stray byte of `s` and what follows it, when there is one. -/
def firstStray? (s : List Symbol) : Option (List Symbol) :=
  match s.dropWhile (!·.isStray) with
  | [] => none
  | rest => some rest

/-- The part of `s` before the first `c`, and what follows it. -/
def splitAtChar (c : Char) (s : List Symbol) : Option (List Symbol × List Symbol) :=
  match s.dropWhile (· != .char c) with
  | [] => none
  | _ :: rest => some (s.takeWhile (· != .char c), rest)

/-- A property escape such as `\pL` or `\p{Greek}`. `start` begins with the backslash. -/
def readProperty (flags : Flags) (start : List Symbol) :
    Except SyntaxError (Member × List Symbol) := do
  let complement := start.drop 1 |>.head? |>.any (· == .char 'P')
  let (name, rest) ← match start.drop 2 with
    | [] => .ok ([], [])
    | .stray b :: rest => failInvalid (.stray b :: rest)
    | .char '\x7b' :: body =>
      match splitAtChar '\x7d' body with
      | none =>
        match firstStray? start with
        | some bad => failInvalid bad
        | none => fail .classRange (Utf8.ofSymbols start)
      | some (name, rest) =>
        match firstStray? name with
        | some bad => failInvalid bad
        | none => .ok (name.map Symbol.toChar, rest)
    | .char c :: rest => .ok ([c], rest)
  let (complement, name) := match name with
    | '^' :: name => (!complement, name)
    | name => (complement, name)
  match property? name with
  | none => fail .classRange (cut start rest)
  | some p => .ok (⟨[.property p], flags.fold, complement⟩, rest)

/-- Splits at the first `:]`. -/
def splitAtClassEnd : List Symbol → Option (List Symbol × List Symbol)
  | .char ':' :: .char ']' :: rest => some ([], rest)
  | s :: rest => (splitAtClassEnd rest).map fun (name, rest) => (s :: name, rest)
  | [] => none

/-- A named class such as `[:alpha:]` or `[:^alpha:]` inside brackets; `none` when the text is
not of that form. -/
def readNamedClass (flags : Flags) (start : List Symbol) :
    Except SyntaxError (Option (Member × List Symbol)) :=
  match start with
  | .char '[' :: .char ':' :: body =>
    match splitAtClassEnd body with
    | none => .ok none
    | some (name, rest) =>
      let (complement, plain) := match name with
        | .char '^' :: name => (true, name)
        | name => (false, name)
      match asciiClass? (String.ofList (plain.map Symbol.toChar)) with
      | some atoms => .ok (some (⟨atoms, flags.fold, complement⟩, rest))
      | none => fail .classRange (cut start rest)
  | _ => .ok none

/-- One character of a bracket expression; `whole` begins with the bracket. -/
def readClassChar (whole s : List Symbol) : Except SyntaxError (Nat × List Symbol) :=
  match s with
  | [] => fail .missingBracket (Utf8.ofSymbols whole)
  | .stray b :: rest => failInvalid (.stray b :: rest)
  | .char '\\' :: _ => readEscape s
  | .char c :: rest => .ok (c.toNat, rest)

/-- A single character or a range of a bracket expression. -/
def readClassRange (flags : Flags) (whole s : List Symbol) :
    Except SyntaxError (Member × List Symbol) := do
  let (lo, rest) ← readClassChar whole s
  let single : Member := ⟨[.range lo lo], flags.fold, false⟩
  match rest with
  | .char '-' :: after =>
    match after with
    | [] => .ok (single, rest)
    | .char ']' :: _ => .ok (single, rest)
    | _ =>
      let (hi, rest') ← readClassChar whole after
      if hi < lo then fail .classRange (cut s rest')
      else .ok (⟨[.range lo hi], flags.fold, false⟩, rest')
  | _ => .ok (single, rest)

/-- One member of a bracket expression. -/
def readMember (flags : Flags) (whole s : List Symbol) :
    Except SyntaxError (Member × List Symbol) := do
  match ← readNamedClass flags s with
  | some found => .ok found
  | none =>
    match s with
    | .char '\\' :: .char c :: rest =>
      if c == 'p' || c == 'P' then readProperty flags s
      else
        match classEscape? c with
        | some (atoms, complement) => .ok (⟨atoms, flags.fold, complement⟩, rest)
        | none => readClassRange flags whole s
    | _ => readClassRange flags whole s

/-- The members of a bracket expression up to its end; a bracket right at the start is a member.
The fuel is the length of the text. -/
def readMembers (flags : Flags) (whole : List Symbol) :
    Nat → Bool → List Symbol → Except SyntaxError (List Member × List Symbol)
  | 0, _, _ => fail .missingBracket (Utf8.ofSymbols whole)
  | fuel + 1, first, s =>
    match first, s with
    | false, .char ']' :: rest => .ok ([], rest)
    | _, _ => do
      let (m, rest) ← readMember flags whole s
      let (ms, rest) ← readMembers flags whole fuel false rest
      .ok (m :: ms, rest)

/-- A bracket expression; `start` begins with the bracket. -/
def readClass (flags : Flags) (start : List Symbol) :
    Except SyntaxError (CharSet × List Symbol) := do
  let (negated, body) := match start.drop 1 with
    | .char '^' :: body => (true, body)
    | body => (false, body)
  let (members, rest) ← readMembers flags start (body.length + 1) true body
  .ok (⟨members, negated⟩, rest)

/-- What a group head `(?…` does: open a group or change the flags of the rest. -/
inductive GroupHead where
  | opens (capturing : Bool) (inner : Flags)
  | sets (flags : Flags)

/-- The flag letters of a group head. `off` is set after the minus sign and `seen` says whether a
letter has been read since. `start` begins with the parenthesis. -/
def readFlags (start : List Symbol) :
    (flags : Flags) → (off seen : Bool) → List Symbol →
      Except SyntaxError (GroupHead × List Symbol)
  | _, _, _, [] => fail .badGroup (cut start [])
  | _, _, _, .stray b :: rest => failInvalid (.stray b :: rest)
  | flags, off, seen, .char c :: rest =>
    if c == 'i' then readFlags start { flags with fold := !off } off true rest
    else if c == 'm' then readFlags start { flags with multiline := !off } off true rest
    else if c == 's' then readFlags start { flags with dotNewline := !off } off true rest
    else if c == 'U' then readFlags start flags off true rest
    else if c == '-' && !off then readFlags start flags true false rest
    else if c == ':' && (!off || seen) then .ok (.opens false flags, rest)
    else if c == ')' && (!off || seen) then .ok (.sets flags, rest)
    else fail .badGroup (cut start rest)

/-- Names of groups are words. -/
def isGroupName (name : List Symbol) : Bool :=
  !name.isEmpty && name.all fun
    | .char c => isWordChar c
    | .stray _ => false

/-- A group with a name; `body` begins with the name. -/
def readNamedGroup (flags : Flags) (start body : List Symbol) :
    Except SyntaxError (GroupHead × List Symbol) :=
  match splitAtChar '>' body with
  | none =>
    match firstStray? start with
    | some bad => failInvalid bad
    | none => fail .badGroupName (Utf8.ofSymbols start)
  | some (name, rest) =>
    match firstStray? name with
    | some bad => failInvalid bad
    | none =>
      if isGroupName name then .ok (.opens true flags, rest)
      else fail .badGroupName (cut start rest)

/-- A group head; `start` begins with `(?`. -/
def readGroupHead (flags : Flags) (start : List Symbol) :
    Except SyntaxError (GroupHead × List Symbol) :=
  match start.drop 2 with
  | .char 'P' :: .char '<' :: body =>
    if body.isEmpty then readFlags start flags false false (start.drop 2)
    else readNamedGroup flags start body
  | .char '<' :: body =>
    if body.isEmpty then readFlags start flags false false (start.drop 2)
    else readNamedGroup flags start body
  | s => readFlags start flags false false s

/-- The literal text after `\Q`, up to `\E` or the end, and what follows. -/
def splitQuoted : List Symbol → List Symbol × List Symbol
  | [] => ([], [])
  | .char '\\' :: .char 'E' :: rest => ([], rest)
  | s :: rest =>
    let (quoted, rest) := splitQuoted rest
    (s :: quoted, rest)

/-- Reads one construct that starts with a backslash. -/
def Reader.readBackslash (r : Reader) (start : List Symbol) :
    Except SyntaxError (Reader × List Symbol) :=
  match start.drop 1 with
  | .char 'A' :: rest => .ok (r.pushAssertion .textStart, rest)
  | .char 'b' :: rest => .ok (r.pushAssertion .wordBoundary, rest)
  | .char 'B' :: rest => .ok (r.pushAssertion .notWordBoundary, rest)
  | .char 'C' :: rest => fail .badEscape (cut start rest)
  | .char 'Q' :: body =>
    let (quoted, rest) := splitQuoted body
    match firstStray? quoted with
    | some bad => failInvalid bad
    | none =>
      let r := quoted.foldl (fun r s => r.pushLiteral s.toChar.toNat) r
      .ok ({ r with lastRepeat := none }, rest)
  | .char 'z' :: rest => .ok (r.pushAssertion .textEnd, rest)
  | .char c :: rest =>
    if c == 'p' || c == 'P' then do
      let (m, rest) ← readProperty r.flags start
      .ok (r.pushSet ⟨[m], false⟩, rest)
    else
      match classEscape? c with
      | some (atoms, complement) =>
        .ok (r.pushSet ⟨[⟨atoms, r.flags.fold, complement⟩], false⟩, rest)
      | none => do
        let (code, rest) ← readEscape start
        .ok (r.pushLiteral code, rest)
  | _ => do
    let (code, rest) ← readEscape start
    .ok (r.pushLiteral code, rest)

/-- Reads one construct. -/
def Reader.step (r : Reader) (whole : Bytes) (start : List Symbol) :
    Except SyntaxError (Reader × List Symbol) :=
  match start with
  | [] => .ok (r, [])
  | .stray b :: rest => failInvalid (.stray b :: rest)
  | .char c :: rest =>
    if c == '(' then
      match rest with
      | .char '?' :: _ => do
        match ← readGroupHead r.flags start with
        | (.opens capturing inner, rest) => .ok (r.openGroup capturing inner, rest)
        | (.sets flags, rest) => .ok ({ r with flags := flags, lastRepeat := none }, rest)
      | _ => .ok (r.openGroup true r.flags, rest)
    else if c == '|' then do .ok (← r.nextBranch whole, rest)
    else if c == ')' then do .ok (← r.closeGroup whole, rest)
    else if c == '^' then
      .ok (r.pushAssertion (if r.flags.multiline then .lineStart else .textStart), rest)
    else if c == '$' then
      .ok (r.pushAssertion (if r.flags.multiline then .lineEnd else .textEnd), rest)
    else if c == '.' then
      .ok (r.pushSet (if r.flags.dotNewline then CharSet.all else CharSet.notNewline), rest)
    else if c == '[' then do
      let (s, rest) ← readClass r.flags start
      .ok (r.pushSet s, rest)
    else if c == '*' then r.repeatLast whole ⟨0, none, false⟩ start rest
    else if c == '+' then r.repeatLast whole ⟨1, none, false⟩ start rest
    else if c == '?' then r.repeatLast whole ⟨0, some 1, false⟩ start rest
    else if c == '\x7b' then
      match readBounds? rest with
      | none => .ok (r.pushLiteral c.toNat, rest)
      | some (b, rest) =>
        if b.acceptable then r.repeatLast whole b start rest
        else fail .repeatCount (cut start rest)
    else if c == '\\' then r.readBackslash start
    else .ok (r.pushLiteral c.toNat, rest)

/-- Reads constructs up to the end of the text; the fuel is the length of the text. -/
def Reader.run (whole : Bytes) : Nat → Reader → List Symbol → Except SyntaxError Reader
  | _, r, [] => .ok r
  | 0, r, _ :: _ => .ok r
  | fuel + 1, r, s => do
    let (r, rest) ← r.step whole s
    run whole fuel r rest

/-- The pattern that a whole text denotes. -/
def parse (text : Bytes) : Except SyntaxError Pattern := do
  let symbols := Utf8.symbols text
  let r ← Reader.run text symbols.length {} symbols
  let p ← r.limited text r.level.joined
  let p ← r.limited text ({ r.level with items := [p] } : Level).alternatives
  if r.groups.isEmpty then .ok p.pattern else fail .missingParen text

end Linewise.Pattern
