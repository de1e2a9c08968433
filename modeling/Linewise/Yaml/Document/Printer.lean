import Linewise.Yaml.Document

/-!
# Writing documents

The text of a document in block style. A pen knows where on the line it is, so that every part of a
document can be put on the same line as what stands before it or on a line of its own. Mappings are
indented by multiples of four, and what stands in an item of a sequence by two more than its dash.
-/

namespace Linewise.Yaml

/-- The written text and the place of the pen. -/
structure Pen where
  /-- The text so far in pieces, latest first. -/
  pieces : List Bytes := []
  column : Nat := 0
  /-- Whether nothing but indicators stands on the line, so that a block may start on it. -/
  atIndent : Bool := true
  /-- Whether a blank stands before the pen. -/
  spaced : Bool := true

namespace Pen

/-- The whole text. -/
def text (p : Pen) : Bytes := p.pieces.reverse.flatten

/-- Writes characters that end no line. -/
def put (p : Pen) (cs : List Char) : Pen :=
  { p with pieces := Utf8.encode cs :: p.pieces, column := p.column + cs.length }

/-- Ends the line. -/
def newLine (p : Pen) : Pen :=
  { p with pieces := [Bytes.newline] :: p.pieces, column := 0, atIndent := true }

/-- Writes a character that ends a line. -/
def putBreak (p : Pen) (c : Char) : Pen :=
  if c == '\n' then p.newLine
  else { p with pieces := Utf8.encode [c] :: p.pieces, column := 0, atIndent := true }

/-- Goes to a column, on a new line unless a block may start on this one. -/
def indentTo (p : Pen) (indent : Nat) : Pen :=
  let p := if !p.atIndent || p.column > indent || (p.column == indent && !p.spaced) then p.newLine
    else p
  { p.put (List.replicate (indent - p.column) ' ') with spaced := true }

/-- Writes an indicator. -/
def indicator (p : Pen) (sign : String) (needsSpace spaced keepsIndent : Bool) : Pen :=
  let p := if needsSpace && !p.spaced then p.put [' '] else p
  { p.put sign.toList with spaced := spaced, atIndent := p.atIndent && keepsIndent }

end Pen

/-- What the characters of a scalar allow. -/
structure Scalar.Analysis where
  multiline : Bool := false
  plain : Bool := true
  single : Bool := true
  block : Bool := true

namespace Scalar

/-- The characters that can be written as they are. -/
def isPrintable (c : Char) : Bool :=
  let n := c.toNat
  n == 10 || (0x20 ≤ n && n ≤ 0x7E) || (0xA0 ≤ n && n ≤ 0xD7FF)
    || (0xE000 ≤ n && n ≤ 0xFFFD && n != 0xFEFF)

/-- The characters that start no plain scalar. -/
def isIndicator (c : Char) : Bool := "#,[]\x7b\x7d&*!|>'\"%@`".toList.contains c

/-- Whether plain text would be taken apart: it starts with an indicator or a mark of a document, or
a colon or a comment sign in it counts. `before` is the character before, if any. -/
def clashes (before : Option Char) : List Char → Bool
  | [] => false
  | c :: rest =>
    let spaceAfter := rest.head?.all isBlank
    let here := match before with
      | none => isIndicator c || ((c == '?' || c == ':' || c == '-') && spaceAfter)
      | some b => (c == ':' && spaceAfter) || (c == '#' && isSpacing b)
    here || clashes (some c) rest

/-- Whether a character that satisfies `p` is followed by one that satisfies `q`. -/
def hasPair (p q : Char → Bool) : List Char → Bool
  | a :: b :: rest => (p a && q b) || hasPair p q (b :: rest)
  | _ => false

def startsLikeMark (cs : List Char) : Bool :=
  cs.take 3 == ['-', '-', '-'] || cs.take 3 == ['.', '.', '.']

/-- Looks at the characters of a scalar. -/
def analyse (cs : List Char) : Analysis :=
  if cs.isEmpty then { block := false }
  else
    let isSpace (c : Char) : Bool := c == ' '
    let special := cs.any fun c => c != '\t' && !isPrintable c
    let spaceBreak := hasPair isSpace isBreak cs
    let breakSpace := hasPair isBreak isSpace cs
    let edge (c : Option Char) : Bool := c.any fun c => isSpace c || isBreak c
    let plainQuoted := !spaceBreak && !breakSpace && !cs.contains '\t' && !special
    { multiline := cs.any isBreak
      plain := plainQuoted && !edge cs.head? && !edge cs.getLast? && !cs.any isBreak
        && !clashes none cs && !startsLikeMark cs
      single := plainQuoted
      block := cs.getLast? != some ' ' && !spaceBreak && !special }

/-- The style in which a scalar is written in block context: the style it asks for if its characters
allow that, else quotes. -/
def chooseStyle (s : Scalar) (a : Analysis) (asKey : Bool) : Style :=
  let style := if asKey && a.multiline then .double else s.style
  let style := if style == .plain && (!a.plain || (s.text.isEmpty && asKey)) then .single else style
  let style := if style == .single && !a.single then .double else style
  if (style == .literal || style == .folded) && (!a.block || asKey) then .double else style

/-- Upper-case hexadecimal digits, with zeros in front up to a width. -/
def hexDigits (width n : Nat) : List Char :=
  let digits := (Nat.toDigits 16 n).map Char.toUpper
  List.replicate (width - digits.length) '0' ++ digits

/-- A character between double quotes. -/
def escaped (c : Char) : List Char :=
  if isPrintable c && !isBreak c && c != '"' && c != '\\' then [c]
  else
    '\\' :: (match c.toNat with
      | 0 => ['0']
      | 7 => ['a']
      | 8 => ['b']
      | 9 => ['t']
      | 10 => ['n']
      | 11 => ['v']
      | 12 => ['f']
      | 13 => ['r']
      | 27 => ['e']
      | 34 => ['"']
      | 92 => ['\\']
      | 0x85 => ['N']
      | 0xA0 => ['_']
      | 0x2028 => ['L']
      | 0x2029 => ['P']
      | n =>
        if n ≤ 0xFF then 'x' :: hexDigits 2 n
        else if n ≤ 0xFFFF then 'u' :: hexDigits 4 n
        else 'U' :: hexDigits 8 n)

/-- What stands after the sign of a literal block: the indentation when the text starts with a
space or a line break, and what happens to the line breaks at its end. -/
def blockHints (cs : List Char) : String :=
  let indent := if cs.head?.any fun c => c == ' ' || isBreak c then "4" else ""
  let chomp := match cs.reverse with
    | [] => "-"
    | [c] => if isBreak c then "+" else "-"
    | c :: b :: _ => if !isBreak c then "-" else if isBreak b then "+" else ""
  indent ++ chomp

end Scalar

namespace Pen

/-- Writes the characters of a single-quoted scalar. -/
def singleQuoted (indent : Nat) : Bool → Pen → List Char → Pen
  | _, p, [] => p
  | afterBreak, p, c :: rest =>
    if c == ' ' then singleQuoted indent afterBreak (p.put [c]) rest
    else if isBreak c then
      let p := if !afterBreak && c == '\n' then p.newLine else p
      singleQuoted indent true (p.putBreak c) rest
    else
      let p := if afterBreak then p.indentTo indent else p
      let p := if c == '\'' then p.put ['\'', '\''] else p.put [c]
      singleQuoted indent false { p with atIndent := false } rest

/-- Writes the lines of a literal block. -/
def literalLines (indent : Nat) : Bool → Pen → List Char → Pen
  | _, p, [] => p
  | afterBreak, p, c :: rest =>
    if isBreak c then literalLines indent true (p.putBreak c) rest
    else
      let p := if afterBreak then p.indentTo indent else p
      literalLines indent false { p.put [c] with atIndent := false } rest

/-- Writes a scalar whose further lines are indented to a column. -/
def scalar (p : Pen) (s : Scalar) (indent : Nat) (asKey : Bool) : Pen :=
  let cs := Utf8.chars s.text
  let style := s.chooseStyle (Scalar.analyse cs) asKey
  let p := match s.tag with
    | some tag =>
      let p := if p.spaced then p else p.put [' ']
      { p.put (Utf8.chars tag) with spaced := false, atIndent := false }
    | none => p
  match style with
  | .plain =>
    let p := if !cs.isEmpty && !p.spaced then p.put [' '] else p
    { p.put cs with spaced := p.spaced && cs.isEmpty, atIndent := false }
  | .single =>
    let p := p.indicator "'" true false false
    let p := singleQuoted indent false p cs
    { p.put ['\''] with spaced := false, atIndent := false }
  | .double =>
    let p := p.indicator "\"" true false false
    let p := p.put (cs.flatMap Scalar.escaped)
    { p.put ['"'] with spaced := false, atIndent := false }
  | _ =>
    let p := p.indicator "|" true false false
    let p := p.indicator (Scalar.blockHints cs) false false false
    literalLines indent true { p with spaced := true } cs

/-- The number of columns by which mappings are indented. -/
def step : Nat := 4

/-- The indentation of what stands in an item of a sequence, or in a pair of a mapping, that is
indented by `indent`. -/
def deeper (inItem : Bool) (indent : Nat) : Nat :=
  if inItem then indent + 2 else step * ((indent + step) / step)

/-- The longest key that stands on a line with its value, in bytes. -/
def maxSimpleKey : Nat := 128

/-- Whether a key can stand on a line with its value. -/
def isSimpleKey (s : Scalar) : Bool :=
  !(Scalar.analyse (Utf8.chars s.text)).multiline &&
    s.text.length + (s.tag.getD []).length ≤ maxSimpleKey

mutual

/-- Writes a document whose surroundings are indented by `indent`; `inItem` says that it stands in
an item of a sequence. -/
def document (inItem : Bool) (indent : Nat) : Document → Pen → Pen
  | .scalar s, p => p.scalar s (deeper inItem indent) false
  | .sequence [], p => (p.indicator "[" true true false).indicator "]" false false false
  | .mapping [], p => (p.indicator "\x7b" true true false).indicator "\x7d" false false false
  | .sequence (d :: rest), p => items (deeper inItem indent) (d :: rest) p
  | .mapping (kv :: rest), p => pairs (deeper inItem indent) (kv :: rest) p

/-- Writes the items of a sequence that is indented by `indent`. -/
def items (indent : Nat) : List Document → Pen → Pen
  | [], p => p
  | d :: rest, p =>
    let p := (p.indentTo indent).indicator "-" true false true
    items indent rest (document true indent d p)

/-- Writes the pairs of a mapping that is indented by `indent`. -/
def pairs (indent : Nat) : List (Scalar × Document) → Pen → Pen
  | [], p => p
  | (k, d) :: rest, p =>
    let p := p.indentTo indent
    let p :=
      if isSimpleKey k then
        (p.scalar k (deeper false indent) true).indicator ":" false false false
      else
        let p := (p.indicator "?" true false true).scalar k (deeper false indent) false
        (p.indentTo indent).indicator ":" true false true
    pairs indent rest (document false indent d p)

end

/-- The text of a document whose pairs start in the first column. -/
def render : Document → Bytes
  | .mapping (kv :: rest) => (finish (pairs 0 (kv :: rest) {})).text
  | .sequence (d :: rest) => (finish (items 0 (d :: rest) {})).text
  | .scalar s => (finish (Pen.scalar {} s step false)).text
  | d => (finish (document false 0 d {})).text
where
  /-- Ends the last line. -/
  finish (p : Pen) : Pen := if p.atIndent && p.column == 0 then p else p.newLine

end Pen

/-- The text of a document. -/
def Document.render (d : Document) : Bytes := Pen.render d

end Linewise.Yaml
