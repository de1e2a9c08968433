import Linewise.Utf8
import Linewise.Yaml.Problem

/-!
# The text of a document

A document is read as a list of characters with a position. Documents come in UTF-8, or in UTF-16
when a byte order mark says so, and hold no control characters but tabs and line breaks.
-/

namespace Linewise.Yaml

/-- A space or a tab. -/
def isBlank (c : Char) : Bool := c == ' ' || c == '\t'

/-- The characters that end a line. -/
def isBreak (c : Char) : Bool :=
  c == '\n' || c == '\r' || c == '\x85' || c == '\u2028' || c == '\u2029'

def isSpacing (c : Char) : Bool := isBlank c || isBreak c

def byteOrderMark : Char := '\uFEFF'

/-- The characters that a document may hold. -/
def isAllowed (c : Char) : Bool :=
  let n := c.toNat
  n == 9 || n == 10 || n == 13 || (0x20 ≤ n && n ≤ 0x7E) || n == 0x85
    || (0xA0 ≤ n && n ≤ 0xD7FF) || (0xE000 ≤ n && n ≤ 0xFFFD) || 0x10000 ≤ n

/-- The 16-bit units of a text; `none` when a byte is left over. -/
def units? (bigEndian : Bool) : Bytes → Option (List Nat)
  | [] => some []
  | [_] => none
  | a :: b :: rest =>
    (units? bigEndian rest).map fun us =>
      (if bigEndian then a.toNat * 256 + b.toNat else b.toNat * 256 + a.toNat) :: us

/-- The characters of 16-bit units; surrogates must come in pairs. -/
def charsOfUnits? : List Nat → Option (List Char)
  | [] => some []
  | u :: rest =>
    if 0xDC00 ≤ u && u ≤ 0xDFFF then none
    else if 0xD800 ≤ u && u ≤ 0xDBFF then
      match rest with
      | v :: more =>
        if 0xDC00 ≤ v && v ≤ 0xDFFF then
          (charsOfUnits? more).map
            (Char.ofNat (0x10000 + (u - 0xD800) * 0x400 + (v - 0xDC00)) :: ·)
        else none
      | [] => none
    else (charsOfUnits? rest).map (Char.ofNat u :: ·)

/-- The characters of a document, without a byte order mark at its start. -/
def decodeText? (text : Bytes) : Option (List Char) :=
  match text with
  | 0xFF :: 0xFE :: rest => (units? false rest).bind charsOfUnits?
  | 0xFE :: 0xFF :: rest => (units? true rest).bind charsOfUnits?
  | 0xEF :: 0xBB :: 0xBF :: rest => if Utf8.isValid rest then some (Utf8.chars rest) else none
  | text => if Utf8.isValid text then some (Utf8.chars text) else none

/-- A position in a document: the characters ahead, how many were read, the number of the line and
the number of characters before the position in it. -/
structure Source where
  rest : List Char
  index : Nat := 0
  line : Nat := 1
  column : Nat := 0
  deriving Repr

namespace Source

/-- The start of a document. -/
def ofText (text : Bytes) : Except Problem Source :=
  match decodeText? text with
  | none => .error .encoding
  | some cs => if cs.all isAllowed then .ok { rest := cs } else .error .controlCharacter

def peek? (s : Source) : Option Char := s.rest.head?

def atEnd (s : Source) : Bool := s.rest.isEmpty

/-- Whether the next character is `c`. -/
def sees (s : Source) (c : Char) : Bool := s.rest.head? == some c

/-- Whether a blank, a line break or the end comes after `n` more characters. -/
def spacingAt (s : Source) (n : Nat) : Bool := (s.rest[n]?).all isSpacing

/-- The position after one character that ends no line. -/
def skip (s : Source) : Source :=
  { s with rest := s.rest.drop 1, index := s.index + 1, column := s.column + 1 }

/-- The position after `n` characters that end no line. -/
def skipMany (s : Source) (n : Nat) : Source :=
  { s with rest := s.rest.drop n, index := s.index + n, column := s.column + n }

/-- The position after the line break ahead, and what the break counts as: the two Unicode
separators stand for themselves and every other break for a line feed. -/
def readBreak (s : Source) : List Char × Source :=
  let past (n : Nat) : Source :=
    { rest := s.rest.drop n, index := s.index + n, line := s.line + 1, column := 0 }
  match s.rest with
  | '\r' :: '\n' :: _ => (['\n'], past 2)
  | c :: _ =>
    if c == '\u2028' || c == '\u2029' then ([c], past 1)
    else if isBreak c then (['\n'], past 1)
    else ([], s)
  | [] => ([], s)

/-- The position after the line break ahead. -/
def skipBreak (s : Source) : Source := s.readBreak.2

/-- The characters ahead that satisfy `p`, none of them a line break, and the position after
them. -/
def takeWhile (s : Source) (p : Char → Bool) : List Char × Source :=
  let taken := s.rest.takeWhile fun c => p c && !isBreak c
  (taken, s.skipMany taken.length)

/-- The position after the characters ahead that satisfy `p`. -/
def dropWhile (s : Source) (p : Char → Bool) : Source := (s.takeWhile p).2

/-- The position at the end of the line. -/
def dropLine (s : Source) : Source := s.dropWhile fun _ => true

/-- Whether a mark of three characters `c` stands at the start of the line here. -/
def seesMark (s : Source) (c : Char) : Bool :=
  s.column == 0 && (s.rest.take 3 == [c, c, c]) && s.spacingAt 3

/-- Whether a document ends or starts here. -/
def atDocumentMark (s : Source) : Bool := s.seesMark '-' || s.seesMark '.'

end Source

end Linewise.Yaml
