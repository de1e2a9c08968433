import Linewise.Path

/-!
# The text of glob patterns

In a glob pattern `*`, `?`, `[` and `{` have a meaning of their own, and a backslash takes the meaning
from the character after it. This module takes the text of patterns apart; what they match is said
elsewhere.
-/

namespace Linewise.Glob

def backslash : UInt8 := 92

def star : UInt8 := 42

def comma : UInt8 := 44

def openBrace : UInt8 := 123

def closeBrace : UInt8 := 125

def openBracket : UInt8 := 91

def closeBracket : UInt8 := 93

/-- The bytes that make a text a pattern: `*`, `?`, `[` and the opening brace. -/
def isMeta (b : UInt8) : Bool := b == star || b == 63 || b == openBracket || b == openBrace

/-- What follows a class of characters, given what follows its first character; `none` when the
class has no end. -/
def afterClass? : Bytes → Option Bytes
  | [] => none
  | [b] => if b == closeBracket then some [] else none
  | b :: c :: rest =>
    if b == backslash then afterClass? rest
    else if b == closeBracket then some (c :: rest)
    else afterClass? (c :: rest)

/-- What follows the opening bracket of a class, without a sign of negation. -/
def afterNegation : Bytes → Bytes
  | b :: rest => if b == 94 || b == 33 then rest else b :: rest
  | [] => []

/-- Whether a text is a well-formed pattern, given the number of open braces: classes end and are
not empty, braces are balanced, and a backslash has something after it. The fuel is the length of
the text. -/
def isValidFrom : Nat → Nat → Bytes → Bool
  | 0, depth, _ => depth == 0
  | _ + 1, depth, [] => depth == 0
  | fuel + 1, depth, b :: rest =>
    if b == backslash then
      match rest with
      | _ :: rest => isValidFrom fuel depth rest
      | [] => false
    else if b == openBracket then
      let body := afterNegation rest
      if body.head? == some closeBracket then false
      else
        match afterClass? body with
        | some rest => isValidFrom fuel depth rest
        | none => false
    else if b == openBrace then isValidFrom fuel (depth + 1) rest
    else if b == closeBrace then depth != 0 && isValidFrom fuel (depth - 1) rest
    else isValidFrom fuel depth rest

/-- Whether a text is a well-formed pattern. -/
def isValid (pattern : Bytes) : Bool := isValidFrom (pattern.length + 1) 0 pattern

/-- The place of the first byte that makes a text a pattern. -/
def firstMetaFrom (place : Nat) : Bytes → Option Nat
  | [] => none
  | [b] => if isMeta b then some place else none
  | b :: c :: rest =>
    if isMeta b then some place
    else if b == backslash then firstMetaFrom (place + 2) rest
    else firstMetaFrom (place + 1) (c :: rest)

def firstMeta? (pattern : Bytes) : Option Nat := firstMetaFrom 0 pattern

/-- The places of the bytes of a text that satisfy `p` and have no backslash right before them. -/
def unescapedPlaces (p : UInt8 → Bool) (before : UInt8) (place : Nat) : Bytes → List Nat
  | [] => []
  | b :: rest =>
    (if p b && before != backslash then [place] else []) ++ unescapedPlaces p b (place + 1) rest

/-- The place of the last byte that satisfies `p` and has no backslash right before it. -/
def lastPlace? (p : UInt8 → Bool) (pattern : Bytes) : Option Nat :=
  (unescapedPlaces p 0 0 pattern).getLast?

/-- The place of the opening brace that belongs to a closing brace right after a text, given the
brace places of the text from the last to the first and the number of braces to be opened. -/
def openingFrom (pattern : Bytes) : Nat → List Nat → Option Nat
  | _, [] => none
  | depth, place :: rest =>
    if pattern[place]? == some closeBrace then openingFrom pattern (depth + 1) rest
    else if depth ≤ 1 then some place
    else openingFrom pattern (depth - 1) rest

/-- The place of the opening brace that belongs to a closing brace right after a text. -/
def opening? (pattern : Bytes) : Option Nat :=
  openingFrom pattern 1
    (unescapedPlaces (fun b => b == openBrace || b == closeBrace) 0 0 pattern).reverse

/-- The alternatives between a pair of braces: the parts between the commas outside of inner braces.
`part` is the part so far, latest first. An empty last part is no alternative. -/
def alternativesFrom (depth : Nat) (part : Bytes) : Bytes → List Bytes
  | [] => if part.isEmpty then [] else [part.reverse]
  | [b] =>
    if b == comma && depth == 0 then [part.reverse] else [(b :: part).reverse]
  | b :: c :: rest =>
    if b == backslash then alternativesFrom depth (c :: b :: part) rest
    else if b == openBrace then alternativesFrom (depth + 1) (b :: part) (c :: rest)
    else if b == closeBrace then alternativesFrom (depth - 1) (b :: part) (c :: rest)
    else if b == comma && depth == 0 then part.reverse :: alternativesFrom 0 [] (c :: rest)
    else alternativesFrom depth (b :: part) (c :: rest)

/-- The alternatives between a pair of braces. -/
def alternatives (body : Bytes) : List Bytes := alternativesFrom 0 [] body

/-- A pattern without the backslashes that take the meaning from a special byte. -/
def unescape : Bytes → Bytes
  | [] => []
  | [b] => [b]
  | b :: c :: rest =>
    if b == backslash && (isMeta c || c == closeBracket || c == closeBrace) then c :: unescape rest
    else b :: unescape (c :: rest)

/-- Whether two stars stand side by side with at least one byte after them. -/
def hasInnerDoubleStar : Bytes → Bool
  | b :: c :: d :: rest =>
    if b == backslash then hasInnerDoubleStar (d :: rest)
    else (b == star && c == star) || hasInnerDoubleStar (c :: d :: rest)
  | _ => false

/-- The place of the last slash before everything that makes a text a pattern. -/
def baseEnd (last : Option Nat) (place : Nat) : Bytes → Option Nat
  | [] => last
  | [b] => if b == Path.slash then some place else last
  | b :: c :: rest =>
    if b == backslash then baseEnd last (place + 2) rest
    else if b == Path.slash then baseEnd (some place) (place + 1) (c :: rest)
    else if isMeta b then last
    else baseEnd last (place + 1) (c :: rest)

/-- The directory in which a pattern starts, and the pattern below it. -/
def splitBase (pattern : Bytes) : Bytes × Bytes :=
  match baseEnd none 0 pattern with
  | none => (Path.here, pattern)
  | some 0 => ([Path.slash], pattern.drop 1)
  | some n => (pattern.take n, pattern.drop (n + 1))

end Linewise.Glob
