import Linewise.Glob.Text
import Linewise.Utf8

/-!
# Matching names

What a glob pattern without slashes and braces matches: `*` any characters, `?` any one character,
and a class one of its characters, or one that is not among them.
-/

namespace Linewise.Glob

/-- A piece of a pattern for names. -/
inductive Piece where
  | literal (c : Char)
  | one
  | star
  /-- A character in one of some ranges, or in none of them. -/
  | range (negated : Bool) (ranges : List (Char × Char))
  deriving DecidableEq, Repr

/-- Reads the ranges of a class up to its end. `last` is the character that a dash would make the
start of a range. The fuel is the length of the text. -/
def readRanges : Nat → Option Char → List Char → List (Char × Char) × List Char
  | 0, _, cs => ([], cs)
  | _ + 1, _, [] => ([], [])
  | fuel + 1, last, c :: rest =>
    if c == ']' then ([], rest)
    else
      match last, rest with
      | some lo, d :: more =>
        if c == '-' && d != ']' then
          let (hi, more) := if d == '\\' then (more.head?.getD d, more.drop 1) else (d, more)
          let (ranges, after) := readRanges fuel none more
          ((lo, hi) :: ranges, after)
        else single fuel c rest
      | _, _ => single fuel c rest
where
  /-- A single character, possibly after a backslash. -/
  single (fuel : Nat) (c : Char) (rest : List Char) : List (Char × Char) × List Char :=
    let (c, rest) := if c == '\\' then (rest.head?.getD c, rest.drop 1) else (c, rest)
    let (ranges, after) := readRanges fuel (some c) rest
    ((c, c) :: ranges, after)

/-- The pieces of a pattern. The fuel is the length of the text. -/
def piecesFrom : Nat → List Char → List Piece
  | 0, _ => []
  | _ + 1, [] => []
  | fuel + 1, c :: rest =>
    if c == '*' then .star :: piecesFrom fuel rest
    else if c == '?' then .one :: piecesFrom fuel rest
    else if c == '[' then
      let negated := rest.head? == some '!' || rest.head? == some '^'
      let body := if negated then rest.drop 1 else rest
      let (ranges, after) := readRanges (body.length + 1) none body
      .range negated ranges :: piecesFrom fuel after
    else if c == '\\' then
      match rest with
      | d :: more => .literal d :: piecesFrom fuel more
      | [] => []
    else .literal c :: piecesFrom fuel rest

/-- The pieces of a pattern. -/
def pieces (pattern : Bytes) : List Piece :=
  let cs := Utf8.chars pattern
  piecesFrom (cs.length + 1) cs

/-- Whether a piece other than a star matches a character. -/
def Piece.matchesChar : Piece → Char → Bool
  | literal c, d => c == d
  | one, _ => true
  | star, _ => false
  | range negated ranges, d => (ranges.any fun (lo, hi) => lo ≤ d && d ≤ hi) != negated

/-- The ends of a list, from the whole list to the empty one. -/
def ends {α : Type} : List α → List (List α)
  | [] => [[]]
  | x :: xs => (x :: xs) :: ends xs

/-- Whether pieces match a name. A star, or two stars side by side, match any characters; at the end
of the name no more than two stars may be left. -/
def matchesChars : List Piece → List Char → Bool
  | [], name => name.isEmpty
  | .star :: .star :: rest, name =>
    if name.isEmpty then rest.isEmpty else (ends name).any (matchesChars rest)
  | .star :: rest, name =>
    if name.isEmpty then rest.isEmpty else (ends name).any (matchesChars rest)
  | _ :: _, [] => false
  | p :: rest, c :: name => p.matchesChar c && matchesChars rest name

/-- Whether a pattern matches the name of a directory entry. -/
def matchesName (pattern name : Bytes) : Bool := matchesChars (pieces pattern) (Utf8.chars name)

end Linewise.Glob
