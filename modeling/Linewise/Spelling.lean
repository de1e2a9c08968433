import Linewise.Unicode.Folding

/-!
# Spelling

How far a mistyped word is from a known one: the number of bytes to insert, to delete or to change.
-/

namespace Linewise.Spelling

/-- A word in small letters. -/
def small (word : Bytes) : Bytes :=
  Utf8.encode ((Utf8.chars word).map fun c => Char.ofNat (Unicode.small c.toNat))

/-- The next row of the table of distances: `row` holds the distances from what was read of a word
before `b` to the heads of `other`, longest head last, and the result those after `b`. `left` is the
distance to the head before. -/
def nextRow (b : UInt8) (left : Nat) : Bytes → List Nat → List Nat
  | c :: other, above :: next :: row =>
    let here := if b == c then above else 1 + min (min left next) above
    here :: nextRow b here other (next :: row)
  | _, _ => []

/-- The number of insertions, deletions and changes of bytes that lead from one word to another. -/
def distance (word other : Bytes) : Nat :=
  let start := List.range (other.length + 1)
  let last := word.foldl (fun row b =>
    let first := row.headD 0 + 1
    first :: nextRow b first other row) start
  last.getLastD 0

/-- The greatest distance of a suggestion from the word. -/
def reach : Nat := 2

/-- Whether a known word is likely meant by a word: it is close or goes on after it. -/
def suggests (word known : Bytes) : Bool :=
  distance (small word) known ≤ reach || (small word).isPrefixOf known

end Linewise.Spelling
