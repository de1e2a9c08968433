import Linewise.Pattern.CharSet

/-!
# Search patterns

A search pattern is a regular expression with assertions about the neighbourhood of a position.
`Pattern.Matches` says which stretches of a text a pattern describes and `Pattern.Occurs` whether
some stretch of a text is among them. `Pattern.search` decides it by running through the text once
with the set of pattern remainders that are still possible.
-/

namespace Linewise

/-- Conditions on a position between two characters. -/
inductive Pattern.Assertion where
  | textStart
  | textEnd
  | lineStart
  | lineEnd
  | wordBoundary
  | notWordBoundary
  deriving DecidableEq, Repr

/-- A search pattern. -/
inductive Pattern where
  | empty
  | literal (code : Nat)
  | set (s : Pattern.CharSet)
  | assertion (a : Pattern.Assertion)
  | concat (p q : Pattern)
  | either (p q : Pattern)
  /-- From `min` to `max` times `p`; no `max` means no bound. -/
  | repeated (p : Pattern) (min : Nat) (max : Option Nat)
  deriving DecidableEq, Repr

namespace Pattern

/-- ASCII letters, digits and the underscore. -/
def isWordChar (c : Char) : Bool :=
  c.isAlphanum || c == '_'

/-- Whether a character is present and a word character. -/
def wordAt : Option Char → Bool
  | some c => isWordChar c
  | none => false

/-- Whether an assertion holds between the neighbours `before` and `after`. -/
def Assertion.holds : Assertion → (before after : Option Char) → Bool
  | textStart, before, _ => before.isNone
  | textEnd, _, after => after.isNone
  | lineStart, before, _ => before.isNone || before == some '\n'
  | lineEnd, _, after => after.isNone || after == some '\n'
  | wordBoundary, before, after => wordAt before != wordAt after
  | notWordBoundary, before, after => wordAt before == wordAt after

/-- The character before the end of `s`, when `before` stands in front of it. -/
def lastOr (before : Option Char) (s : List Char) : Option Char := s.getLast?.or before

/-- The character after the start of `s`, when `after` stands behind it. -/
def firstOr (s : List Char) (after : Option Char) : Option Char := s.head?.or after

/-- `Matches p before s after`: the pattern `p` describes the stretch `s` between the neighbours
`before` and `after`. -/
inductive Matches : Pattern → Option Char → List Char → Option Char → Prop where
  | empty {before after} : Matches .empty before [] after
  | literal {before after c} : Matches (.literal c.toNat) before [c] after
  | set {before after c} {s : CharSet} : s.holds c.toNat = true →
      Matches (.set s) before [c] after
  | assertion {before after a} : a.holds before after = true →
      Matches (.assertion a) before [] after
  | concat {p q before after s t} : Matches p before s (firstOr t after) →
      Matches q (lastOr before s) t after → Matches (.concat p q) before (s ++ t) after
  | left {p q before after s} : Matches p before s after → Matches (.either p q) before s after
  | right {p q before after s} : Matches q before s after → Matches (.either p q) before s after
  | stop {p max before after} : Matches (.repeated p 0 max) before [] after
  | again {p min max before after s t} : max ≠ some 0 →
      Matches p before s (firstOr t after) →
      Matches (.repeated p (min - 1) (max.map (· - 1))) (lastOr before s) t after →
      Matches (.repeated p min max) before (s ++ t) after

/-- Whether some stretch of `text` is described by `p`. -/
def Occurs (p : Pattern) (text : List Char) : Prop :=
  ∃ a s b, text = a ++ s ++ b ∧ Matches p a.getLast? s b.head?

/-- Whether `p` describes the empty stretch between two neighbours. -/
def nullable : Pattern → (before after : Option Char) → Bool
  | .empty, _, _ => true
  | .literal _, _, _ => false
  | .set _, _, _ => false
  | .assertion a, before, after => a.holds before after
  | .concat p q, before, after => p.nullable before after && q.nullable before after
  | .either p q, before, after => p.nullable before after || q.nullable before after
  | .repeated p min max, before, after =>
    min == 0 || (p.nullable before after && (max.all (min ≤ ·)))

/-- What may remain of `p` after the character `c`, each remainder a list of patterns to be matched
one after the other. -/
def remainders : Pattern → (before : Option Char) → (c : Char) → List (List Pattern)
  | .empty, _, _ => []
  | .literal code, _, c => if c.toNat == code then [[]] else []
  | .set s, _, c => if s.holds c.toNat then [[]] else []
  | .assertion _, _, _ => []
  | .concat p q, before, c =>
    (p.remainders before c).map (· ++ [q]) ++
      (if p.nullable before (some c) then q.remainders before c else [])
  | .either p q, before, c => p.remainders before c ++ q.remainders before c
  | .repeated p min max, before, c =>
    if max.any fun m => m == 0 || m < min then []
    else
      let rest : Pattern :=
        .repeated p (if p.nullable before (some c) then 0 else min - 1) (max.map (· - 1))
      (p.remainders before c).map (· ++ [rest])

/-- What may remain of a list of patterns after the character `c`. -/
def listRemainders : List Pattern → (before : Option Char) → (c : Char) → List (List Pattern)
  | [], _, _ => []
  | p :: ps, before, c =>
    (p.remainders before c).map (· ++ ps) ++
      (if p.nullable before (some c) then listRemainders ps before c else [])

/-- Whether a list of patterns describes the empty stretch. -/
def listNullable (ps : List Pattern) (before after : Option Char) : Bool :=
  ps.all (·.nullable before after)

/-- Runs through `text` with the remainders `states` of attempts begun earlier, beginning a new
attempt at every position. -/
def searchFrom (p : Pattern) : List (List Pattern) → Option Char → List Char → Bool
  | states, before, text =>
    let now := [p] :: states
    if now.any (listNullable · before text.head?) then true
    else
      match text with
      | [] => false
      | c :: rest =>
        searchFrom p (now.flatMap (listRemainders · before c)).eraseDups (some c) rest

/-- Whether `p` describes some stretch of `text`. -/
def search (p : Pattern) (text : List Char) : Bool := searchFrom p [] none text

/-- Whether `p` describes some stretch of a byte string, in which every stray byte counts as
U+FFFD. -/
def occursIn (p : Pattern) (text : Bytes) : Bool := p.search (Utf8.chars text)

end Pattern

end Linewise
