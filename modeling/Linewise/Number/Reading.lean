import Linewise.Number.Double

/-!
# Reading numbers

Decimal, prefixed and floating-point numbers as they stand in settings, flags and configuration
files.
-/

namespace Linewise.Number

/-- The least and the greatest 64-bit integer. -/
def minInt : Int := -9223372036854775808

def maxInt : Int := 9223372036854775807

/-- A double as a 64-bit integer: its integer part, and the least integer when that is out of range
or there is none. -/
def ofDouble (d : Double) : Int :=
  if d.isNan || d.isInfinite || d.truncate < minInt || d.truncate > maxInt then minInt
  else d.truncate

/-- Why a text is not an integer. -/
inductive IntegerError where
  | badSyntax
  | outOfRange
  deriving DecidableEq, Repr

/-- The sign of a number and what follows it. -/
def splitSign : Bytes → Bool × Bytes
  | 45 :: rest => (true, rest)
  | 43 :: rest => (false, rest)
  | text => (false, text)

/-- A magnitude with its sign, when it fits 64 bits. -/
def fit (negative : Bool) (n : Nat) : Except IntegerError Int :=
  let v : Int := if negative then -(n : Int) else n
  if v < minInt || v > maxInt then .error .outOfRange else .ok v

/-- The number that the digits of a base spell. Reading stops with an error at the first foreign
byte, or earlier at the first digit with which the number leaves 64 bits. -/
def readDigits (base : Nat) : Nat → Bytes → Except IntegerError Nat
  | acc, [] => .ok acc
  | acc, b :: rest =>
    match Bytes.digitValue? b with
    | none => .error .badSyntax
    | some d =>
      if d ≥ base then .error .badSyntax
      else if acc * base + d ≥ 2 ^ 64 then .error .outOfRange
      else readDigits base (acc * base + d) rest

/-- A decimal integer with an optional sign. -/
def decimal (text : Bytes) : Except IntegerError Int :=
  let (negative, digits) := splitSign text
  if digits.isEmpty then .error .badSyntax
  else
    match readDigits 10 0 digits with
    | .ok n => fit negative n
    | .error e => .error e

/-- The base that a magnitude is written in, and its digits: `0x`, `0o`, `0b` and a plain leading
zero choose sixteen, eight, two and eight. -/
def splitBase (text : Bytes) : Nat × Bytes :=
  match text with
  | 48 :: c :: rest =>
    if c == 120 || c == 88 then (16, rest)
    else if c == 111 || c == 79 then (8, rest)
    else if c == 98 || c == 66 then (2, rest)
    else (8, c :: rest)
  | text => (10, text)

/-- Whether underscores stand only between digits or right after the base. `last` is the class of
the byte before: `d` digit, `_` underscore, `^` the start. -/
def underscoresFrom (last : Char) (hex : Bool) : Bytes → Bool
  | [] => last != '_'
  | b :: rest =>
    let digit := Bytes.isDigit b || (hex && 97 ≤ Bytes.lowerByte b && Bytes.lowerByte b ≤ 102)
    if digit then underscoresFrom 'd' hex rest
    else if b == 95 then last == 'd' && underscoresFrom '_' hex rest
    else last != '_' && underscoresFrom '!' hex rest

/-- Whether the underscores of a magnitude stand where they may. -/
def underscoresOk (text : Bytes) : Bool :=
  match text with
  | 48 :: c :: rest =>
    let l := Bytes.lowerByte c
    if l == 120 || l == 111 || l == 98 then underscoresFrom 'd' (l == 120) rest
    else underscoresFrom '^' false text
  | text => underscoresFrom '^' false text

/-- A magnitude in the base that its head chooses, underscores allowed between digits. -/
def magnitude (text : Bytes) : Except IntegerError Nat :=
  let (base, digits) := splitBase text
  let plain := digits.filter (· != 95)
  if text == [48] then .ok 0
  else if plain.isEmpty then .error .badSyntax
  else
    match readDigits base 0 plain with
    | .error e => .error e
    | .ok n =>
      if plain.length < digits.length && !underscoresOk text then .error .badSyntax else .ok n

/-- An integer in the base that its head chooses, with an optional sign. -/
def integer (text : Bytes) : Except IntegerError Int :=
  let (negative, rest) := splitSign text
  match magnitude rest with
  | .ok n => fit negative n
  | .error e => .error e

/-- A decimal floating-point text: sign, digits, point, digits and exponent. -/
structure FloatText where
  negative : Bool
  whole : Bytes
  fraction : Bytes
  exponent : Int

/-- The exponent after `e`, which must have digits. -/
def exponent? (text : Bytes) : Option Int :=
  let (negative, digits) := splitSign text
  (Bytes.natOfDigits? 10 digits).map fun n => if negative then -(n : Int) else n

/-- Takes a floating-point text apart; digits must stand before or after the point. -/
def floatText? (text : Bytes) : Option FloatText :=
  let (negative, rest) := splitSign text
  let whole := rest.takeWhile Bytes.isDigit
  let rest := rest.dropWhile Bytes.isDigit
  let (fraction, rest) := match rest with
    | 46 :: more => (more.takeWhile Bytes.isDigit, more.dropWhile Bytes.isDigit)
    | rest => ([], rest)
  if whole.isEmpty && fraction.isEmpty then none
  else
    match rest with
    | [] => some ⟨negative, whole, fraction, 0⟩
    | b :: more =>
      if b == 101 || b == 69 then
        (exponent? more).map fun e => ⟨negative, whole, fraction, e⟩
      else none

/-- The double nearest to a floating-point text; `none` when it is too large. -/
def FloatText.value? (f : FloatText) : Option Double :=
  let digits := (Bytes.natOfDigits? 10 (f.whole ++ f.fraction)).getD 0
  Double.ofDecimal? f.negative digits (f.exponent - f.fraction.length)

/-- A floating-point number, infinities and not-a-number included. -/
def float? (text : Bytes) : Option Double :=
  match floatText? text with
  | some f => f.value?
  | none =>
    let (negative, rest) := splitSign (Bytes.lower text)
    if rest == utf8 "inf" || rest == utf8 "infinity" then some (Double.infinity negative)
    else if Bytes.lower text == utf8 "nan" then some Double.nan
    else none

end Linewise.Number
