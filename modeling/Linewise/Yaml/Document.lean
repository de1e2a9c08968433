import Linewise.Base64
import Linewise.Unicode.Category
import Linewise.Yaml.Tag

/-!
# Documents to write

A document as it is written: scalars with the style that they ask for, sequences, and mappings whose
pairs have their final order.
-/

namespace Linewise.Yaml

/-- A scalar to write. -/
structure Scalar where
  text : Bytes
  style : Style := .plain
  /-- A tag that is written in front of the scalar. -/
  tag : Option Bytes := none
  deriving DecidableEq, Repr

/-- A document to write. -/
inductive Document where
  | scalar (s : Scalar)
  | sequence (items : List Document)
  | mapping (pairs : List (Scalar × Document))
  deriving Repr

namespace Scalar

/-- Whether a text looks like a number in base 60, such as `1:30`, which older readers take it
for. -/
def isSexagesimal (text : Bytes) : Bool :=
  let digits := (Number.splitSign text).2
  let head := digits.takeWhile fun b => Bytes.isDigit b || b == 95
  head.head?.any Bytes.isDigit && groups (digits.drop head.length) false
where
  /-- Groups of a colon and a number below 60, at least one of them, and then possibly a point with
  digits and underscores. -/
  groups : Bytes → Bool → Bool
    | [], found => found
    | 46 :: rest, found => found && rest.all fun b => Bytes.isDigit b || b == 95
    | [58, a], _ => Bytes.isDigit a
    | 58 :: a :: b :: rest, _ =>
      if Bytes.isDigit b then 48 ≤ a && a ≤ 53 && groups rest true
      else Bytes.isDigit a && groups (b :: rest) true
    | _, _ => false

/-- The words that older readers take for truth values. -/
def isOldFlag (text : Bytes) : Bool :=
  ["y", "Y", "yes", "Yes", "YES", "on", "On", "ON", "n", "N", "no", "No", "NO", "off", "Off",
    "OFF"].any fun w => utf8 w == text

/-- Whether a text without quotes would be read as that text. -/
def standsPlain (text : Bytes) : Bool :=
  Tag.ofText text == .str && !isSexagesimal text && !isOldFlag text

/-- The number of characters on a line of base-64 text. -/
def base64Line : Nat := 70

/-- Text cut into lines of a length; each line ends with a line feed. -/
def cutLines (length : Nat) : Nat → Bytes → Bytes
  | 0, _ => []
  | fuel + 1, text =>
    if text.isEmpty then []
    else text.take length ++ [Bytes.newline] ++ cutLines length fuel (text.drop length)

/-- Base-64 text, on lines of its own when it is long. -/
def base64Text (bytes : Bytes) : Bytes :=
  let text := Base64.encode bytes
  if text.length < base64Line then text else cutLines base64Line text.length text

/-- The scalar for a text. Invalid UTF-8 becomes base 64, several lines a block, and a text that
would be read as something else gets double quotes. -/
def ofText (text : Bytes) : Scalar :=
  if !Utf8.isValid text then
    let coded := base64Text text
    { text := coded, style := if coded.contains Bytes.newline then .literal else .plain,
      tag := some (utf8 "!!binary") }
  else if text.contains Bytes.newline then { text := text, style := .literal }
  else if standsPlain text then { text := text }
  else { text := text, style := .double }

end Scalar

/-- The scalar for the text of a floating-point number. -/
def floatText (d : Double) : Bytes :=
  if d.isNan then utf8 ".nan"
  else if d.isInfinite then utf8 (if d.isNegative then "-.inf" else ".inf")
  else d.text

namespace KeyOrder

def isDigit (c : Char) : Bool := Unicode.generalCategory c.toNat == "Nd"

def isLetter (c : Char) : Bool := (Unicode.generalCategory c.toNat).startsWith "L"

/-- The number that the digits at the start of a text spell after the digits `start`, and how many
digits there are. Numbers wrap at 64 bits. -/
def leadingNumber (start : Int64) (cs : List Char) : Int64 × Nat :=
  let digits := cs.takeWhile isDigit
  (digits.foldl (fun n c => n * 10 + Int64.ofInt ((c.toNat : Int) - 48)) start, digits.length)

/-- Whether one text goes before another in natural order, given that they agree in the characters
`before`, latest first: letters by code point, other characters before letters, and numbers by
value. -/
def textLess (before : List Char) : List Char → List Char → Bool
  | [], [] => false
  | [], _ :: _ => true
  | _ :: _, [] => false
  | a :: as, b :: bs =>
    if a == b then textLess (a :: before) as bs
    else if isLetter a && isLetter b then a < b
    else if isLetter a || isLetter b then
      if before.head?.any isDigit then isLetter a else isLetter b
    else
      let nonzero := (a == '0' || b == '0') && (before.takeWhile isDigit).any (· != '0')
      let start : Int64 := if nonzero then 1 else 0
      let (x, m) := leadingNumber start (a :: as)
      let (y, n) := leadingNumber start (b :: bs)
      if x != y then x < y
      else if m != n then m < n
      else a < b

/-- The place of the kind of a key among the kinds. -/
def rank : Value → Nat
  | .bool _ => 1
  | .int n => if n ≤ Number.maxInt then 2 else 11
  | .float _ => 14
  | .null => 20
  | .map _ => 21
  | .list _ => 23
  | .string _ => 24
  | .time _ => 25

/-- A number, or a truth value as one, rounded to a double. -/
def number? : Value → Option Double
  | .bool b => Double.ofDecimal? false (if b then 1 else 0) 0
  | .int n => Double.ofDecimal? (n < 0) n.natAbs 0
  | .float d => some d
  | _ => none

/-- Whether one double is less than another. -/
def floatLess (a b : Double) : Bool :=
  !a.isNan && !b.isNan && !Value.floatLe b a

/-- Whether one key goes before another: numbers by value, texts in natural order, and other kinds
by kind. -/
def less (a b : Value) : Bool :=
  match number? a, number? b with
  | some x, some y =>
    if floatLess x y then true
    else if floatLess y x || x.isNan || y.isNan then false
    else if rank a != rank b then rank a < rank b
    else
      match a, b with
      | .int m, .int n => m < n
      | .bool p, .bool q => !p && q
      | _, _ => false
  | _, _ =>
    match a, b with
    | .string s, .string t => textLess [] (Utf8.chars s) (Utf8.chars t)
    | a, b => rank a < rank b

/-- The order in which keys are written. -/
def le (a b : Value) : Bool := !less b a

end KeyOrder

/-- The scalar for a value that is no collection. -/
def Scalar.ofValue : Value → Scalar
  | .null => { text := utf8 "null" }
  | .bool b => { text := utf8 (if b then "true" else "false") }
  | .int n => { text := Bytes.ofInt n }
  | .float d => { text := floatText d }
  | .string s => Scalar.ofText s
  | .time t => { text := t.internet }
  | .list _ => { text := [] }
  | .map _ => { text := [] }

mutual

/-- The document for a value; the keys of a map are sorted. -/
def Document.ofValue : Value → Document
  | .list items => .sequence (ofItems items)
  | .map pairs => .mapping (((ofPairs pairs).mergeSort fun a b => KeyOrder.le a.1 b.1).map Prod.snd)
  | v => .scalar (Scalar.ofValue v)

def Document.ofItems : List Value → List Document
  | [] => []
  | v :: rest => ofValue v :: ofItems rest

/-- The pairs of a map with the keys that say where they go. -/
def Document.ofPairs : List (Value × Value) → List (Value × Scalar × Document)
  | [] => []
  | (k, v) :: rest => (k, Scalar.ofValue k, ofValue v) :: ofPairs rest

end

end Linewise.Yaml
