import Linewise.Base64
import Linewise.Value
import Linewise.Yaml.Token

/-!
# Tags

The tag of a node names its type. A plain scalar without a tag of its own gets one by the look of
its text; `Tag.resolve` also gives the value.
-/

namespace Linewise.Yaml

/-- The type of a node. -/
inductive Tag where
  | null
  | bool
  | int
  | float
  | str
  | timestamp
  | binary
  | merge
  | seq
  | map
  | other (name : Bytes)
  deriving DecidableEq, Repr

namespace Tag

/-- The tags of the core types with their short names. -/
def table : List (Bytes × Tag) :=
  [(utf8 "!!null", null), (utf8 "!!bool", bool), (utf8 "!!int", int), (utf8 "!!float", float),
    (utf8 "!!str", str), (utf8 "!!timestamp", timestamp), (utf8 "!!binary", binary),
    (utf8 "!!merge", merge), (utf8 "!!seq", seq), (utf8 "!!map", map)]

/-- What the full names of the core types start with. -/
def coreStem : Bytes := utf8 "tag:yaml.org,2002:"

/-- The tag with a name, which may be short or full. -/
def ofName (name : Bytes) : Tag :=
  let short := match Bytes.dropHead? coreStem name with
    | some rest => utf8 "!!" ++ rest
    | none => name
  (table.lookup short).getD (other short)

/-- The short name of a tag. -/
def name : Tag → Bytes
  | null => utf8 "!!null"
  | bool => utf8 "!!bool"
  | int => utf8 "!!int"
  | float => utf8 "!!float"
  | str => utf8 "!!str"
  | timestamp => utf8 "!!timestamp"
  | binary => utf8 "!!binary"
  | merge => utf8 "!!merge"
  | seq => utf8 "!!seq"
  | map => utf8 "!!map"
  | other name => name

end Tag

namespace Resolve

/-- The texts with a meaning of their own. -/
def words : List (String × Tag × Value) :=
  [("true", .bool, .bool true), ("True", .bool, .bool true), ("TRUE", .bool, .bool true),
    ("false", .bool, .bool false), ("False", .bool, .bool false), ("FALSE", .bool, .bool false),
    ("", .null, .null), ("~", .null, .null), ("null", .null, .null), ("Null", .null, .null),
    ("NULL", .null, .null),
    (".nan", .float, .float Double.nan), (".NaN", .float, .float Double.nan),
    (".NAN", .float, .float Double.nan),
    (".inf", .float, .float (Double.infinity false)),
    (".Inf", .float, .float (Double.infinity false)),
    (".INF", .float, .float (Double.infinity false)),
    ("+.inf", .float, .float (Double.infinity false)),
    ("+.Inf", .float, .float (Double.infinity false)),
    ("+.INF", .float, .float (Double.infinity false)),
    ("-.inf", .float, .float (Double.infinity true)),
    ("-.Inf", .float, .float (Double.infinity true)),
    ("-.INF", .float, .float (Double.infinity true))]

/-- The meaning of a text that has one of its own. -/
def word? (text : Bytes) : Option (Tag × Value) :=
  (words.find? fun (w, _) => utf8 w == text).map Prod.snd

/-- An integer written in one base throughout, with an optional sign. -/
def inBase? (base : Nat) (text : Bytes) : Option Int :=
  let (negative, digits) := Number.splitSign text
  if digits.isEmpty then none
  else
    match Number.readDigits base 0 digits with
    | .ok n =>
      match Number.fit negative n with
      | .ok v => some v
      | .error _ => if digits.length == text.length then some n else none
    | .error _ => none

/-- An integer after a marker of its base, which may have a sign on either side. -/
def marked? (marker : String) (base : Nat) (text : Bytes) : Option Int :=
  match Bytes.dropHead? (utf8 marker) text with
  | some rest => inBase? base rest
  | none =>
    match Bytes.dropHead? (utf8 ("-" ++ marker)) text with
    | some rest => inBase? base (45 :: rest)
    | none => none

/-- The integer that a text without underscores spells. Positive integers may take all of 64
bits. -/
def integer? (plain : Bytes) : Option Int :=
  match Number.integer plain with
  | .ok n => some n
  | .error _ =>
    match Number.magnitude plain with
    | .ok n => some n
    | .error _ => none

/-- The number that a text spells which starts with a digit or a sign. -/
def number? (text : Bytes) : Option (Tag × Value) :=
  let plain := text.filter (· != 95)
  match integer? plain with
  | some n => some (.int, .int n)
  | none =>
    match (Number.floatText? plain).bind Number.FloatText.value? with
    | some d => some (.float, .float d)
    | none =>
      match marked? "0b" 2 plain, marked? "0o" 8 plain with
      | some n, _ => some (.int, .int n)
      | none, some n => some (.int, .int n)
      | none, none => none

/-- The number that a text spells which starts with a point. -/
def pointed? (text : Bytes) : Option (Tag × Value) :=
  if Number.underscoresFrom '^' false text then
    ((Number.floatText? (text.filter (· != 95))).bind Number.FloatText.value?).map fun d =>
      (.float, .float d)
  else none

/-- The tag and the value of a text by its look. Texts that look like points in time count as such
only when `timely` is set. -/
def byLook (timely : Bool) (text : Bytes) : Tag × Value :=
  match word? text with
  | some found => found
  | none =>
    match text with
    | [] => (.null, .null)
    | b :: _ =>
      if Bytes.isDigit b || b == 43 || b == 45 then
        match if timely then Timestamp.read? text else none with
        | some t => (.timestamp, .time t)
        | none => (number? text).getD (.str, .string text)
      else if b == 46 then (pointed? text).getD (.str, .string text)
      else (.str, .string text)

end Resolve

namespace Tag

/-- The tag of a plain scalar without a tag of its own. -/
def ofText (text : Bytes) : Tag := (Resolve.byLook true text).1

/-- The type and value of a scalar with a tag. A tag of a core type must fit the text; an integer
below `2 ^ 63` may also be a floating-point number. -/
def resolve (tag : Tag) (text : Bytes) : Except Problem (Tag × Value) :=
  match tag with
  | str => .ok (str, .string text)
  | binary =>
    match Base64.decode? text with
    | some bs => .ok (binary, .string bs)
    | none => .error .base64
  | null => ofLook false
  | bool => ofLook false
  | int => ofLook false
  | timestamp => ofLook true
  | float =>
    match Resolve.byLook false text with
    | (.float, v) => .ok (float, v)
    | (.int, .int n) =>
      if n ≤ Number.maxInt then
        .ok (float, .float ((Double.ofDecimal? (n < 0) n.natAbs 0).getD Double.nan))
      else .error .scalarTag
    | _ => .error .scalarTag
  | other _ => .ok (tag, .string text)
  | merge => .ok (tag, .string text)
  | seq => .ok (tag, .string text)
  | map => .ok (tag, .string text)
where
  ofLook (timely : Bool) : Except Problem (Tag × Value) :=
    let found := Resolve.byLook timely text
    if found.1 = tag then .ok found else .error .scalarTag

end Tag

end Linewise.Yaml
