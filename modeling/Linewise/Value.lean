import Linewise.Number.Reading
import Linewise.Timestamp
import Linewise.Utf8

/-!
# Values and settings

The values that options of rules can have, their text in messages, and the settings of a rule: named
values with typed look-ups.
-/

namespace Linewise

/-- The value of an option. -/
inductive Value where
  | null
  | bool (b : Bool)
  /-- An integer; it lies in the range of 64-bit integers, or above it up to `2 ^ 64`. -/
  | int (n : Int)
  | float (d : Double)
  | string (s : Bytes)
  | time (t : Timestamp)
  | list (items : List Value)
  | map (pairs : List (Value × Value))
  deriving Repr, Inhabited

namespace Value

/-- The order of the kinds of keys in the text of a map: nothing, then truth values, numbers,
strings and times. -/
def rank : Value → Nat
  | null => 0
  | bool _ => 1
  | float _ => 2
  | int n => if n ≤ Number.maxInt then 3 else 6
  | string _ => 4
  | time _ => 5
  | list _ => 7
  | map _ => 8

/-- Whether a finite or infinite double is at most another. -/
def floatLe (a b : Double) : Bool :=
  if a.isNan then true else if b.isNan then false
  else
    match a.isNegative, b.isNegative with
    | true, false => true
    | false, true => a.magnitude == 0 && b.magnitude == 0
    | false, false => a.magnitude ≤ b.magnitude
    | true, true => b.magnitude ≤ a.magnitude

/-- The order of the keys in the text of a map. -/
def keyLe (a b : Value) : Bool :=
  match a, b with
  | bool x, bool y => !x || y
  | int x, int y => x ≤ y
  | float x, float y => floatLe x y
  | string x, string y => Bytes.le x y
  | a, b => a.rank ≤ b.rank

mutual

/-- The text of a value in a message. -/
def text : Value → Bytes
  | null => utf8 "<nil>"
  | bool b => utf8 (if b then "true" else "false")
  | int n => Bytes.ofInt n
  | float d => d.text
  | string s => s
  | time t => t.text
  | list items => utf8 "[" ++ Bytes.joinWith (utf8 " ") (itemTexts items) ++ utf8 "]"
  | map pairs =>
    utf8 "map[" ++
      Bytes.joinWith (utf8 " ")
        (((pairTexts pairs).mergeSort fun a b => keyLe a.1 b.1).map Prod.snd) ++ utf8 "]"

def itemTexts : List Value → List Bytes
  | [] => []
  | v :: rest => v.text :: itemTexts rest

/-- The text of every pair, with the key that says where it goes. -/
def pairTexts : List (Value × Value) → List (Value × Bytes)
  | [] => []
  | (k, v) :: rest => (k, k.text ++ utf8 ":" ++ v.text) :: pairTexts rest

end

end Value

/-- The options of one rule, by name; no name occurs twice. -/
abbrev Settings := List (Bytes × Value)

namespace Settings

/-- An option as a 64-bit integer. Floating-point numbers lose their fraction, and strings count when
they spell a decimal number. -/
def int (s : Settings) (key : Bytes) (fallback : Int) : Int :=
  match s.lookup key with
  | some (.int n) => if n ≤ Number.maxInt then n else fallback
  | some (.float d) => Number.ofDouble d
  | some (.string text) =>
    match Number.decimal (Utf8.trim text) with
    | .ok n => n
    | .error _ => fallback
  | _ => fallback

/-- An option as text. -/
def text (s : Settings) (key fallback : Bytes) : Bytes :=
  match s.lookup key with
  | none => fallback
  | some .null => fallback
  | some v => v.text

/-- An option as a truth value. -/
def bool (s : Settings) (key : Bytes) (fallback : Bool) : Bool :=
  match s.lookup key with
  | some (.bool b) => b
  | _ => fallback

end Settings

end Linewise
