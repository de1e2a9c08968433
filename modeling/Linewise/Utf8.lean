import Linewise.Bytes

/-!
# UTF-8

Reading characters out of byte strings. A byte that starts no well-formed sequence is kept apart,
so that callers can refuse it, count it as U+FFFD or copy it through.
-/

namespace Linewise

/-- One unit of a byte string read as UTF-8. -/
inductive Symbol where
  | char (c : Char)
  | stray (b : UInt8)
  deriving DecidableEq, Repr, Inhabited

namespace Symbol

/-- The bytes that a symbol was read from. -/
def bytes : Symbol → Bytes
  | char c => String.utf8EncodeChar c
  | stray b => [b]

/-- The character that a symbol stands for: U+FFFD for a stray byte. -/
def toChar : Symbol → Char
  | char c => c
  | stray _ => Char.ofNat 0xFFFD

def isStray : Symbol → Bool
  | char _ => false
  | stray _ => true

end Symbol

namespace Utf8

/-- A continuation byte. -/
def isTail (b : UInt8) : Bool := 0x80 ≤ b && b ≤ 0xBF

/-- Lead and second byte of a two-byte sequence. -/
def isPair (a b : UInt8) : Bool := 0xC2 ≤ a && a ≤ 0xDF && isTail b

/-- Lead and second byte of a three-byte sequence: no overlong forms and no surrogates. -/
def isTripleStart (a b : UInt8) : Bool :=
  if a == 0xE0 then 0xA0 ≤ b && b ≤ 0xBF
  else if a == 0xED then 0x80 ≤ b && b ≤ 0x9F
  else 0xE1 ≤ a && a ≤ 0xEF && isTail b

/-- Lead and second byte of a four-byte sequence: no overlong forms, nothing above U+10FFFF. -/
def isQuadStart (a b : UInt8) : Bool :=
  if a == 0xF0 then 0x90 ≤ b && b ≤ 0xBF
  else if a == 0xF4 then 0x80 ≤ b && b ≤ 0x8F
  else 0xF1 ≤ a && a ≤ 0xF3 && isTail b

/-- The low six bits of a continuation byte. -/
def tailBits (b : UInt8) : Nat := b.toNat % 64

/-- The character whose encoding starts with `a` and goes on in `rest`, with the number of bytes
it takes from `rest`; `none` when no well-formed sequence starts here. -/
def lead? (a : UInt8) (rest : Bytes) : Option (Char × Nat) :=
  if a < 0x80 then some (Char.ofNat a.toNat, 0)
  else
    match rest with
    | b :: c :: d :: _ =>
      if isPair a b then some (pair a b, 1)
      else if isTripleStart a b && isTail c then some (triple a b c, 2)
      else if isQuadStart a b && isTail c && isTail d then some (quad a b c d, 3)
      else none
    | [b, c] =>
      if isPair a b then some (pair a b, 1)
      else if isTripleStart a b && isTail c then some (triple a b c, 2)
      else none
    | [b] => if isPair a b then some (pair a b, 1) else none
    | [] => none
where
  pair (a b : UInt8) : Char := Char.ofNat (a.toNat % 32 * 64 + tailBits b)
  triple (a b c : UInt8) : Char :=
    Char.ofNat ((a.toNat % 16 * 64 + tailBits b) * 64 + tailBits c)
  quad (a b c d : UInt8) : Char :=
    Char.ofNat (((a.toNat % 8 * 64 + tailBits b) * 64 + tailBits c) * 64 + tailBits d)

/-- The symbols of a byte string after its first `skip` bytes, which belong to a character
already read. -/
def symbolsFrom : Nat → Bytes → List Symbol
  | _, [] => []
  | skip + 1, _ :: rest => symbolsFrom skip rest
  | 0, a :: rest =>
    match lead? a rest with
    | some (c, taken) => .char c :: symbolsFrom taken rest
    | none => .stray a :: symbolsFrom 0 rest

/-- The symbols of a byte string, in order. -/
def symbols (text : Bytes) : List Symbol := symbolsFrom 0 text

/-- The characters of a byte string, U+FFFD for every stray byte. -/
def chars (text : Bytes) : List Char := (symbols text).map Symbol.toChar

/-- Whether a byte string is well-formed UTF-8. -/
def isValid (text : Bytes) : Bool := !(symbols text).any Symbol.isStray

/-- The bytes of a list of characters. -/
def encode (cs : List Char) : Bytes := cs.flatMap String.utf8EncodeChar

/-- The bytes that a list of symbols was read from. -/
def ofSymbols (ss : List Symbol) : Bytes := ss.flatMap Symbol.bytes

/-- The characters that count as blank at the ends of a line: Unicode White_Space. -/
def isBlank (c : Char) : Bool :=
  let n := c.toNat
  (9 ≤ n && n ≤ 13) || n == 0x20 || n == 0x85 || n == 0xA0 || n == 0x1680
    || (0x2000 ≤ n && n ≤ 0x200A) || n == 0x2028 || n == 0x2029 || n == 0x202F || n == 0x205F
    || n == 0x3000

def isBlankSymbol : Symbol → Bool
  | .char c => isBlank c
  | .stray _ => false

/-- A byte string without the blanks at its two ends. -/
def trim (text : Bytes) : Bytes :=
  let front := (symbols text).dropWhile isBlankSymbol
  ofSymbols (front.reverse.dropWhile isBlankSymbol).reverse

end Utf8

end Linewise
