import Linewise.Bytes

/-!
# Base 64

The text form of arbitrary bytes: three bytes become four characters, and `=` fills the last group.
-/

namespace Linewise.Base64

/-- The character of a six-bit number. -/
def digit (n : Nat) : UInt8 :=
  if n < 26 then (n + 65).toUInt8
  else if n < 52 then (n + 71).toUInt8
  else if n < 62 then (n - 4).toUInt8
  else if n == 62 then 43 else 47

/-- The six-bit number of a character. -/
def value? (b : UInt8) : Option Nat :=
  if Bytes.isUpper b then some (b.toNat - 65)
  else if Bytes.isLower b then some (b.toNat - 71)
  else if Bytes.isDigit b then some (b.toNat + 4)
  else if b == 43 then some 62
  else if b == 47 then some 63
  else none

def pad : UInt8 := 61

/-- The text form of a byte string. -/
def encode : Bytes → Bytes
  | [] => []
  | [a] => let n := a.toNat; [digit (n / 4), digit (n * 16 % 64), pad, pad]
  | [a, b] =>
    let n := a.toNat * 256 + b.toNat
    [digit (n / 1024), digit (n / 16 % 64), digit (n * 4 % 64), pad]
  | a :: b :: c :: rest =>
    let n := (a.toNat * 256 + b.toNat) * 256 + c.toNat
    digit (n / 262144) :: digit (n / 4096 % 64) :: digit (n / 64 % 64) :: digit (n % 64) ::
      encode rest

/-- The bytes of a text of whole groups; only the last group may be filled up. -/
def decodeGroups : Bytes → Option Bytes
  | [] => some []
  | [a, b, c, d] =>
    match value? a, value? b, value? c, value? d with
    | some x, some y, some z, some w => some (triple x y z w)
    | some x, some y, some z, none =>
      if d == pad then some ((triple x y z 0).take 2) else none
    | some x, some y, none, none =>
      if c == pad && d == pad then some ((triple x y 0 0).take 1) else none
    | _, _, _, _ => none
  | a :: b :: c :: d :: rest =>
    match value? a, value? b, value? c, value? d, decodeGroups rest with
    | some x, some y, some z, some w, some more => some (triple x y z w ++ more)
    | _, _, _, _, _ => none
  | _ => none
where
  triple (x y z w : Nat) : Bytes :=
    let n := ((x * 64 + y) * 64 + z) * 64 + w
    [(n / 65536).toUInt8, (n / 256 % 256).toUInt8, (n % 256).toUInt8]

/-- The bytes of a text form, line breaks in it left out. -/
def decode? (text : Bytes) : Option Bytes :=
  decodeGroups (text.filter fun b => b != 10 && b != 13)

end Linewise.Base64
