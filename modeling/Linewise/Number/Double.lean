import Linewise.Bytes

/-!
# Binary floating-point numbers

Double-precision numbers by their bits, with exact conversions from and to decimal. Reading rounds
to the nearest double, ties to even. Writing gives the fewest digits that read back as the same
number, and of those the nearest.
-/

namespace Linewise

/-- A double-precision number. -/
structure Double where
  bits : UInt64
  deriving DecidableEq, Repr, Inhabited

namespace Double

def infinityBits : UInt64 := 0x7FF0000000000000

def signBit : UInt64 := 0x8000000000000000

def ofMagnitude (negative : Bool) (bits : UInt64) : Double :=
  ⟨if negative then bits ||| signBit else bits⟩

def infinity (negative : Bool) : Double := ofMagnitude negative infinityBits

def nan : Double := ⟨0x7FF8000000000001⟩

def isNegative (d : Double) : Bool := d.bits &&& signBit != 0

def magnitude (d : Double) : UInt64 := d.bits &&& 0x7FFFFFFFFFFFFFFF

def isNan (d : Double) : Bool := d.magnitude > infinityBits

def isInfinite (d : Double) : Bool := d.magnitude == infinityBits

/-- The mantissa `m` and the exponent `q` with which a finite number is `m * 2 ^ q`. -/
def parts (d : Double) : Nat × Int :=
  let e := (d.magnitude >>> 52).toNat
  let f := (d.magnitude &&& 0xFFFFFFFFFFFFF).toNat
  if e == 0 then (f, -1074) else (f + Nat.pow 2 52, (e : Int) - 1075)

/-- `n / d` rounded to the nearest integer, ties to even. -/
def roundQuotient (n d : Nat) : Nat :=
  let q := n / d
  let r := n % d
  if 2 * r > d || (2 * r == d && q % 2 == 1) then q + 1 else q

/-- The magnitude bits of `num / den` rounded to the nearest double; `none` when it is too large. -/
def magnitudeOfQuotient? (num den : Nat) : Option UInt64 :=
  if num == 0 then some 0
  else
    let e : Int := (Nat.log2 num : Int) - (Nat.log2 den : Int)
    let scaled (q : Int) : Nat × Nat :=
      if q ≥ 0 then (num, den * Nat.pow 2 q.toNat) else (num * Nat.pow 2 (-q).toNat, den)
    let q₀ : Int := max (e - 53) (-1074)
    let (n, d) := scaled q₀
    let q : Int := if n / d ≥ Nat.pow 2 53 then q₀ + 1 else q₀
    let (n, d) := scaled q
    let m := roundQuotient n d
    let (m, q) := if m ≥ Nat.pow 2 53 then (m / 2, q + 1) else (m, q)
    if q + 1075 ≥ 2047 then none
    else if m < Nat.pow 2 52 then some m.toUInt64
    else some (((q + 1075).toNat * Nat.pow 2 52 + (m - Nat.pow 2 52)).toUInt64)

/-- The double nearest to `digits * 10 ^ exponent`; `none` when it is too large. Exponents so far
out that the answer is plain are cut off first. -/
def ofDecimal? (negative : Bool) (digits : Nat) (exponent : Int) : Option Double :=
  if digits == 0 then some (ofMagnitude negative 0)
  else
    let size : Int := (Nat.toDigits 10 digits).length
    if exponent + size > 310 then none
    else if exponent + size < -330 then some (ofMagnitude negative 0)
    else
      let found :=
        if exponent ≥ 0 then magnitudeOfQuotient? (digits * Nat.pow 10 exponent.toNat) 1
        else magnitudeOfQuotient? digits (Nat.pow 10 (-exponent).toNat)
      found.map (ofMagnitude negative)

/-- A positive decimal number `0.d₁d₂… * 10 ^ point`. -/
structure Decimal where
  digits : List Nat
  point : Int
  deriving DecidableEq, Repr

/-- The digits of a number and the place of its point, when the number is `n * 10 ^ k`. -/
def decimalOf (n : Nat) (k : Int) : Decimal :=
  let ds := (Nat.toDigits 10 n).map fun c => c.toNat - 48
  ⟨(ds.reverse.dropWhile (· == 0)).reverse, k + ds.length⟩

/-- Of the multiples of `10 ^ k` next to `num / den`, the one that reads back as `bits`; the nearer
if both do. -/
def onGrid? (bits : UInt64) (num den : Nat) (k : Int) : Option Nat :=
  let (n, d) :=
    if k ≥ 0 then (num, den * Nat.pow 10 k.toNat) else (num * Nat.pow 10 (-k).toNat, den)
  let lo := n / d
  let reads (c : Nat) : Bool :=
    c > 0 && ((ofDecimal? false c k).map Double.bits) == some bits
  let near := roundQuotient n d
  let far := if near == lo then lo + 1 else lo
  if reads near then some near else if reads far then some far else none

/-- The first grid from `10 ^ k` downwards that has a number which reads back. -/
def shortestFrom (bits : UInt64) (num den : Nat) : Nat → Int → Decimal
  | 0, k => decimalOf (roundQuotient num den) k
  | fuel + 1, k =>
    match onGrid? bits num den k with
    | some c => decimalOf c k
    | none => shortestFrom bits num den fuel (k - 1)

/-- The shortest decimal that reads back as a finite positive number. -/
def shortest (d : Double) : Decimal :=
  let (m, q) := d.parts
  let (num, den) := if q ≥ 0 then (m * Nat.pow 2 q.toNat, 1) else (m, Nat.pow 2 (-q).toNat)
  let top : Int := if num ≥ den then (Nat.toDigits 10 (num / den)).length
    else 1 - ((Nat.toDigits 10 (den / num)).length : Int)
  shortestFrom d.magnitude num den 20 top

/-- How a decimal is written out: plainly while the exponent of its first digit lies in a range, and
with an exponent of at least two digits outside. -/
structure Format where
  least : Int
  most : Int

/-- Numbers below 0.0001 and from a million on get an exponent. -/
def format : Format := ⟨-4, 5⟩

def digitText (ds : List Nat) : Bytes := ds.map fun d => (d + 48).toUInt8

/-- The text of a positive decimal. -/
def Decimal.text (f : Format) (d : Decimal) : Bytes :=
  let e := d.point - 1
  if e < f.least || e > f.most then
    let mantissa := digitText (d.digits.take 1) ++
      (if d.digits.length > 1 then utf8 "." ++ digitText (d.digits.drop 1) else [])
    mantissa ++ utf8 (if e < 0 then "e-" else "e+") ++ Bytes.padded 2 e.natAbs
  else if d.point ≤ 0 then
    utf8 "0." ++ List.replicate (-d.point).toNat 48 ++ digitText d.digits
  else
    let n := d.point.toNat
    let whole := digitText (d.digits.take n) ++ List.replicate (n - d.digits.length) 48
    whole ++ (if d.digits.length > n then utf8 "." ++ digitText (d.digits.drop n) else [])

/-- The shortest text of a number. -/
def text (d : Double) : Bytes :=
  if d.isNan then utf8 "NaN"
  else if d.isInfinite then utf8 (if d.isNegative then "-Inf" else "+Inf")
  else
    let sign := if d.isNegative then utf8 "-" else []
    if d.magnitude == 0 then sign ++ utf8 "0" else sign ++ d.shortest.text format

/-- The integer part of a finite number. -/
def truncate (d : Double) : Int :=
  let (m, q) := d.parts
  let n : Nat := if q ≥ 0 then m * Nat.pow 2 q.toNat else m / Nat.pow 2 (-q).toNat
  if d.isNegative then -(n : Int) else n

end Double

end Linewise
