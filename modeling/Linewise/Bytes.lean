/-!
# Byte strings

File contents, paths and messages are byte strings; nothing in the program requires them to be
valid UTF-8. This module holds the operations on them that the rest of the project shares:
literals, searching, cutting and decimal text.
-/

namespace Linewise

/-- A byte string. -/
abbrev Bytes := List UInt8

/-- The UTF-8 bytes of a string. -/
def utf8 (s : String) : Bytes :=
  s.toList.flatMap String.utf8EncodeChar

namespace Bytes

/-- The byte of an ASCII character. -/
def ascii (c : Char) : UInt8 := c.toNat.toUInt8

/-- Line feed, the only byte that ends a line. -/
def newline : UInt8 := 10

/-- Whether `part` occurs in `text` at some position. -/
def occursIn (part : Bytes) : Bytes → Bool
  | [] => part.isEmpty
  | b :: rest => part.isPrefixOf (b :: rest) || occursIn part rest

/-- `text` without `head`, when it starts with it. -/
def dropHead? (head text : Bytes) : Option Bytes :=
  if head.isPrefixOf text then some (text.drop head.length) else none

/-- `text` without its trailing bytes that satisfy `p`. -/
def trimRight (p : UInt8 → Bool) (text : Bytes) : Bytes :=
  text.foldr (fun b rest => if rest.isEmpty && p b then [] else b :: rest) []

/-- The parts of `text` between the bytes that satisfy `p`; always at least one part. -/
def splitBy (p : UInt8 → Bool) : Bytes → List Bytes
  | [] => [[]]
  | b :: rest =>
    if p b then [] :: splitBy p rest
    else
      match splitBy p rest with
      | [] => [[b]]
      | part :: parts => (b :: part) :: parts

/-- Every occurrence of the byte `old` replaced by `new`. -/
def replaceByte (old : UInt8) (new text : Bytes) : Bytes :=
  text.flatMap fun b => if b == old then new else [b]

/-- The decimal digits of a natural number. -/
def ofNat (n : Nat) : Bytes :=
  (Nat.toDigits 10 n).map ascii

/-- The decimal text of an integer. -/
def ofInt : Int → Bytes
  | .ofNat n => ofNat n
  | .negSucc n => ascii '-' :: ofNat (n + 1)

/-- `ofNat n`, with zeros in front up to `width` digits. -/
def padded (width n : Nat) : Bytes :=
  let digits := ofNat n
  List.replicate (width - digits.length) (ascii '0') ++ digits

/-- `parts` joined with `separator` between them. -/
def joinWith (separator : Bytes) (parts : List Bytes) : Bytes :=
  List.intercalate separator parts

/-- Byte order, the order in which directory entries and keys are listed. -/
def le : Bytes → Bytes → Bool
  | [], _ => true
  | _ :: _, [] => false
  | a :: as, b :: bs => if a < b then true else if b < a then false else le as bs

def isDigit (b : UInt8) : Bool := 48 ≤ b && b ≤ 57

def isUpper (b : UInt8) : Bool := 65 ≤ b && b ≤ 90

def isLower (b : UInt8) : Bool := 97 ≤ b && b ≤ 122

def isAlpha (b : UInt8) : Bool := isUpper b || isLower b

/-- ASCII letters, digits and the underscore. -/
def isWord (b : UInt8) : Bool := isAlpha b || isDigit b || b == 95

/-- The ASCII letter in lower case, any other byte unchanged. -/
def lowerByte (b : UInt8) : UInt8 := if isUpper b then b + 32 else b

/-- ASCII letters in lower case. -/
def lower (text : Bytes) : Bytes := text.map lowerByte

/-- The value of a digit in a base up to 36, letters in either case. -/
def digitValue? (b : UInt8) : Option Nat :=
  if isDigit b then some (b.toNat - 48)
  else if isLower b then some (b.toNat - 87)
  else if isUpper b then some (b.toNat - 55)
  else none

/-- The number that the digits of a base spell; `none` for no digits or a foreign one. -/
def natOfDigits? (base : Nat) (text : Bytes) : Option Nat :=
  if text.isEmpty then none
  else
    text.foldlM (fun acc b =>
      match digitValue? b with
      | some d => if d < base then some (acc * base + d) else none
      | none => none) 0

end Bytes

/-- A list with the new elements of another one at its end. -/
def appendNew (xs ys : List Bytes) : List Bytes :=
  ys.foldl (fun xs y => if xs.contains y then xs else xs ++ [y]) xs

end Linewise
