import Linewise.Bytes

/-!
# Points in time

A date with a time of day and the distance of its clock from UTC, with the notations in which
configuration files write it and in which messages show it.
-/

namespace Linewise

/-- A point in time as a clock shows it. -/
structure Timestamp where
  year : Nat
  month : Nat
  day : Nat
  hour : Nat := 0
  minute : Nat := 0
  second : Nat := 0
  nanosecond : Nat := 0
  /-- Seconds by which the clock is ahead of UTC. -/
  offset : Int := 0
  deriving DecidableEq, Repr

namespace Timestamp

def isLeap (year : Nat) : Bool := year % 4 == 0 && (year % 100 != 0 || year % 400 == 0)

def daysIn (year month : Nat) : Nat :=
  if month == 2 then (if isLeap year then 29 else 28)
  else if [4, 6, 9, 11].contains month then 30 else 31

/-- Whether the fields are those of a real date and time of day. -/
def isReal (t : Timestamp) : Bool :=
  1 ≤ t.month && t.month ≤ 12 && 1 ≤ t.day && t.day ≤ daysIn t.year t.month
    && t.hour < 24 && t.minute < 60 && t.second < 60

/-- The fraction of a second: a point and up to nine digits, no zeros at the end. -/
def fraction (t : Timestamp) : Bytes :=
  if t.nanosecond == 0 then []
  else utf8 "." ++ Bytes.trimRight (· == 48) (Bytes.padded 9 t.nanosecond)

def date (t : Timestamp) : Bytes :=
  Bytes.padded 4 t.year ++ utf8 "-" ++ Bytes.padded 2 t.month ++ utf8 "-" ++ Bytes.padded 2 t.day

def clock (t : Timestamp) : Bytes :=
  Bytes.padded 2 t.hour ++ utf8 ":" ++ Bytes.padded 2 t.minute ++ utf8 ":" ++
    Bytes.padded 2 t.second ++ t.fraction

/-- The distance from UTC in hours and minutes, with `between` between them. -/
def zone (t : Timestamp) (between : String) : Bytes :=
  let minutes := t.offset.natAbs / 60
  utf8 (if t.offset < 0 then "-" else "+") ++ Bytes.padded 2 (minutes / 60) ++ utf8 between ++
    Bytes.padded 2 (minutes % 60)

/-- The notation of the internet: `2020-01-02T03:04:05Z`. -/
def internet (t : Timestamp) : Bytes :=
  t.date ++ utf8 "T" ++ t.clock ++ (if t.offset == 0 then utf8 "Z" else t.zone ":")

/-- The notation of messages: `2020-01-02 03:04:05 +0000 UTC`. -/
def text (t : Timestamp) : Bytes :=
  t.date ++ utf8 " " ++ t.clock ++ utf8 " " ++ t.zone "" ++ utf8 " " ++
    (if t.offset == 0 then utf8 "UTC" else t.zone "")

/-- A number of one or two digits and what follows it. -/
def shortNumber? : Bytes → Option (Nat × Bytes)
  | a :: b :: rest =>
    if Bytes.isDigit a then
      if Bytes.isDigit b then some ((a.toNat - 48) * 10 + (b.toNat - 48), rest)
      else some (a.toNat - 48, b :: rest)
    else none
  | [a] => if Bytes.isDigit a then some (a.toNat - 48, []) else none
  | [] => none

/-- What follows the byte `b` at the start of a text. -/
def after? (b : UInt8) : Bytes → Option Bytes
  | c :: rest => if c == b then some rest else none
  | [] => none

/-- The nanoseconds after the seconds: a point or a comma with digits after it, of which nine
count. -/
def readFraction (text : Bytes) : Nat × Bytes :=
  match text with
  | p :: rest =>
    let digits := rest.takeWhile Bytes.isDigit
    if (p == 46 || p == 44) && !digits.isEmpty then
      let nine := digits.take 9 ++ List.replicate (9 - digits.length) 48
      ((Bytes.natOfDigits? 10 nine).getD 0, rest.dropWhile Bytes.isDigit)
    else (0, text)
  | [] => (0, [])

/-- The distance from UTC at the end of a text: `Z`, or a sign with hours and minutes. -/
def readZone? (text : Bytes) : Option Int :=
  match text with
  | [90] => some 0
  | [sign, a, b, 58, c, d] =>
    match Bytes.natOfDigits? 10 [a, b], Bytes.natOfDigits? 10 [c, d] with
    | some h, some m =>
      if h > 24 || m > 60 then none
      else if sign == 43 then some (h * 3600 + m * 60)
      else if sign == 45 then some (-(h * 3600 + m * 60 : Int))
      else none
    | _, _ => none
  | _ => none

/-- The four digits of a year at the start of a text. -/
def year? (text : Bytes) : Option (Nat × Bytes) :=
  let digits := text.takeWhile Bytes.isDigit
  if digits.length == 4 then
    (Bytes.natOfDigits? 10 digits).map fun y => (y, text.drop 4)
  else none

/-- Hours, minutes, seconds and fraction at the start of a text. -/
def time? (t : Timestamp) (text : Bytes) : Option (Timestamp × Bytes) := do
  let (hour, rest) ← shortNumber? text
  let rest ← after? 58 rest
  let (minute, rest) ← shortNumber? rest
  let rest ← after? 58 rest
  let (second, rest) ← shortNumber? rest
  let (nanosecond, rest) := readFraction rest
  some ({ t with hour := hour, minute := minute, second := second, nanosecond := nanosecond }, rest)

/-- A timestamp in one of the notations `2020-1-2`, `2020-1-2 3:4:5.6` and `2020-1-2T3:4:5.6+07:00`,
with `T` or `t` and with `Z` for UTC. -/
def read? (text : Bytes) : Option Timestamp := do
  let (year, rest) ← year? text
  let rest ← after? 45 rest
  let (month, rest) ← shortNumber? rest
  let rest ← after? 45 rest
  let (day, rest) ← shortNumber? rest
  let t : Timestamp := { year := year, month := month, day := day }
  let t ← match rest with
    | [] => some t
    | 32 :: rest =>
      match time? t (rest.dropWhile (· == 32)) with
      | some (t, []) => some t
      | _ => none
    | c :: rest =>
      if c == 84 || c == 116 then do
        let (t, rest) ← time? t rest
        let offset ← readZone? rest
        some { t with offset := offset }
      else none
  if t.isReal then some t else none

end Timestamp

end Linewise
