import Linewise.Unicode.Category

/-!
# Quoted text

Texts of users appear in messages between double quotes, with quotes, backslashes and everything
that cannot be seen written as escapes.
-/

namespace Linewise.Quoted

/-- Lower-case hexadecimal digits, with zeros in front up to a width. -/
def hex (width n : Nat) : Bytes :=
  let digits := (Nat.toDigits 16 n).map Bytes.ascii
  List.replicate (width - digits.length) 48 ++ digits

/-- The letter that stands for a control character after a backslash. -/
def controlLetter? (n : Nat) : Option String :=
  match n with
  | 7 => some "a"
  | 8 => some "b"
  | 9 => some "t"
  | 10 => some "n"
  | 11 => some "v"
  | 12 => some "f"
  | 13 => some "r"
  | _ => none

/-- One symbol between the quotes `quote`. -/
def symbol (quote : Char) : Symbol → Bytes
  | .stray b => utf8 "\\x" ++ hex 2 b.toNat
  | .char c =>
    if c == quote || c == '\\' then utf8 "\\" ++ Utf8.encode [c]
    else if Unicode.isPrintable c then Utf8.encode [c]
    else
      match controlLetter? c.toNat with
      | some letter => utf8 "\\" ++ utf8 letter
      | none =>
        if c.toNat < 0x80 then utf8 "\\x" ++ hex 2 c.toNat
        else if c.toNat < 0x10000 then utf8 "\\u" ++ hex 4 c.toNat
        else utf8 "\\U" ++ hex 8 c.toNat

/-- A text between double quotes. -/
def double (text : Bytes) : Bytes :=
  utf8 "\"" ++ (Utf8.symbols text).flatMap (symbol '"') ++ utf8 "\""

/-- A character between single quotes. -/
def single (s : Symbol) : Bytes := utf8 "'" ++ symbol '\'' s ++ utf8 "'"

/-- Whether a symbol can stand between back quotes, where nothing is escaped. -/
def isVerbatim : Symbol → Bool
  | .stray _ => false
  | .char c => c != '\x60' && c != '\x7f' && c != '\uFEFF' && (c ≥ ' ' || c == '\t')

/-- A text between back quotes when that is possible, else between double quotes. -/
def verbatim (text : Bytes) : Bytes :=
  if (Utf8.symbols text).all isVerbatim then utf8 "\x60" ++ text ++ utf8 "\x60" else double text

end Linewise.Quoted
