import Linewise.Unicode.Script
import Linewise.Unicode.Folding

/-!
# Sets of characters

The sets that a bracket expression, a class escape or a literal of a search pattern denotes: unions
of ranges and Unicode properties, possibly complemented, possibly closed under change of case.
-/

namespace Linewise.Pattern

/-- A named property of code points. -/
inductive Property where
  | any
  | ascii
  | assigned
  /-- A general category or a group of them: `Lu`, `L`, `LC`. -/
  | category (code : String)
  | script (name : String)
  deriving DecidableEq, Repr

/-- Whether a general category belongs to the group that `code` names. -/
def categoryIn (code category : String) : Bool :=
  if code == "LC" then ["Lu", "Ll", "Lt"].contains category
  else if code.length == 1 then category.toList.take 1 == code.toList
  else category == code

def Property.holds : Property → Nat → Bool
  | any, _ => true
  | ascii, n => n < 128
  | assigned, n => Unicode.generalCategory n != "Cn"
  | category code, n => categoryIn code (Unicode.generalCategory n)
  | script name, n => Unicode.script n == name

/-- A building block of a set. -/
inductive Atom where
  | range (lo hi : Nat)
  | property (p : Property)
  deriving DecidableEq, Repr

def Atom.holds : Atom → Nat → Bool
  | range lo hi, n => lo ≤ n && n ≤ hi
  | property p, n => p.holds n

/-- One member of a bracket expression. -/
structure Member where
  atoms : List Atom
  /-- Whether a character also counts when another case of it does. -/
  fold : Bool := false
  negated : Bool := false
  deriving DecidableEq, Repr

def Member.holds (m : Member) (n : Nat) : Bool :=
  (if m.fold then (Unicode.caseOrbit n).any fun k => m.atoms.any (·.holds k)
   else m.atoms.any (·.holds n)) != m.negated

/-- A set of characters: the union of its members, or the complement of that. -/
structure CharSet where
  members : List Member
  negated : Bool := false
  deriving DecidableEq, Repr

namespace CharSet

def holds (s : CharSet) (n : Nat) : Bool :=
  s.members.any (·.holds n) != s.negated

/-- The characters from `lo` to `hi`. -/
def range (lo hi : Nat) : CharSet := ⟨[⟨[.range lo hi], false, false⟩], false⟩

/-- The character `n` in any case. -/
def anyCase (n : Nat) : CharSet := ⟨[⟨[.range n n], true, false⟩], false⟩

/-- Every character. -/
def all : CharSet := ⟨[], true⟩

/-- Every character but the line feed. -/
def notNewline : CharSet := ⟨[⟨[.range 10 10], false, false⟩], true⟩

end CharSet

/-- The ranges of ASCII class names such as `alpha`. -/
def asciiClass? (name : String) : Option (List Atom) :=
  match name with
  | "alnum" => some [.range 48 57, .range 65 90, .range 97 122]
  | "alpha" => some [.range 65 90, .range 97 122]
  | "ascii" => some [.range 0 127]
  | "blank" => some [.range 9 9, .range 32 32]
  | "cntrl" => some [.range 0 31, .range 127 127]
  | "digit" => some [.range 48 57]
  | "graph" => some [.range 33 126]
  | "lower" => some [.range 97 122]
  | "print" => some [.range 32 126]
  | "punct" => some [.range 33 47, .range 58 64, .range 91 96, .range 123 126]
  | "space" => some [.range 9 13, .range 32 32]
  | "upper" => some [.range 65 90]
  | "word" => some [.range 48 57, .range 65 90, .range 95 95, .range 97 122]
  | "xdigit" => some [.range 48 57, .range 65 70, .range 97 102]
  | _ => none

/-- The atoms and the sense of a class escape: `\d`, `\s`, `\w` and their complements. -/
def classEscape? : Char → Option (List Atom × Bool)
  | 'd' => some ([.range 48 57], false)
  | 'D' => some ([.range 48 57], true)
  | 's' => some ([.range 9 10, .range 12 13, .range 32 32], false)
  | 'S' => some ([.range 9 10, .range 12 13, .range 32 32], true)
  | 'w' => some ([.range 48 57, .range 65 90, .range 95 95, .range 97 122], false)
  | 'W' => some ([.range 48 57, .range 65 90, .range 95 95, .range 97 122], true)
  | _ => none

/-- The codes of the general categories and of their groups. -/
def categoryCodes : List String :=
  ["C", "Cc", "Cf", "Cn", "Co", "Cs", "L", "LC", "Ll", "Lm", "Lo", "Lt", "Lu", "M", "Mc", "Me",
    "Mn", "N", "Nd", "Nl", "No", "P", "Pc", "Pd", "Pe", "Pf", "Pi", "Po", "Ps", "S", "Sc", "Sk",
    "Sm", "So", "Z", "Zl", "Zp", "Zs"]

/-- Long names of the general categories. -/
def categoryAliases : List (String × String) :=
  [("Other", "C"), ("Control", "Cc"), ("cntrl", "Cc"), ("Format", "Cf"), ("Unassigned", "Cn"),
    ("Private_Use", "Co"), ("Surrogate", "Cs"), ("Letter", "L"), ("Cased_Letter", "LC"),
    ("Lowercase_Letter", "Ll"), ("Modifier_Letter", "Lm"), ("Other_Letter", "Lo"),
    ("Titlecase_Letter", "Lt"), ("Uppercase_Letter", "Lu"), ("Mark", "M"), ("Combining_Mark", "M"),
    ("Spacing_Mark", "Mc"), ("Enclosing_Mark", "Me"), ("Nonspacing_Mark", "Mn"), ("Number", "N"),
    ("Decimal_Number", "Nd"), ("digit", "Nd"), ("Letter_Number", "Nl"), ("Other_Number", "No"),
    ("Punctuation", "P"), ("punct", "P"), ("Connector_Punctuation", "Pc"),
    ("Dash_Punctuation", "Pd"), ("Close_Punctuation", "Pe"), ("Final_Punctuation", "Pf"),
    ("Initial_Punctuation", "Pi"), ("Other_Punctuation", "Po"), ("Open_Punctuation", "Ps"),
    ("Symbol", "S"), ("Currency_Symbol", "Sc"), ("Modifier_Symbol", "Sk"), ("Math_Symbol", "Sm"),
    ("Other_Symbol", "So"), ("Separator", "Z"), ("Line_Separator", "Zl"),
    ("Paragraph_Separator", "Zp"), ("Space_Separator", "Zs")]

/-- A property name without blanks, hyphens and underscores and without regard to case. -/
def looseName (name : List Char) : List Char :=
  (name.filter fun c => !(c == ' ' || c == '-' || c == '_')).map Char.toLower

/-- The property with a name; names are compared loosely. -/
def property? (name : List Char) : Option Property :=
  let loose := looseName name
  let same (s : String) : Bool := looseName s.toList == loose
  if same "any" then some .any
  else if same "assigned" then some .assigned
  else if same "ascii" then some .ascii
  else if let some code := categoryCodes.find? same then some (.category code)
  else if let some s := Unicode.scriptNames.find? same then
    if s == "Unknown" then none else some (.script s)
  else (categoryAliases.find? fun a => same a.1).map fun a => .category a.2

end Linewise.Pattern
