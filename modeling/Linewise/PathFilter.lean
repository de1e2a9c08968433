import Linewise.Pattern.Syntax
import Linewise.Target

/-!
# Path filters

A filter decides which targets a rule may see, by search patterns on their full paths: a file has to
match one of the include patterns, if there are any, and no target may match an exclude pattern.
Patterns come from the configuration and from excludes files of the rule.
-/

namespace Linewise

/-- Include and exclude patterns. -/
structure PathFilter where
  includes : List Pattern := []
  excludes : List Pattern := []
  deriving DecidableEq, Repr

/-- Why a filter cannot be built. -/
inductive FilterError where
  | badInclude (e : Pattern.SyntaxError)
  | badExclude (e : Pattern.SyntaxError)
  | unreadable (path : Bytes) (e : PathError)
  /-- An error in the filter of a rule. -/
  | ofRule (id : Bytes) (e : FilterError)
  deriving DecidableEq, Repr

def FilterError.message : FilterError → Bytes
  | badInclude e => utf8 "invalid include pattern: " ++ e.message
  | badExclude e => utf8 "invalid exclude pattern: " ++ e.message
  | unreadable path e => utf8 "failed to read " ++ path ++ utf8 ": " ++ e.message
  | ofRule id e => utf8 "rule " ++ id ++ utf8 ": " ++ e.message

namespace PathFilter

/-- Reads patterns up to the first faulty one. -/
def readPatterns : List Bytes → Except Pattern.SyntaxError (List Pattern)
  | [] => .ok []
  | text :: rest =>
    match Pattern.parse text with
    | .error e => .error e
    | .ok p =>
      match readPatterns rest with
      | .error e => .error e
      | .ok ps => .ok (p :: ps)

/-- The filter with the given patterns. -/
def new (includes excludes : List Bytes) : Except FilterError PathFilter :=
  match readPatterns includes with
  | .error e => .error (.badInclude e)
  | .ok includes =>
    match readPatterns excludes with
    | .error e => .error (.badExclude e)
    | .ok excludes => .ok ⟨includes, excludes⟩

/-- Whether one of some patterns occurs in a path. -/
def anyOccurs (ps : List Pattern) (path : Bytes) : Bool := ps.any (·.occursIn path)

/-- Whether a path matches an exclude pattern. -/
def matchesExclude (f : PathFilter) (path : Bytes) : Bool := anyOccurs f.excludes path

/-- Whether a target passes the include patterns; directories always do. -/
def admits (f : PathFilter) (t : Target) : Bool :=
  t.isDirectory || f.includes.isEmpty || anyOccurs f.includes t.fullPath

/-- Whether a target is out of scope. -/
def rejects (f : PathFilter) (t : Target) : Bool :=
  !f.admits t || f.matchesExclude t.fullPath

/-- The bytes with a meaning of their own in patterns. -/
def isSpecial (b : UInt8) : Bool := (utf8 "\\.+*?()|[]\x7b\x7d^$").contains b

/-- The pattern text that stands for a literal text. -/
def quote (text : Bytes) : Bytes :=
  text.flatMap fun b => if isSpecial b then [92, b] else [b]

/-- Alternatives of literal texts. -/
def quoteAll (texts : List Bytes) : Bytes := Bytes.joinWith (utf8 "|") (texts.map quote)

/-- The include patterns for file extensions and for names of files. -/
def includePatterns (extensions filenames : List Bytes) : List Bytes :=
  (if extensions.isEmpty then [] else [utf8 "\\.(" ++ quoteAll extensions ++ utf8 ")$"]) ++
    (if filenames.isEmpty then [] else [utf8 "(^|/)(" ++ quoteAll filenames ++ utf8 ")$"])

end PathFilter

/-- The patterns of excludes files. -/
structure Excludes where
  excludes : List Bytes := []
  includes : List Bytes := []
  deriving DecidableEq, Repr

namespace Excludes

/-- A line of this length or longer ends the reading of an excludes file. -/
def lineLimit : Nat := 65536

/-- A line without the carriage return at its end. -/
def dropReturn (line : Bytes) : Bytes :=
  if line.getLast? == some 13 then line.dropLast else line

/-- The lines that are read from an excludes file. -/
def readLines (content : Bytes) : List Bytes :=
  ((Bytes.splitBy (· == Bytes.newline) content).takeWhile (·.length < lineLimit)).map dropReturn

/-- The exclude pattern of a line: the trimmed line, unless it is blank or starts with `!`. -/
def excludeOf? (line : Bytes) : Option Bytes :=
  match Utf8.trim line with
  | [] => none
  | b :: rest => if b == 33 then none else some (b :: rest)

/-- The include pattern of a line: what follows `!`, trimmed, unless it is blank. -/
def includeOf? (line : Bytes) : Option Bytes :=
  match Utf8.trim line with
  | [] => none
  | b :: rest =>
    if b == 33 then (match Utf8.trim rest with
      | [] => none
      | pattern => some pattern)
    else none

/-- The patterns of an excludes file. -/
def parse (content : Bytes) : Excludes :=
  let lines := readLines content
  ⟨lines.filterMap excludeOf?, lines.filterMap includeOf?⟩

/-- The path of the excludes file of a rule in a directory. -/
def filePath (rule dir : Bytes) : Bytes := Path.join [dir, rule ++ utf8 ".excludes"]

/-- The patterns of the excludes files of a rule in some directories. Missing files are skipped. -/
def load (tree : FileTree) (rule : Bytes) : List Bytes → Except FilterError Excludes
  | [] => .ok {}
  | dir :: rest =>
    let path := filePath rule dir
    match tree.readFile path with
    | .error e => if e.cause == .noEntry then load tree rule rest else .error (.unreadable path e)
    | .ok content =>
      match load tree rule rest with
      | .error e => .error e
      | .ok more =>
        let found := parse content
        .ok ⟨found.excludes ++ more.excludes, found.includes ++ more.includes⟩

end Excludes

/-- The filter of a rule: the given patterns and those of its excludes files. -/
def PathFilter.ofRule (tree : FileTree) (rule : Bytes) (dirs includes excludes : List Bytes) :
    Except FilterError PathFilter :=
  match Excludes.load tree rule dirs with
  | .error e => .error e
  | .ok found =>
    match PathFilter.new (includes ++ found.includes) (excludes ++ found.excludes) with
    | .error e => .error (.ofRule rule e)
    | .ok f => .ok f

end Linewise
