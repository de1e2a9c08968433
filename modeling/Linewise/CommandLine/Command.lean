import Linewise.CommandLine.Flag
import Linewise.Spelling

/-!
# Commands

The commands of the program, their flags, and which of them a command line asks for. Commands are
nested at most two deep below the program itself: `fuzz config show`. `Command.find` looks for the
names of commands among the words of the command line and leaves the rest to the command.
-/

namespace Linewise

/-- A command of the program. -/
inductive Command where
  /-- The program itself. -/
  | program
  | check
  | list
  | config
  | configShow
  | configWrite
  | help
  | completion
  deriving DecidableEq, Repr

namespace Command

def name : Command → Bytes
  | program => utf8 "fuzz"
  | check => utf8 "check"
  | list => utf8 "list"
  | config => utf8 "config"
  | configShow => utf8 "show"
  | configWrite => utf8 "write"
  | help => utf8 "help"
  | completion => utf8 "completion"

/-- The names that lead to a command, from the program on. -/
def path : Command → Bytes
  | program => name program
  | configShow => Bytes.joinWith (utf8 " ") [name program, name config, name configShow]
  | configWrite => Bytes.joinWith (utf8 " ") [name program, name config, name configWrite]
  | c => Bytes.joinWith (utf8 " ") [name program, name c]

/-- The commands that belong to a command, in the order in which they are suggested. -/
def subcommands : Command → List Command
  | program => [check, list, config, help, completion]
  | config => [configShow, configWrite]
  | _ => []

/-- Whether a command does something of its own instead of showing its help. -/
def isRunnable : Command → Bool
  | program | config | completion => false
  | _ => true

/-- The names of flags. -/
def filetypeName : Bytes := utf8 "filetype"

def fileName : Bytes := utf8 "file"

def addFilesName : Bytes := utf8 "add-files"

def noSymlinksName : Bytes := utf8 "no-symlinks"

def rulePathName : Bytes := utf8 "rule-path"

def disableName : Bytes := utf8 "disable"

def excludeName : Bytes := utf8 "exclude"

def configName : Bytes := utf8 "config"

def outputName : Bytes := utf8 "output"

def applyFixName : Bytes := utf8 "apply-fix"

def noRecurseName : Bytes := utf8 "no-recurse"

def verboseName : Bytes := utf8 "verbose"

def tabSpacingName : Bytes := utf8 "wsc-tab-spacing"

def versionName : Bytes := utf8 "version"

/-- A flag with a letter. -/
def flag (name : Bytes) (letter : Char) (kind : FlagKind) (usage : String) : Flag :=
  ⟨name, some (Bytes.ascii letter), kind, utf8 usage⟩

/-- The flags that stand for a layer of configuration. -/
def layerFlags : List Flag :=
  [flag filetypeName 't' .texts "Check files with extension EXT (repeatable)",
    flag fileName 'f' .texts "Check files named NAME (repeatable)",
    flag addFilesName 'a' .switch
      "Add --filetype and --file values to the defaults instead of replacing them",
    flag noSymlinksName 'S' .switch "Do not follow symlinks",
    flag rulePathName 'P' .texts "Search PATH for <rule-id>.excludes files (repeatable)",
    flag disableName 'B' .texts "Disable rule RULEID (repeatable)",
    flag excludeName 'X' .texts "Exclude paths matching REGEX from all rules (repeatable)"]

/-- The flag for configuration files. -/
def configFlag : Flag := flag configName 'c' .texts "Load configuration from FILE (repeatable)"

/-- The flag for the width of tabs. -/
def tabSpacingFlag : Flag :=
  { name := tabSpacingName
    kind := .number
    usage := utf8 ("check_whitespace: number of spaces a tab is replaced with when --apply-fix " ++
      "is set (default 2)") }

/-- The flags of a command apart from those for help and the version. -/
def ownFlags : Command → List Flag
  | check =>
    layerFlags ++
      [configFlag,
        flag outputName 'o' .text "Write the report to FILE instead of stdout",
        flag applyFixName 'p' .switch "Fix violations where the rule supports it",
        flag noRecurseName 'n' .switch "Do not descend into directories",
        flag verboseName 'v' .count "Increase verbosity (repeatable)",
        tabSpacingFlag]
  | configShow => layerFlags ++ [configFlag]
  | configWrite => layerFlags
  | _ => []

/-- The flag that asks for help on a command. -/
def helpFlag (c : Command) : Flag :=
  ⟨Arguments.helpName, some Arguments.helpLetter, .switch, utf8 "help for " ++ c.name⟩

/-- The flag that asks for the version of the program. -/
def versionFlag : Flag := flag versionName 'v' .switch "version for fuzz"

/-- All flags of a command. -/
def flags (c : Command) : List Flag :=
  c.ownFlags ++ helpFlag c :: if c == program then [versionFlag] else []

/-- Whether an argument is a flag whose value is the argument after it. Flags that are not known
count as such. -/
def takesNext (flags : List Flag) (argument : Bytes) : Bool :=
  let needsValue (f : Option Flag) : Bool := !f.any (·.kind.implied?.isSome)
  match argument with
  | first :: second :: rest =>
    first == Arguments.dash && !argument.contains Arguments.equals &&
      if second == Arguments.dash then needsValue (flags.find? (·.name == rest))
      else rest.isEmpty && needsValue (flags.find? (·.letter == some second))
  | _ => false

/-- Whether an argument is a word rather than a flag. -/
def isWord (argument : Bytes) : Bool := argument.head? != some Arguments.dash

/-- The words among arguments, as far as they can be told before it is known which command they are
for: the argument after a flag that takes one is none, and the last two arguments are none when the
former is such a flag. -/
def words (flags : List Flag) : List Bytes → List Bytes
  | [] => []
  | [a] => if takesNext flags a || !isWord a || a.isEmpty then [] else [a]
  | a :: b :: rest =>
    if a == Arguments.endOfFlags then []
    else if takesNext flags a then (if rest.isEmpty then [] else words flags rest)
    else if isWord a && !a.isEmpty then a :: words flags (b :: rest)
    else words flags (b :: rest)

/-- Arguments without the first one that is a given word. -/
def withoutWord (flags : List Flag) (word : Bytes) : List Bytes → List Bytes
  | [] => []
  | [a] => if isWord a && a == word then [] else [a]
  | a :: b :: rest =>
    if a == Arguments.endOfFlags then a :: b :: rest
    else if takesNext flags a then a :: b :: withoutWord flags word rest
    else if isWord a && a == word then b :: rest
    else a :: withoutWord flags word (b :: rest)

/-- The command below `c` that arguments name first, with the other arguments. -/
def step? (c : Command) (arguments : List Bytes) : Option (Command × List Bytes) :=
  match words c.ownFlags arguments with
  | [] => none
  | word :: _ =>
    (c.subcommands.find? (·.name == word)).map fun sub =>
      (sub, withoutWord c.ownFlags word arguments)

/-- The command that a command line asks for, with the arguments that are left for it. -/
def descend (arguments : List Bytes) : Command × List Bytes :=
  match program.step? arguments with
  | none => (program, arguments)
  | some (c, arguments) => (c.step? arguments).getD (c, arguments)

/-- A word in the place of a command that is no command. -/
structure Unknown where
  word : Bytes
  deriving DecidableEq, Repr

/-- The commands that may be meant by a word. -/
def suggestions (word : Bytes) : List Command :=
  program.subcommands.filter fun c => c != help && Spelling.suggests word c.name

def Unknown.message (u : Unknown) : Bytes :=
  let meant := suggestions u.word
  utf8 "unknown command " ++ Quoted.double u.word ++ utf8 " for " ++ Quoted.double program.path ++
    if meant.isEmpty then []
    else utf8 "\n\nDid you mean this?\n" ++ meant.flatMap fun c => utf8 "\t" ++ c.name ++ utf8 "\n"

/-- The command that a command line asks for, with the arguments that are left for it. -/
def find (arguments : List Bytes) : Except Unknown (Command × List Bytes) :=
  match descend arguments with
  | (program, rest) =>
    match words program.ownFlags rest with
    | [] => .ok (program, rest)
    | word :: _ => .error ⟨word⟩
  | found => .ok found

end Command

end Linewise
