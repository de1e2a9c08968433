import Linewise.CommandLine.Command

/-!
# Help

The help on a command: what it does, how it is called, the commands below it and its flags.
-/

namespace Linewise.Command

/-- Lines of text. -/
def lines (ls : List String) : Bytes := Bytes.joinWith (utf8 "\n") (ls.map utf8)

/-- What a command does, in one line. -/
def short : Command → Bytes
  | program => utf8 "Line-oriented source linter with pluggable rules"
  | check => utf8 "Check files and directories against the registered rules"
  | list => utf8 "List the registered rules"
  | config => utf8 "Inspect and write fuzz configuration"
  | configShow => utf8 "Print the effective configuration as YAML"
  | configWrite => utf8 "Write the configuration given by flags to FILE"
  | help => utf8 "Help about any command"
  | completion => utf8 "Generate the autocompletion script for the specified shell"

/-- What a command does. -/
def long : Command → Bytes
  | program =>
    lines ["Fuzz walks files and directories and runs a set of checking rules",
      "over every line, reporting violations as <path>:[<line>,...] <message>.",
      "",
      "Rules can be switched off for a stretch of a file with in-file directives:",
      "",
      "  // X11_FUZZ: disable check_whitespace",
      "  ...",
      "  // X11_FUZZ: enable check_whitespace",
      "",
      "With --apply-fix, rules that support it repair what they find and changed",
      "files are replaced atomically."]
  | check =>
    lines ["Check expands each argument as a glob pattern (** matches any number of",
      "directories) and checks every matching file and directory, descending into",
      "directories unless --no-recurse is given. Without arguments every",
      "non-hidden entry of the working directory is checked.",
      "",
      "Configuration is read from ~/.fuzzrc, the files in $FUZZRC, files given",
      "with --config and every .fuzzrc from the filesystem root down to the",
      "working directory. Command line flags are applied last.",
      "",
      "Examples:",
      "  fuzz check                          # check the working directory",
      "  fuzz check 'src/**/*.cpp'           # check C++ sources below src",
      "  fuzz check -p src                   # fix what can be fixed",
      "  fuzz check -B check_fileheader .    # skip one rule",
      "  fuzz check -p --wsc-tab-spacing=4 . # expand tabs to four spaces"]
  | configShow =>
    lines ["Show merges every configuration layer the check command would use,",
      "including the flags given here, and prints the result."]
  | configWrite =>
    lines ["Write saves the configuration given on the command line, and only that,",
      "to FILE (default .fuzzrc) so later runs pick it up.",
      "",
      "Example:",
      "  fuzz config write -X '/generated/' -B check_id_tag"]
  | help =>
    lines ["Help provides help for any command in the application.",
      "Simply type fuzz help [path to command] for full details."]
  | c => c.short

/-- What stands for the words of a command. -/
def operands : Command → Bytes
  | check => utf8 " [glob...]"
  | configWrite => utf8 " [FILE]"
  | help => utf8 " [command]"
  | _ => []

/-- Text with blanks after it up to a width. -/
def padTo (width : Nat) (text : Bytes) : Bytes :=
  text ++ List.replicate (width - text.length) 32

/-- The name of the value that a flag takes, with a blank in front. -/
def valueName : FlagKind → Bytes
  | .switch => []
  | .count => utf8 " count"
  | .number => utf8 " int"
  | .text => utf8 " string"
  | .texts => utf8 " stringArray"

/-- A flag as the list of flags shows it. -/
def flagColumn (f : Flag) : Bytes :=
  (if f.letter.isSome then utf8 "  " else utf8 "      ") ++ f.label ++ valueName f.kind

/-- The blanks between the longest flag and its usage. -/
def flagGap : Nat := 3

/-- The width of the names of commands. -/
def nameWidth : Nat := 11

/-- Flags in the order of their names, each with its usage. -/
def flagLines (flags : List Flag) : List Bytes :=
  let sorted := flags.mergeSort fun f g => Bytes.le f.name g.name
  let width := (sorted.map fun f => (flagColumn f).length).foldl max 0
  sorted.map fun f => padTo (width + flagGap) (flagColumn f) ++ f.usage

/-- The commands below a command in the order of their names. -/
def commandLines (c : Command) : List Bytes :=
  (c.subcommands.mergeSort fun a b => Bytes.le a.name b.name).map fun sub =>
    utf8 "  " ++ padTo nameWidth sub.name ++ utf8 " " ++ sub.short

/-- How a command is called. -/
def callLine (c : Command) : Bytes :=
  if c.isRunnable then utf8 "  " ++ c.path ++ c.operands ++ utf8 " [flags]"
  else utf8 "  " ++ c.path ++ utf8 " [command]"

/-- How a command is called, the commands below it and the given flags. -/
def usage (c : Command) (flags : List Flag) : Bytes :=
  let listing (title : String) (ls : List Bytes) : List Bytes :=
    if ls.isEmpty then [] else [[], utf8 title] ++ ls
  let more := if c.subcommands.isEmpty then []
    else [[], utf8 "Use \"" ++ c.path ++
      utf8 " [command] --help\" for more information about a command."]
  ([utf8 "Usage:", c.callLine] ++ listing "Available Commands:" c.commandLines ++
    listing "Flags:" (flagLines flags) ++ more).flatMap (· ++ utf8 "\n")

/-- The help on a command. -/
def helpText (c : Command) : Bytes := c.long ++ utf8 "\n\n" ++ c.usage c.flags

/-- What is shown when help is wanted on something that is no command. -/
def unknownTopic (topic : List Bytes) : Bytes :=
  utf8 "Unknown help topic [" ++ Bytes.joinWith (utf8 " ") (topic.map Quoted.verbatim) ++
    utf8 "]\n" ++ program.usage []

end Linewise.Command
