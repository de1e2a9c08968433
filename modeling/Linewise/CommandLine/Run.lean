import Linewise.CommandLine.Check
import Linewise.CommandLine.Help

/-!
# Running commands

`CommandLine.run` is the whole program: it finds the command, reads its arguments and runs it.
-/

namespace Linewise.CommandLine

/-- The version of the program. -/
def version : Bytes := utf8 "dev"

/-- What asking for the version answers. -/
def versionText : Bytes := utf8 "fuzz version " ++ version ++ utf8 "\n"

/-- The blanks between the columns of a table. -/
def columnGap : Nat := 3

/-- Rows of two columns, the second as far left as the first allows. -/
def table (rows : List (Bytes × Bytes)) : Bytes :=
  let width := (rows.map fun row => row.1.length).foldl max 0
  rows.flatMap fun (left, right) =>
    Command.padTo (width + columnGap) left ++ right ++ utf8 "\n"

/-- The command `list`: the rules and what they do. -/
def list (p : Process) : Answer :=
  let rules := Registry.standard.rules
  let title (text : String) : Bytes :=
    if p.color then Highlight.paint [.cyan, .bold] (utf8 text) else utf8 text
  let rows := (title "RULE", title "DESCRIPTION") :: rules.map fun r => (r.id, r.description)
  { tree := p.tree
    out := table rows ++ utf8 "\n" ++ Bytes.ofNat rules.length ++ utf8 " rules registered\n" }

/-- The command `config show`: the configuration from all layers. -/
def showConfig (p : Process) (a : Arguments) : Answer :=
  match a.loadConfig p.env { tree := p.tree } with
  | (_, .error e) => { tree := p.tree, failure := some (.config e) }
  | (_, .ok c) => { tree := p.tree, out := c.render }

/-- The command `config write`: saves the layer that the command line stands for. -/
def writeConfig (p : Process) (a : Arguments) : Answer :=
  let path := a.words.head?.getD Config.fileName
  match (a.layer p.tree.cwd).save p.tree path with
  | (t, some e) => { tree := t, failure := some (.save e) }
  | (t, none) =>
    { tree := t, out := utf8 "Configuration written to " ++ path ++ utf8 "\n" }

/-- The command `help`: the help on the command that some words name. -/
def help (p : Process) (topic : List Bytes) : Answer :=
  match Command.find topic with
  | .ok (c, _) => { tree := p.tree, out := c.helpText }
  | .error _ => { tree := p.tree, notice := Command.unknownTopic topic }

/-- Runs a command that does something of its own; the others show their help. -/
def perform (p : Process) (a : Arguments) : Command → Answer
  | .check => Check.run p a
  | .list => list p
  | .configShow => showConfig p a
  | .configWrite => writeConfig p a
  | .help => help p a.words
  | c => { tree := p.tree, out := c.helpText }

/-- What is wrong with the words of a command. -/
def misuse? (c : Command) (words : List Bytes) : Option Failure :=
  match c, words with
  | .list, word :: _ => some (.unexpected word .list)
  | .configShow, word :: _ => some (.unexpected word .configShow)
  | .configWrite, words => if words.length > 1 then some (.tooMany 1 words.length) else none
  | _, _ => none

/-- Runs a command with its arguments. Asking for help comes before anything else, and asking for
the version before the command itself. -/
def runCommand (p : Process) (c : Command) (arguments : List Bytes) : Answer :=
  match Arguments.read c.flags arguments with
  | .error e => { tree := p.tree, failure := some (.arguments e) }
  | .ok a =>
    if a.isOn Arguments.helpName then { tree := p.tree, out := c.helpText }
    else if c == .program && a.isOn Command.versionName then { tree := p.tree, out := versionText }
    else
      match misuse? c a.words with
      | some f => { tree := p.tree, failure := some f }
      | none => perform p a c

/-- Runs the program. -/
def run (p : Process) (arguments : List Bytes) : Answer :=
  match Command.find arguments with
  | .error e => { tree := p.tree, failure := some (.unknownCommand e) }
  | .ok (c, rest) => runCommand p c rest

end Linewise.CommandLine
