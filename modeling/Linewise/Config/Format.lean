import Linewise.Config.Basic
import Linewise.Replacement
import Linewise.Yaml.Document.Printer
import Linewise.Yaml.Shape

/-!
# Configuration files

Configurations are written as YAML, one pair for every field that says something.
-/

namespace Linewise.Config

/-- The names of the fields in files. -/
def followLinksKey : Bytes := utf8 "follow_symlinks"

def extensionsKey : Bytes := utf8 "extensions"

def filenamesKey : Bytes := utf8 "filenames"

def excludesKey : Bytes := utf8 "excludes"

def addFilesKey : Bytes := utf8 "add_files"

def rulePathsKey : Bytes := utf8 "rule_paths"

def ruleOptionsKey : Bytes := utf8 "rule_options"

def disabledRulesKey : Bytes := utf8 "disabled_rules"

/-- What a configuration file holds. -/
def shape : Yaml.Shape :=
  .record "config.Config"
    [(followLinksKey, .flag), (extensionsKey, .list .text), (filenamesKey, .list .text),
      (excludesKey, .list .text), (addFilesKey, .flag), (rulePathsKey, .list .text),
      (ruleOptionsKey, .table (.table .any)), (disabledRulesKey, .list .text)]

def flagOf : Option Value → Option Bool
  | some (.bool b) => some b
  | _ => none

def textOf : Value → Bytes
  | .string s => s
  | _ => []

def textsOf : Option Value → List Bytes
  | some (.list items) => items.map textOf
  | _ => []

/-- The named values of a table. -/
def namedOf : Value → List (Bytes × Value)
  | .map pairs => pairs.map fun (k, v) => (textOf k, v)
  | _ => []

/-- The configuration that a decoded file holds. -/
def ofValue (v : Value) : Config :=
  let fields := namedOf v
  { followLinks := flagOf (fields.lookup followLinksKey)
    extensions := textsOf (fields.lookup extensionsKey)
    filenames := textsOf (fields.lookup filenamesKey)
    excludes := textsOf (fields.lookup excludesKey)
    addFiles := (flagOf (fields.lookup addFilesKey)).getD false
    rulePaths := textsOf (fields.lookup rulePathsKey)
    ruleOptions := (namedOf ((fields.lookup ruleOptionsKey).getD .null)).map fun (id, v) =>
      (id, namedOf v)
    disabledRules := textsOf (fields.lookup disabledRulesKey) }

/-- Reads the text of a configuration file. -/
def parse (text : Bytes) : Except Yaml.DecodeError Config :=
  match Yaml.decode shape text with
  | .ok (some v) => .ok (ofValue v)
  | .ok none => .ok {}
  | .error e => .error e

/-- The message about a text that holds no configuration. -/
def parseMessage (e : Yaml.DecodeError) : Bytes := utf8 "failed to parse config: " ++ e.message

/-- A list as the value of a pair, when it is not empty. -/
def listPair (key : Bytes) (items : List Bytes) : List (Bytes × Value) :=
  if items.isEmpty then [] else [(key, .list (items.map .string))]

def optionsValue (options : List (Bytes × Settings)) : Value :=
  .map (options.map fun (id, s) => (.string id, .map (s.map fun (k, v) => (.string k, v))))

/-- The pairs of a configuration file, in order; fields that say nothing are left out. -/
def toPairs (c : Config) : List (Bytes × Value) :=
  (c.followLinks.map fun b => (followLinksKey, Value.bool b)).toList ++
    listPair extensionsKey c.extensions ++ listPair filenamesKey c.filenames ++
    listPair excludesKey c.excludes ++ (if c.addFiles then [(addFilesKey, .bool true)] else []) ++
    listPair rulePathsKey c.rulePaths ++
    (if c.ruleOptions.isEmpty then [] else [(ruleOptionsKey, optionsValue c.ruleOptions)]) ++
    listPair disabledRulesKey c.disabledRules

/-- The document of a configuration file. -/
def toDocument (c : Config) : Yaml.Document :=
  .mapping (c.toPairs.map fun (k, v) => (Yaml.Scalar.ofText k, Yaml.Document.ofValue v))

/-- The text of a configuration file. -/
def render (c : Config) : Bytes := c.toDocument.render

/-- The mode of new configuration files. -/
def fileMode : Nat := 0o644

/-- Why a configuration was not saved. -/
structure SaveError where
  path : Bytes
  cause : AtomicWrite.Error

def SaveError.message (e : SaveError) : Bytes :=
  utf8 "failed to save config " ++ e.path ++ utf8 ": " ++ e.cause.message

/-- Writes a configuration file. -/
def save (c : Config) (t : FileTree) (path : Bytes) : FileTree × Option SaveError :=
  let (t, e) := AtomicWrite.run t path c.render fileMode
  (t, e.map (⟨path, ·⟩))

end Linewise.Config
