import Linewise.PathFilter
import Linewise.Value

/-!
# Configurations

A configuration says which files are checked and how. Configurations come in layers: merging a layer
over another appends to its lists without repetition, sets options of rules one by one, and
overrides the rest only where the layer says something.
-/

namespace Linewise

/-- One layer of configuration, or the result of merging layers. -/
structure Config where
  /-- Whether symbolic links are followed, if the layer says so. -/
  followLinks : Option Bool := none
  /-- The extensions of the files to check, without dots. -/
  extensions : List Bytes := []
  /-- The names of further files to check. -/
  filenames : List Bytes := []
  /-- Patterns of full paths that no rule looks at. -/
  excludes : List Bytes := []
  /-- Whether extensions and names add to the standard ones instead of replacing them. -/
  addFiles : Bool := false
  /-- The directories with excludes files of rules. -/
  rulePaths : List Bytes := []
  /-- The options of rules, by id. -/
  ruleOptions : List (Bytes × Settings) := []
  /-- The ids of rules that do not run. -/
  disabledRules : List Bytes := []

namespace Config

/-- The name of configuration files. -/
def fileName : Bytes := utf8 ".fuzzrc"

/-- The extensions that are checked when none are configured. -/
def standardExtensions : List Bytes :=
  ["h", "hxx", "hpp", "c", "cc", "cxx", "cpp", "H", "C", "inl", "asm", "rb", "erb", "pl", "pm",
    "py", "idl", "pidl", "mwc", "mpc", "mpb", "mpt", "mpd", "cdp", "xml", "conf", "html", "asc",
    "adoc"].map utf8

/-- The file names that are checked when none are configured. -/
def standardFilenames : List Bytes := ["ChangeLog", "README"].map utf8

/-- The layer below all others. -/
def standard : Config := { followLinks := some true }

/-- A list of named things with one of them set; a new name goes last. -/
def setNamed {α : Type} (name : Bytes) (x : α) : List (Bytes × α) → List (Bytes × α)
  | [] => [(name, x)]
  | (n, y) :: rest => if n == name then (n, x) :: rest else (n, y) :: setNamed name x rest

/-- Settings with those of another list set over them. -/
def overlay (lower upper : Settings) : Settings :=
  upper.foldl (fun s (k, v) => setNamed k v s) lower

/-- The options of rules with those of a layer set over them. -/
def overlayOptions (lower upper : List (Bytes × Settings)) : List (Bytes × Settings) :=
  upper.foldl (fun opts (id, s) => setNamed id (overlay ((opts.lookup id).getD []) s) opts) lower

/-- A configuration with a layer merged over it. -/
def merge (c layer : Config) : Config where
  followLinks := layer.followLinks.or c.followLinks
  extensions := appendNew c.extensions layer.extensions
  filenames := appendNew c.filenames layer.filenames
  excludes := appendNew c.excludes layer.excludes
  addFiles := c.addFiles || layer.addFiles
  rulePaths := appendNew c.rulePaths layer.rulePaths
  ruleOptions := overlayOptions c.ruleOptions layer.ruleOptions
  disabledRules := appendNew c.disabledRules layer.disabledRules

/-- A configuration with a layer merged over it, if there is one. -/
def mergeAny (c : Config) : Option Config → Config
  | none => c
  | some layer => c.merge layer

/-- Whether symbolic links are followed. -/
def follows (c : Config) : Bool := c.followLinks.getD true

/-- A configured list, or the standard one in its place or after it. -/
def orStandard (add : Bool) (configured standard : List Bytes) : List Bytes :=
  if configured.isEmpty || add then appendNew configured standard else configured

/-- The extensions of the files that are checked. -/
def checkedExtensions (c : Config) : List Bytes :=
  orStandard c.addFiles c.extensions standardExtensions

/-- The names of the files that are checked. -/
def checkedFilenames (c : Config) : List Bytes :=
  orStandard c.addFiles c.filenames standardFilenames

/-- The patterns of the paths of the files that are checked. -/
def includes (c : Config) : List Bytes :=
  PathFilter.includePatterns c.checkedExtensions c.checkedFilenames

end Config

end Linewise
