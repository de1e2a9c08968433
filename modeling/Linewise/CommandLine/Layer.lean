import Linewise.CommandLine.Command
import Linewise.Config.Layers

/-!
# The configuration of a command line

The flags of a command line stand for a layer of configuration, which is merged over all others.
-/

namespace Linewise.Arguments

/-- The layer of configuration that flags stand for; `cwd` is the working directory. -/
def layer (a : Arguments) (cwd : Bytes) : Config where
  followLinks := if a.isOn Command.noSymlinksName then some false else none
  extensions := a.texts Command.filetypeName
  filenames := a.texts Command.fileName
  excludes := a.texts Command.excludeName
  addFiles := a.isOn Command.addFilesName
  rulePaths := (a.texts Command.rulePathName).map (Path.absolute cwd)
  disabledRules := a.texts Command.disableName

/-- Loads the configuration from all layers, that of the command line included. -/
def loadConfig (a : Arguments) (env : Environment) (j : Journal) :
    Journal × Except Config.LoadError Config :=
  let loader := Config.Loader.ofProcess env j.tree.cwd
  let (s, result) :=
    loader.load { toJournal := j } (a.texts Command.configName) (a.layer j.tree.cwd)
  (s.toJournal, result)

end Linewise.Arguments
