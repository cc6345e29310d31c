import SymbolMap.Error
import SymbolMap.Json
import SymbolMap.Plan.Selection

/-! The settings of a project and their defaults. -/
namespace SymbolMap

open SymbolMap.Text

/-- Settings for maps. -/
structure MapSettings where
  /-- Files and directories that a map only lists. -/
  skipPatterns : List String := []
  /-- The most lines of a map; zero for the default, negative for no limit. -/
  lineLimit : Int := 0
deriving Repr, DecidableEq

/-- Settings for walking directories. -/
structure ScanSettings where
  /-- The name of the files that hold ignore rules. -/
  ignoreFile : String := ".gitignore"
  /-- Names of directories that are never entered. -/
  skipDirs : List String := ["vendor", "node_modules"]
  /-- Files with more octets than this are listed without declarations. -/
  maxFileSize : Nat := 2 * 1024 * 1024
deriving Repr, DecidableEq

/-- All settings. -/
structure Settings where
  version : String := "1.0"
  map : MapSettings := {}
  scan : ScanSettings := {}
deriving Repr, DecidableEq

/-- What makes settings for walking unusable, if anything does. -/
def ScanSettings.fault? (scan : ScanSettings) : Option SettingsFault :=
  let name := scan.ignoreFile.toList
  if (trim name).isEmpty then some .blankIgnoreFile
  else if name.any fun c => c == '/' || c == '\\' then some (.ignoreFileIsPath scan.ignoreFile)
  else if scan.maxFileSize = 0 then some .zeroFileSize
  else none

/-- Accept settings that can be used. -/
def Settings.validate (settings : Settings) : Except Error Settings :=
  match settings.scan.fault? with
  | some fault => .error (.settings fault)
  | none => .ok settings

/-- The budget that the settings give a map. -/
def MapSettings.budget (settings : MapSettings) : Plan.Budget :=
  Plan.Budget.ofLimit settings.lineLimit

/-- What a map is asked for: the settings, further skip patterns, a limit in
place of that of the settings, and a filter. -/
def MapSettings.options (settings : MapSettings) (skip : List String) (limit : Option Int)
    (filter : Option String) : Plan.Options :=
  let options : Plan.Options := {
    skipPatterns := settings.skipPatterns ++ skip
    budget := (limit.map Plan.Budget.ofLimit).getD settings.budget }
  options.withFilter filter

/-- Settings as JSON. -/
def Settings.toJson (settings : Settings) : Json.Value :=
  .obj [("version", .str settings.version),
    ("map", .obj [("skip_patterns", .strs settings.map.skipPatterns),
      ("line_limit", .num settings.map.lineLimit)]),
    ("scan", .obj [("ignore_file", .str settings.scan.ignoreFile),
      ("skip_dirs", .strs settings.scan.skipDirs),
      ("max_file_size", .nat settings.scan.maxFileSize)])]

end SymbolMap
