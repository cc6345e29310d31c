import SymbolMap.Disk.Basic
import SymbolMap.Settings.Basic
import SymbolMap.Settings.Environment
import SymbolMap.Settings.Toml.Reader

/-! Settings from several layers, of which later ones win field by field: the
defaults, the global file, the file of the project, a file asked for, and the
variables of the process. -/
namespace SymbolMap.Settings

/-- A text value. -/
def Value.text? : Value → Option String
  | .str text => some text
  | _ => none

/-- A list of texts. -/
def Value.texts? : Value → Option (List String)
  | .arr items => items.mapM Value.text?
  | _ => none

/-- An integer from one bound up to another, which it does not reach. -/
def Value.intIn? (low high : Int) : Value → Option Int
  | .int n => if low ≤ n && n < high then some n else none
  | _ => none

/-- The fields of a section. An array gives them by position; what it has
beyond them is ignored. -/
def Value.section? (names : List String) : Value → Option Fields
  | .table fields => some fields
  | .arr items => some (names.zip items)
  | _ => none

/-- Read one field, if it is there. -/
def readField {α : Type} (fields : Fields) (key : String) (read? : Value → Option α)
    (missing : α) : Option α :=
  match field? key fields with
  | some value => read? value
  | none => some missing

/-- Settings for maps from their section. -/
def readMap? (value : Value) : Option MapSettings := do
  let fields ← value.section? ["skip_patterns", "line_limit"]
  let missing : MapSettings := {}
  let skipPatterns ← readField fields "skip_patterns" Value.texts? missing.skipPatterns
  let lineLimit ← readField fields "line_limit" (Value.intIn? (-(signedBound : Int)) signedBound)
    missing.lineLimit
  some { skipPatterns, lineLimit }

/-- Settings for walking from their section. -/
def readScan? (value : Value) : Option ScanSettings := do
  let fields ← value.section? ["ignore_file", "skip_dirs", "max_file_size"]
  let missing : ScanSettings := {}
  let ignoreFile ← readField fields "ignore_file" Value.text? missing.ignoreFile
  let skipDirs ← readField fields "skip_dirs" Value.texts? missing.skipDirs
  let maxFileSize ← readField fields "max_file_size"
    (fun value => (value.intIn? 0 wordCount).map Int.toNat) missing.maxFileSize
  some { ignoreFile, skipDirs, maxFileSize }

/-- All settings from fields. A field that is missing has its default, one
that is not known is ignored, and one of the wrong type spoils them all. -/
def ofFields? (fields : Fields) : Option Settings := do
  let version ← readField fields "version" Value.text? ({} : Settings).version
  let map ← readField fields "map" readMap? {}
  let scan ← readField fields "scan" readScan? {}
  some { version, map, scan }

/-- The settings of layers over the defaults, if they can be used. -/
def ofLayers (layers : List (Option Fields)) : Except Error Settings :=
  match (layers.mapM id).bind fun all => ofFields? (all.foldl fieldsOver []) with
  | some settings => settings.validate
  | none => .error (.settings .malformed)

/-- The file that a path leads to from the working directory, or else from the
nearest directory above it from which it leads to one. A path from the top of
the file system is not searched for. -/
def searchFile? (disk : Disk) (path : String) : Option Document :=
  match Path.isAbsolute path with
  | true => disk.file? path
  | false => (Path.placesAbove disk.cwd).findSome? fun place =>
    disk.file? (Path.child (Path.ofPlace place) path)

/-- The layer of a file. A path that leads to no file gives an empty one; a
file that is no text or no document gives none. -/
def fileLayer (disk : Disk) (path : String) : Option Fields :=
  match searchFile? disk path with
  | none => some []
  | some doc => if Text.isUtf8 doc.bytes then Toml.read? doc.text else none

/-- The layer of a file that is left out when its path leads nowhere. -/
def presentLayer (disk : Disk) (path : String) : Option Fields :=
  if disk.isPresent path then fileLayer disk path else some []

/-- The name of settings files. -/
def fileName : String := "config.toml"

/-- The directory of a project's settings in the project. -/
def projectDirName : String := ".codemap"

/-- The file of the settings of the project at a root. -/
def projectFile (root : String) : String :=
  Path.child (Path.child root projectDirName) fileName

/-- The directory of the global settings, which two variables can name. -/
def globalDir? (vars : Environment.Variables) : Option String :=
  let base := match vars.lookup "XDG_CONFIG_HOME" with
    | some dir => if dir.isEmpty then none else some dir
    | none => none
  (base.or ((vars.lookup "HOME").map fun home => Path.child home ".config")).map fun dir =>
    Path.child dir "codemap"

/-- The file of the global settings. -/
def globalFile? (vars : Environment.Variables) : Option String :=
  (globalDir? vars).map fun dir => Path.child dir fileName

/-- The settings for the project at a root. A file asked for has to be
there. -/
def load (disk : Disk) (vars : Environment.Variables) (root : String)
    (explicit : Option String) : Except Error Settings :=
  match explicit.filter fun path => !disk.isPresent path with
  | some path => .error (.settings (.missingFile path))
  | none =>
    let paths := (globalFile? vars).toList ++ [projectFile root] ++ explicit.toList
    ofLayers (paths.map (presentLayer disk) ++ [some (Environment.fieldsOf vars)])

/-- The settings of one file over the defaults. -/
def loadFile (disk : Disk) (path : String) : Except Error Settings :=
  ofLayers [fileLayer disk path]

/-- The text of a new settings file. -/
def template : String :=
  "# codemap configuration\n" ++
  "# Project settings in .codemap/config.toml override ~/.config/codemap/config.toml.\n" ++
  "\n" ++
  "version = \"1.0\"\n" ++
  "\n" ++
  "[map]\n" ++
  "# Path prefixes shown as \"skipped by default\" unless selected with --filter\n" ++
  "skip_patterns = []\n" ++
  "# Maximum output lines (0 = default of 1000, negative = unlimited)\n" ++
  "line_limit = 0\n" ++
  "\n" ++
  "[scan]\n" ++
  "ignore_file = \".gitignore\"\n" ++
  "skip_dirs = [\"vendor\", \"node_modules\"]\n" ++
  "max_file_size = 2097152\n"

/-- What making a settings file came to. -/
structure Created where
  path : String
  /-- The file was written, not kept. -/
  written : Bool
deriving Repr, DecidableEq

/-- Make a settings file and the directories above it. A file that is there
is kept unless `force` says otherwise. -/
def create (disk : Disk) (path : String) (force : Bool) :
    Disk × Except Error Created :=
  match disk.makeParents path with
  | (partly, .error fault) => (partly, .error (.io fault))
  | (ready, .ok ()) =>
    if force || !ready.isPresent path then
      match ready.writeFile path (.ofText template) with
      | .ok written => (written, .ok { path, written := true })
      | .error fault => (ready, .error (.io fault))
    else (ready, .ok { path, written := false })

/-- Make the settings file of a project. -/
def createProject (disk : Disk) (root : String) (force : Bool) :
    Disk × Except Error Created :=
  create disk (projectFile root) force

/-- Make the file of the global settings. -/
def createGlobal (disk : Disk) (vars : Environment.Variables) (force : Bool) :
    Disk × Except Error Created :=
  match globalFile? vars with
  | some path => create disk path force
  | none => (disk, .error (.settings .noGlobalDirectory))

end SymbolMap.Settings
