import SymbolMap.Command.Request
import SymbolMap.Index
import SymbolMap.Settings.Layers
import SymbolMap.Settings.Toml.Printer

/-! Running a command on a disk: what it prints, what it reports beside, how
it ends, and the disk that it leaves. -/
namespace SymbolMap.Command

open SymbolMap.Text

/-- What a command leaves behind. -/
structure Outcome where
  code : Nat := 0
  stdout : String := ""
  stderr : String := ""

/-- The end of a command that failed. -/
def failure (error : Error) : Outcome :=
  { code := 1, stderr := "✗ " ++ error.withCause ++ "\n" }

/-- The end of a command that succeeds unless there was an error. -/
def outcome {α : Type} (result : Except Error α) (done : α → Outcome) : Outcome :=
  match result with
  | .ok a => done a
  | .error error => failure error

/-- A line with a label, which takes ten columns with its colon. -/
def labelled (label value : String) : String :=
  let head := label ++ ":"
  "  " ++ head ++ String.ofList (List.replicate (10 - head.length) ' ') ++ " " ++ value ++ "\n"

/-- The warning that a map is still too long. -/
def overBudget (plan : Plan.MapPlan) : String :=
  "⚠ Map still needs " ++ toString plan.totalCost ++ " lines after pruning (" ++
    plan.budget.describe ++ "); narrow it with --filter\n"

/-- Print a map of files. -/
def printMap (files : List FileOutline) (options : Plan.Options) (format : String)
    (quiet : Bool) : Outcome :=
  let plan := Report.planMap files options
  { stdout :=
      if format = "json" then (Report.toJson files plan).render ++ "\n"
      else Report.text files plan
    stderr := if plan.withinBudget || quiet then "" else overBudget plan }

/-- Print the references to a name. -/
def printReferences (name : String) (refs : List Reference) (format : String) : Outcome :=
  if format = "json" then
    { stdout := (Json.Value.arr (refs.map Reference.toJson)).render ++ "\n" }
  else
    let text := Reference.report name refs
    { stdout := if text.toList.getLast? = some '\n' then text else text ++ "\n" }

/-- Print settings. -/
def printSettings (settings : Settings) (format : String) : Outcome :=
  let text := if format = "json" then settings.toJson.render else settings.toToml
  { stdout := String.ofList (trimEnd text.toList) ++ "\n" }

/-- A path, and whether it leads nowhere. -/
def describePath (disk : Disk) (path : String) : String :=
  if disk.isPresent path then path else path ++ " (not found)"

/-- Tell where settings are kept. -/
def printPaths (disk : Disk) (vars : Settings.Environment.Variables) (root : String) :
    Outcome :=
  let everywhere := match Settings.globalFile? vars with
    | some path => describePath disk path
    | none => "(no config directory)"
  { stdout := "\nConfiguration files\n" ++ String.ofList (List.replicate 40 '─') ++ "\n" ++
      labelled "Global" everywhere ++
      labelled "Project" (describePath disk (Settings.projectFile root)) ++
      labelled "Env" "CODEMAP_<SECTION>__<KEY>" }

/-- Tell what making a settings file came to. -/
def printCreated (scope : String) (created : Settings.Created) : Outcome :=
  let line :=
    if created.written then "✓ Initialized " ++ scope ++ " configuration\n"
    else "ℹ Kept existing " ++ scope ++ " configuration (use --force to overwrite)\n"
  { stdout := line ++ labelled "Config" created.path }

/-- Make a settings file, globally or for the project at a root. -/
def runInit (disk : Disk) (vars : Settings.Environment.Variables)
    (everywhere force : Bool) (root : String) : Disk × Outcome :=
  if everywhere then
    let (disk, result) := Settings.createGlobal disk vars force
    (disk, outcome result (printCreated "global"))
  else if disk.isDir root then
    let (disk, result) := Settings.createProject disk root force
    (disk, outcome result (printCreated "project"))
  else (disk, failure (.invalidInput (.notADirectory root)))

/-- Run a command. -/
def run (disk : Disk) (vars : Settings.Environment.Variables) (invocation : Invocation) :
    Disk × Outcome :=
  let here (path : Option String) : String := path.getD "."
  match invocation.request with
  | .map path filter skip limit format =>
    let root := here path
    (disk, outcome (do
      let settings ← Settings.load disk vars root invocation.config
      let files ← Index.outlines disk root settings.scan
      return (settings, files)) fun (settings, files) =>
        printMap files (settings.map.options skip limit filter) format invocation.quiet)
  | .definition file name =>
    (disk, outcome (Index.definition disk file name) fun definition =>
      { stdout := definition.render })
  | .refs name path format =>
    let root := here path
    (disk, outcome (do
      let settings ← Settings.load disk vars root invocation.config
      Index.references disk root name settings.scan) fun refs =>
        printReferences name refs format)
  | .configShow path format =>
    (disk, outcome (Settings.load disk vars (here path) invocation.config) fun settings =>
      printSettings settings format)
  | .configPath path => (disk, printPaths disk vars (here path))
  | .configInit everywhere force path => runInit disk vars everywhere force (here path)

/-- The version of the program. -/
def versionText : String := "codemap 0.1.0\n"

/-- How to call the program. -/
def usageText : String :=
  "Budgeted symbol maps for source trees\n\nUsage: codemap [OPTIONS] <COMMAND>\n\nCommands:\n" ++
  "  map     Print the symbol map of a directory\n" ++
  "  show    Show the definition of a symbol in a file\n" ++
  "  refs    Find references to a symbol\n" ++
  "  config  Manage configuration\n" ++
  "  help    Print this message or the help of the given subcommand(s)\n"

/-- Run a command line. -/
def runLine (disk : Disk) (vars : Settings.Environment.Variables) (args : List String) :
    Disk × Outcome :=
  match read args with
  | .invoke invocation => run disk vars invocation
  | .version => (disk, { stdout := versionText })
  | .help => (disk, { stdout := usageText })
  | .usage => (disk, { code := 2, stderr := usageText })

end SymbolMap.Command
