import SymbolMap.Command.Arguments
import SymbolMap.Settings.Environment

/-! What a command line asks for. -/
namespace SymbolMap.Command

/-- One command with its arguments. -/
inductive Request where
  | map (path filter : Option String) (skip : List String) (limit : Option Int) (format : String)
  | definition (file name : String)
  | refs (name : String) (path : Option String) (format : String)
  | configShow (path : Option String) (format : String)
  | configPath (path : Option String)
  | configInit (everywhere force : Bool) (path : Option String)
deriving Repr, DecidableEq

/-- A command and the options that all commands have. -/
structure Invocation where
  request : Request
  /-- A settings file over that of the project. -/
  config : Option String
  quiet : Bool
deriving Repr, DecidableEq

/-- What a command line comes to. -/
inductive Reading where
  | invoke (invocation : Invocation)
  | version
  | help
  /-- The arguments are not in order. -/
  | usage
deriving Repr, DecidableEq

/-- A path must not be empty. -/
def refusesPath (value : String) : Bool := value.isEmpty

/-- The limit that an argument stands for: a signed number of 64 bits. -/
def limitOf? (value : String) : Option Int :=
  (Settings.Environment.wordInteger? value.toList).filter Settings.Toml.fitsWord

/-- The options of every level. -/
def sharedOptions : List OptionSpec := [
  { long := "config", short := some 'c', valued := true, refuses := refusesPath },
  { long := "verbose" },
  { long := "quiet", short := some 'q' }]

/-- The option that names a directory. -/
def pathOption (short : Option Char) : OptionSpec :=
  { long := "path", short, valued := true, refuses := refusesPath }

/-- The option that names a format. -/
def formatOption : OptionSpec := { long := "format", valued := true }

/-- The program itself. -/
def topLevel : Level :=
  { options := sharedOptions
    subcommands := ["map", "show", "refs", "config", "help"]
    versioned := true }

/-- The command that prints a map. -/
def mapLevel : Level :=
  { options := sharedOptions ++ [
      { long := "filter", short := some 'f', valued := true },
      { long := "skip", valued := true, repeatable := true },
      { long := "limit", valued := true, negative := true,
        refuses := fun value => (limitOf? value).isNone },
      formatOption]
    positionals := [("PATH", refusesPath)] }

/-- The command that shows a definition. -/
def showLevel : Level :=
  { options := sharedOptions
    positionals := [("FILE", refusesPath), ("SYMBOL", fun _ => false)] }

/-- The command that finds references. -/
def refsLevel : Level :=
  { options := sharedOptions ++ [pathOption (some 'p'), formatOption]
    positionals := [("SYMBOL", fun _ => false)] }

/-- The commands on settings. -/
def configLevel : Level :=
  { options := sharedOptions, subcommands := ["show", "path", "init", "help"] }

/-- The command that shows the settings in force. -/
def configShowLevel : Level := { options := sharedOptions ++ [pathOption none, formatOption] }

/-- The command that tells where settings are kept. -/
def configPathLevel : Level := { options := sharedOptions ++ [pathOption none] }

/-- The command that makes a settings file. -/
def configInitLevel : Level :=
  { options := sharedOptions ++ [
      { long := "global", short := some 'g' }, { long := "force" }, pathOption none] }

/-- The commands below the one that some names lead to. -/
def commandsBelow : List String → List String
  | [] => topLevel.subcommands
  | ["config"] => configLevel.subcommands
  | _ => []

/-- Whether names lead from a command to another, each to one below the one
before. -/
def leadsToCommand (chain : List String) : List String → Bool
  | [] => true
  | name :: names =>
    (commandsBelow chain).contains name && leadsToCommand (chain ++ [name]) names

/-- Read a command without further ones below it. `outer` holds the shared
options of the levels above; the same option further in wins. -/
def readLeaf (level : Level) (outer : Found) (args : List String)
    (request? : Found → Option Request) : Reading :=
  match scan level {} args with
  | .refused | .subcommand .. => .usage
  | .version => .version
  | .help => .help
  | .done found =>
    match request? found with
    | none => .usage
    | some request =>
      let shared := outer ++ found
      .invoke { request, config := value? shared "config", quiet := isSet shared "quiet" }

/-- Read a command on settings. -/
def readConfig (outer : Found) (args : List String) : Reading :=
  match scan configLevel {} args with
  | .refused | .done _ => .usage
  | .version => .version
  | .help => .help
  | .subcommand found name rest =>
    let shared := outer ++ found
    match name with
    | "show" => readLeaf configShowLevel shared rest fun found =>
        some (.configShow (value? found "path") ((value? found "format").getD "toml"))
    | "path" => readLeaf configPathLevel shared rest fun found =>
        some (.configPath (value? found "path"))
    | "init" => readLeaf configInitLevel shared rest fun found =>
        some (.configInit (isSet found "global") (isSet found "force") (value? found "path"))
    | _ => if leadsToCommand ["config"] rest then .help else .usage

/-- Read a command line. -/
def read (args : List String) : Reading :=
  match scan topLevel {} args with
  | .refused | .done _ => .usage
  | .version => .version
  | .help => .help
  | .subcommand shared name rest =>
    match name with
    | "map" => readLeaf mapLevel shared rest fun found =>
        some (.map (value? found "PATH") (value? found "filter") (values found "skip")
          ((value? found "limit").bind limitOf?) ((value? found "format").getD "text"))
    | "show" => readLeaf showLevel shared rest fun found => do
        some (.definition (← value? found "FILE") (← value? found "SYMBOL"))
    | "refs" => readLeaf refsLevel shared rest fun found => do
        some (.refs (← value? found "SYMBOL") (value? found "path")
          ((value? found "format").getD "text"))
    | "config" => readConfig shared rest
    | _ => if leadsToCommand [] rest then .help else .usage

end SymbolMap.Command
