import SymbolMap.Text.Quoted

/-! What can go wrong, and how it is said. -/
namespace SymbolMap

/-- Why an operation on files failed. -/
inductive Fault where
  | notFound
  | notADirectory
  | isADirectory
  | fileExists
  | tooManyLinks
  /-- A name, or a path as a whole, has too many octets. -/
  | nameTooLong
  /-- A path holds the character that ends one. -/
  | nulInPath
  | invalidArgument
  | busy
  | other (text : String)
deriving Repr, DecidableEq

/-- The wording of a fault. -/
def Fault.message : Fault → String
  | notFound => "No such file or directory (os error 2)"
  | notADirectory => "Not a directory (os error 20)"
  | isADirectory => "Is a directory (os error 21)"
  | fileExists => "File exists (os error 17)"
  | tooManyLinks => "Too many levels of symbolic links (os error 40)"
  | nameTooLong => "File name too long (os error 36)"
  | nulInPath => "file name contained an unexpected NUL byte"
  | invalidArgument => "Invalid argument (os error 22)"
  | busy => "Device or resource busy (os error 16)"
  | other text => text

/-- Why a request was refused. -/
inductive InputFault where
  | missingSymbolName
  | notADirectory (path : String)
  | other (text : String)
deriving Repr, DecidableEq

/-- The wording of a refused request. -/
def InputFault.message : InputFault → String
  | missingSymbolName => "symbol name is required"
  | notADirectory path => path ++ " is not a directory"
  | other text => text

/-- Why settings cannot be used. -/
inductive SettingsFault where
  /-- The ignore files would have a blank name. -/
  | blankIgnoreFile
  /-- The name of the ignore files is a path. -/
  | ignoreFileIsPath (name : String)
  | zeroFileSize
  /-- The file asked for does not exist. -/
  | missingFile (path : String)
  /-- The environment names no place for global settings. -/
  | noGlobalDirectory
  /-- A layer cannot be read, or a value has the wrong type. -/
  | malformed
  | other (text : String)
deriving Repr, DecidableEq

/-- The wording of a fault in settings. -/
def SettingsFault.message : SettingsFault → String
  | blankIgnoreFile => "scan.ignore_file must not be empty"
  | ignoreFileIsPath name => "scan.ignore_file must be a file name, got " ++ Text.quote name
  | zeroFileSize => "scan.max_file_size must be greater than 0"
  | missingFile path => "Config file not found: " ++ path
  | noGlobalDirectory => "Cannot determine global config directory"
  | malformed => "Configuration error"
  | other text => text

/-- Everything that can stop a command. -/
inductive Error where
  | io (fault : Fault)
  | json (detail : String)
  /-- The directory to index cannot be read. -/
  | rootUnavailable (path : String) (fault : Fault)
  | parse (path message : String)
  | unsupportedLanguage (name : String)
  | fileNotFound (path : String)
  | symbolNotFound (name path : String)
  | invalidInput (fault : InputFault)
  | settings (fault : SettingsFault)
deriving Repr, DecidableEq

namespace Error

/-- The wording of an error. -/
def message : Error → String
  | io fault => "IO error: " ++ fault.message
  | json detail => "JSON error: " ++ detail
  | rootUnavailable path fault => "Cannot index " ++ path ++ ": " ++ fault.message
  | parse path message => "Parse error in " ++ path ++ ": " ++ message
  | unsupportedLanguage name => "Unsupported file type: " ++ name
  | fileNotFound path => "File not found: " ++ path
  | symbolNotFound name path => "Symbol " ++ Text.quote name ++ " not found in " ++ path
  | invalidInput fault => "Invalid input: " ++ fault.message
  | settings fault => "Config error: " ++ fault.message

/-- The error that lies behind another. -/
def cause? : Error → Option String
  | io fault => some fault.message
  | json detail => some detail
  | rootUnavailable _ fault => some fault.message
  | _ => none

/-- An error and the one behind it in one line. -/
def withCause (error : Error) : String :=
  match error.cause? with
  | some cause => error.message ++ ": " ++ cause
  | none => error.message

/-- Whether an error concerns one file only, so that others can go on. -/
def isPerFile : Error → Bool
  | parse .. | unsupportedLanguage .. | io .. => true
  | _ => false

end Error

end SymbolMap
