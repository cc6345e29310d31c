import SymbolMap.Disk.Basic
import SymbolMap.Ignore.RuleSet
import SymbolMap.Language
import SymbolMap.Settings.Basic

/-! Walking a directory: first for the ignore files in it, then for the
source files that they leave. Hidden directories are never entered and links
never followed. An entry whose path is too long is still listed by its
directory, but it can be neither entered nor read. -/
namespace SymbolMap

/-- A source file met on a walk. -/
structure SourceFile where
  /-- The path from the directory that is walked. -/
  path : String
  /-- The file, if it can be opened. -/
  doc? : Option Document
  language : Language

/-- The number of octets of a source file, as far as it is known. -/
def SourceFile.size (file : SourceFile) : Nat := (file.doc?.map Document.size).getD 0

namespace Scan

/-- Whether the name of a directory hides it. -/
def isHiddenName (name : String) : Bool := name.toList.head? = some '.'

/-- Whether what lies at `path` below the directory `root` can be opened. It
is opened under both paths together, which may be too long. -/
def isOpenable (root path : String) : Bool :=
  (Disk.pathFault? (Path.child root path).toList).isNone

/-- The rules of all ignore files with a name in a listing, which lies at
`here` below the directory `root` that is walked. -/
def rulesIn (ignoreFile root here : String) : Listing → List Ignore.Rule
  | .nil => []
  | .file name doc rest =>
    (if name = ignoreFile && isOpenable root (Path.join here name) then
        Ignore.rulesOf doc.text here.toList
      else []) ++ rulesIn ignoreFile root here rest
  | .dir name below rest =>
    let path := Path.join here name
    (if isHiddenName name || !isOpenable root path then []
      else rulesIn ignoreFile root path below) ++ rulesIn ignoreFile root here rest
  | .link _ _ rest => rulesIn ignoreFile root here rest

/-- Whether a directory is left out for its name alone. -/
def isSkippedName (skipDirs : List String) (name : String) : Bool :=
  isHiddenName name || skipDirs.contains name

/-- The source files of a listing, which lies at `here` below the directory
`root` that is walked. A directory left out is not entered. -/
def filesIn (rules : Ignore.RuleSet) (skipDirs : List String) (root here : String) :
    Listing → List SourceFile
  | .nil => []
  | .file name doc rest =>
    let path := Path.join here name
    let language := Language.ofPath name
    let doc? := if isOpenable root path then some doc else none
    (if language.isKnown && !rules.ignores path.toList false then [{ path, doc?, language }]
      else []) ++ filesIn rules skipDirs root here rest
  | .dir name below rest =>
    let path := Path.join here name
    let isLeftOut := isSkippedName skipDirs name || rules.ignores path.toList true
    (if isLeftOut || !isOpenable root path then []
      else filesIn rules skipDirs root path below) ++ filesIn rules skipDirs root here rest
  | .link _ _ rest => filesIn rules skipDirs root here rest

/-- Whether a root is the dash that stands for the standard input. -/
def isDash (root : String) : Bool := !Path.isAbsolute root && Path.steps root = ["-"]

/-- The entries of the directory to walk. A dash has none, but there has to be
a directory of that name. -/
def openRoot (disk : Disk) (root : String) : Except Error Listing :=
  match disk.readDir root with
  | .ok listing => .ok (if isDash root then .nil else listing)
  | .error fault => .error (.rootUnavailable root fault)

/-- The rules of all ignore files below a directory. -/
def loadRules (disk : Disk) (root ignoreFile : String) : Except Error Ignore.RuleSet :=
  (openRoot disk root).map fun listing => { rules := rulesIn ignoreFile root "" listing }

/-- The source files below a directory that given rules leave. -/
def filesWith (disk : Disk) (root : String) (rules : Ignore.RuleSet) (skipDirs : List String) :
    Except Error (List SourceFile) :=
  (openRoot disk root).map fun listing => filesIn rules skipDirs root "" listing

/-- The source files below a directory that its own ignore files leave. -/
def files (disk : Disk) (root : String) (settings : ScanSettings) :
    Except Error (List SourceFile) := do
  let rules ← loadRules disk root settings.ignoreFile
  filesWith disk root rules settings.skipDirs

end Scan

end SymbolMap
