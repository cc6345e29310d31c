import SymbolMap.Definition
import SymbolMap.Reference
import SymbolMap.Report
import SymbolMap.Scan

/-! Outlines, references and definitions of the files on a disk. -/
namespace SymbolMap.Index

/-- The outline of a file. A file over the size limit, like one that cannot
be opened, has an empty one. -/
def outlineOf (maxFileSize : Nat) (file : SourceFile) : FileOutline :=
  { path := file.path
    language := file.language
    outline :=
      if maxFileSize < file.size then {}
      else (file.doc?.bind fun doc => Outline.ofSource? file.language doc.text doc.tree).getD {} }

/-- The outlines of the source files below a directory. -/
def outlines (disk : Disk) (root : String) (settings : ScanSettings) :
    Except Error (List FileOutline) :=
  (Scan.files disk root settings).map fun files => files.map (outlineOf settings.maxFileSize)

/-- The uses of a name in one file; none in a file that cannot be opened. -/
def referencesIn (name : List Char) (file : SourceFile) : List Reference :=
  match file.doc? with
  | none => []
  | some doc => (Reference.inSource file.language doc.text name doc.tree).map fun ref =>
      { ref with file := file.path }

/-- The uses of a name in the source files below a directory. There is no
size limit. -/
def references (disk : Disk) (root name : String) (settings : ScanSettings) :
    Except Error (List Reference) :=
  if name.isEmpty then .error (.invalidInput .missingSymbolName)
  else (Scan.files disk root settings).map fun files => files.flatMap (referencesIn name.toList)

/-- The declaration with a name in the file at a path. -/
def definition (disk : Disk) (path name : String) : Except Error Definition :=
  if name.isEmpty then .error (.invalidInput .missingSymbolName)
  else
    match disk.file? path with
    | none => .error (.fileNotFound path)
    | some doc => Definition.inSource path (Language.ofPath path) doc.text doc.tree name

end SymbolMap.Index
