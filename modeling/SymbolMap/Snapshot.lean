import SymbolMap.Settings.Layers

/-! A file system as a TOML document, written by the program that runs the
grammars. The table `env` holds the variables. Each table of the list `entry`
has a `path` and one of `text`, `octets` (numbers), `link` (a target) or `dir`
(true); a source also has its syntax tree under `tree`, as a list of nodes in
which each parent comes before its children. A node is a list of the position of
its parent (negative for none), whether it is named (0 or 1), its kind, its role
(empty for none) and the offsets of its text. These paths begin at the top of
the file system; nothing else is on the disk. The names that lead from the top
to the working directory stand under `cwd`; it is the top without them. -/
namespace SymbolMap.Snapshot

open SymbolMap.Settings

/-- What a process sees: a file system and variables. -/
structure Workspace where
  disk : Disk := {}
  vars : Environment.Variables := []

/-- A number that is not negative. -/
def nat? : Value → Option Nat
  | .int n => if 0 ≤ n then some n.toNat else none
  | _ => none

/-- One node of a syntax tree. -/
def flatNode? : Value → Option FlatNode
  | .arr [.int parent, .int named, .str kind, .str role, start, stop] => do
    some {
      parent := if parent < 0 then none else some parent.toNat
      kind
      named := named != 0
      field := if role.isEmpty then none else some role
      start := ← nat? start
      stop := ← nat? stop }
  | _ => none

/-- The syntax tree of an entry; empty without one. -/
def tree? (fields : Fields) : Option Node :=
  match field? "tree" fields with
  | none => some default
  | some (.arr nodes) => (nodes.mapM flatNode?).map Node.ofFlat
  | some _ => none

/-- An octet. -/
def octet? (value : Value) : Option UInt8 :=
  (value.intIn? 0 256).map fun n => n.toNat.toUInt8

/-- What an entry is. -/
def item? (fields : Fields) : Option Item :=
  match field? "text" fields, field? "octets" fields, field? "link" fields with
  | some (.str text), none, none => do
    some (.file { Document.ofText text with tree := ← tree? fields })
  | none, some (.arr octets), none => do
    some (.file { bytes := ← octets.mapM octet?, tree := ← tree? fields })
  | none, none, some (.str target) => some (.link target)
  | none, none, none =>
    match field? "dir" fields with
    | some (.bool true) => some (.dir .nil)
    | _ => none
  | _, _, _ => none

/-- Put an entry on a disk. -/
def place? (disk : Disk) : Value → Option Disk
  | .table fields =>
    match field? "path" fields, item? fields with
    | some (.str path), some item =>
      match disk.place path item with
      | (placed, .ok ()) => some placed
      | (_, .error _) => none
    | _, _ => none
  | _ => none

/-- The variables. -/
def vars? (fields : Fields) : Option Environment.Variables :=
  match field? "env" fields with
  | none => some []
  | some (.table vars) => vars.mapM fun (name, value) => (value.text?).map (name, ·)
  | some _ => none

/-- The entries on a disk, and its working directory. -/
def disk? (fields : Fields) : Option Disk := do
  let cwd ← readField fields "cwd" Value.texts? []
  let entries ← match field? "entry" fields with
    | none => some {}
    | some (.arr entries) => entries.foldlM place? {}
    | some _ => none
  some { entries with cwd }

/-- The workspace that a document describes. -/
def read? (text : List Char) : Option Workspace := do
  let fields ← Toml.read? text
  some { disk := ← disk? fields, vars := ← vars? fields }

/-- The paths at which a command may write. -/
def writablePaths (workspace : Workspace) (root : String) : List String :=
  projectFile root :: (globalFile? workspace.vars).toList

/-- The texts of the files among `paths` that are new or have changed from one
disk to another. -/
def changes (before after : Disk) (paths : List String) : List (String × String) :=
  paths.filterMap fun path =>
    match after.file? path with
    | none => none
    | some doc =>
      if (before.file? path).map (·.bytes) = some doc.bytes then none
      else some (path, String.ofList doc.text)

end SymbolMap.Snapshot
