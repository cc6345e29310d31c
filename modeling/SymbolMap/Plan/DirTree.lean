import SymbolMap.Path

/-! The directories of a map with the lines that they cost. Directories are
numbered in the order in which they appear, from 0 for the root; the
directories inside one directory are kept in the order of their names. Each
directory carries the total of everything below it, which the operations on
the tree keep up to date. Lines are counted in words of 64 bits: sums beyond
them start again at 0. -/
namespace SymbolMap.Plan

/-- How many numbers a word can hold. -/
def wordSize : Nat := 0x10000000000000000

/-- A number of lines as a word holds it. -/
def wrap (lines : Nat) : Nat := lines % wordSize

/-- A number of lines in a word after a gain and a loss. To lose lines is to
gain what they lack of the size of a word. -/
def shift (gain loss lines : Nat) : Nat := wrap (lines + gain + (wordSize - wrap loss))

/-- The lines that a file takes when its directory is truncated: a header, a
notice and a blank. -/
def placeholderLines : Nat := 3

/-- A file in its directory. -/
structure PlacedFile where
  /-- The position of the file in the list that is planned. -/
  index : Nat
  path : String
  cost : Nat
  /-- The file is left out of the map. -/
  dropped : Bool := false
deriving Repr, DecidableEq

/-- A directory by itself, without the directories inside it. -/
structure Directory where
  id : Nat
  name : String
  /-- The names from the root to here; empty at the root. -/
  path : String
  files : List PlacedFile := []
  /-- The lines of this directory and all below it, as last counted. -/
  total : Nat := 0
  /-- Every file of the directory shows as a placeholder. -/
  truncated : Bool := false
deriving Repr, DecidableEq

/-- The lines of a directory's own files if each were a placeholder. -/
def Directory.placeholderCost (dir : Directory) : Nat :=
  wrap (dir.files.length * placeholderLines)

/-- The lines of the files that are not left out. -/
def shownCost : List PlacedFile → Nat
  | [] => 0
  | file :: files => wrap ((if file.dropped then 0 else file.cost) + shownCost files)

/-- The lines that a directory's own files take. -/
def Directory.ownCost (dir : Directory) : Nat :=
  if dir.truncated then dir.placeholderCost else shownCost dir.files

/-- The directories inside one directory, in the order of their names, each
with the directories inside it. -/
inductive Forest where
  | nil
  | cons (dir : Directory) (below rest : Forest)
deriving Repr, DecidableEq

namespace Forest

/-- Whether there is no directory. -/
def isEmpty : Forest → Bool
  | nil => true
  | cons .. => false

/-- The number of directories at all levels. -/
def size : Forest → Nat
  | nil => 0
  | cons _ below rest => 1 + below.size + rest.size

/-- A new chain of directories for a file, one for each name, in front of
`rest`. -/
def branch (file : PlacedFile) (parent : String) (next : Nat) (name : String) :
    List String → Forest → Forest
  | [], rest =>
    cons { id := next, name, path := Path.join parent name, files := [file] } nil rest
  | deeper :: names, rest =>
    let path := Path.join parent name
    cons { id := next, name, path } (branch file path (next + 1) deeper names nil) rest

/-- Put a file into the directory reached by `name` and then `names`. Missing
directories appear, numbered from `next` on. -/
def insert (file : PlacedFile) (parent : String) (next : Nat) (name : String)
    (names : List String) : Forest → Forest
  | nil => branch file parent next name names nil
  | cons dir below rest =>
    if name = dir.name then
      match names with
      | [] => cons { dir with files := dir.files ++ [file] } below rest
      | deeper :: names => cons dir (below.insert file dir.path next deeper names) rest
    else if name < dir.name then branch file parent next name names (cons dir below rest)
    else cons dir below (rest.insert file parent next name names)

/-- The totals of the outermost directories. -/
def total : Forest → Nat
  | nil => 0
  | cons dir _ rest => wrap (dir.total + rest.total)

/-- Count every total anew, from the innermost directories outwards. -/
def recompute : Forest → Forest
  | nil => nil
  | cons dir below rest =>
    let below := below.recompute
    cons { dir with total := wrap (dir.ownCost + below.total) } below rest.recompute

/-- Change each directory by itself. -/
def map (f : Directory → Directory) : Forest → Forest
  | nil => nil
  | cons dir below rest => cons (f dir) (below.map f) (rest.map f)

end Forest

/-- A directory met on a walk. -/
structure Visit where
  /-- The numbers from the root to the directory. -/
  chain : List Nat
  dir : Directory
  /-- No directory lies inside. -/
  leaf : Bool
deriving Repr, DecidableEq

/-- The directories of a forest below the directory that `chain` leads to,
each before those inside it. -/
def Forest.walk (chain : List Nat) : Forest → List Visit
  | nil => []
  | cons dir below rest =>
    let here := chain ++ [dir.id]
    { chain := here, dir, leaf := below.isEmpty } :: (below.walk here ++ rest.walk chain)

/-- A root directory and the directories inside it. -/
structure DirTree where
  root : Directory
  below : Forest
deriving Repr, DecidableEq

namespace DirTree

/-- The tree with only a root, numbered 0. -/
def empty : DirTree :=
  { root := { id := 0, name := "", path := "" }, below := .nil }

/-- The number of directories, the root included. -/
def size (tree : DirTree) : Nat := 1 + tree.below.size

/-- The lines of the whole tree, as last counted. -/
def total (tree : DirTree) : Nat := tree.root.total

/-- Put a file into its directory. Totals change only when they are counted
anew. -/
def insert (tree : DirTree) (index : Nat) (path : String) (cost : Nat) : DirTree :=
  let file : PlacedFile := { index, path, cost }
  match Path.directory path with
  | [] => { tree with root := { tree.root with files := tree.root.files ++ [file] } }
  | name :: names =>
    { tree with below := tree.below.insert file tree.root.path tree.size name names }

/-- Count every total anew. -/
def recompute (tree : DirTree) : DirTree :=
  let below := tree.below.recompute
  { root := { tree.root with total := wrap (tree.root.ownCost + below.total) }, below }

/-- Every directory, each before those inside it, in the order of names. -/
def walk (tree : DirTree) : List Visit :=
  { chain := [tree.root.id], dir := tree.root, leaf := tree.below.isEmpty } ::
    tree.below.walk [tree.root.id]

/-- The directory with a number. -/
def find? (tree : DirTree) (id : Nat) : Option Directory :=
  (tree.walk.find? (·.dir.id == id)).map (·.dir)

/-- Change each directory by itself. -/
def map (f : Directory → Directory) (tree : DirTree) : DirTree :=
  { root := f tree.root, below := tree.below.map f }

/-- Replace one directory, and let every directory of the chain to it gain
and lose lines, as often as the chain names it. -/
def update (tree : DirTree) (chain : List Nat) (dir : Directory) (gain loss : Nat) : DirTree :=
  tree.map fun d =>
    let d := if d.id = dir.id then dir else d
    { d with total := Nat.repeat (shift gain loss) (chain.count d.id) d.total }

/-- Show the files of the directory at the end of a chain as placeholders,
which usually saves lines. A truncated directory stays as it is. -/
def truncate (tree : DirTree) (chain : List Nat) : DirTree :=
  match chain.getLast?.bind tree.find? with
  | none => tree
  | some dir =>
    if dir.truncated then tree
    else
      let marked := { dir with truncated := true }
      tree.update chain marked marked.ownCost dir.ownCost

/-- Leave out the file at a position of the directory at the end of a chain.
Nothing happens in a truncated directory or to a file left out before. -/
def dropFile (tree : DirTree) (chain : List Nat) (position : Nat) : DirTree :=
  match chain.getLast?.bind tree.find? with
  | none => tree
  | some dir =>
    match dir.files[position]? with
    | none => tree
    | some file =>
      if dir.truncated || file.dropped then tree
      else
        let files := dir.files.set position { file with dropped := true }
        tree.update chain { dir with files } 0 file.cost

end DirTree

end SymbolMap.Plan
