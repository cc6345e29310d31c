import SymbolMap.Proofs.DirTree.Edits

/-! Totals that a word has room for. The room of a tree is the lines of all
its files and of a placeholder for each; changing directories in their places
leaves it alone. While a word has room for that many, no total starts again at
0: each is the plain sum of the lines that it counts, and placeholders still
find room on top of it. -/
namespace SymbolMap.Plan

/-- The lines of a directory's own files and of a placeholder for each. -/
def Directory.room (dir : Directory) : Nat :=
  (dir.files.map fun file => file.cost + placeholderLines).sum

section Files

namespace Directory

variable (dir : Directory)

end Directory

end Files

namespace Forest

/-- The totals of the outermost directories, as a plain sum. -/
def lines : Forest → Nat
  | nil => 0
  | cons dir _ rest => dir.total + rest.lines

/-- Every directory carries the plain sum of its own lines and those of the
directories inside it. -/
def Exact : Forest → Prop
  | nil => True
  | cons dir below rest => dir.total = dir.ownCost + below.lines ∧ below.Exact ∧ rest.Exact

def room : Forest → Nat
  | nil => 0
  | cons dir below rest => dir.room + below.room + rest.room

section Walk

variable {forest : Forest} {above : List Nat}

end Walk

section Insert

variable (file : PlacedFile)

end Insert

end Forest

namespace DirTree

/-- Every directory of the tree carries the plain sum of its own lines and
those of the directories inside it. -/
def Exact (tree : DirTree) : Prop := tree.toForest.Exact

/-- The lines of all files of the tree and of a placeholder for each. -/
def room (tree : DirTree) : Nat := tree.toForest.room

variable {tree : DirTree} {visit outer : Visit}

end DirTree

end SymbolMap.Plan
