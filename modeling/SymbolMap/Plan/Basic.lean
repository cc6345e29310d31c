import SymbolMap.Plan.DirTree
import SymbolMap.Plan.Selection

/-! Fitting a map into its budget. While the map is too long, the costliest
directory without subdirectories is truncated; once none is left, files of
the other directories are left out, the costliest first. -/
namespace SymbolMap.Plan

/-- A file that may be shown, with the lines it takes. -/
structure Record where
  path : String
  cost : Nat
deriving Repr, DecidableEq

/-- How a file shows in a map. -/
inductive Status where
  /-- With all its symbols. -/
  | full
  /-- With a notice, because its directory is truncated. -/
  | truncated
  /-- With a notice, because a skip pattern covers it. -/
  | skipped
deriving Repr, DecidableEq

/-- The word for a status. -/
def Status.word : Status → String
  | .full => "full"
  | .truncated => "truncated"
  | .skipped => "skipped"

/-- A file of the map. -/
structure Entry where
  /-- The position of the file in the list that was planned. -/
  index : Nat
  path : String
  status : Status
deriving Repr, DecidableEq

/-- The files of a map in the order of their paths, and what was left out of
it. -/
structure MapPlan where
  entries : List Entry
  truncatedDirs : List String
  dropped : List String
  /-- The lines of all entries that are not skipped. -/
  totalCost : Nat
  budget : Budget
deriving Repr, DecidableEq

/-- Whether something was cut to fit the budget. -/
def MapPlan.pruned (plan : MapPlan) : Bool :=
  !plan.truncatedDirs.isEmpty || !plan.dropped.isEmpty

/-- Whether the map has no entry. -/
def MapPlan.isEmpty (plan : MapPlan) : Bool := plan.entries.isEmpty

/-- Whether the budget grants the lines of the map. -/
def MapPlan.withinBudget (plan : MapPlan) : Bool :=
  plan.budget.allows plan.totalCost

/-- What the options make of one file. -/
inductive Choice where
  /-- The filter leaves it out. -/
  | unselected
  /-- A skip pattern covers it. -/
  | skipped
  | shown
deriving Repr, DecidableEq

/-- Apply the filter, or without one the skip patterns. -/
def Options.choose (options : Options) (path : String) : Choice :=
  match options.filter with
  | some filter => if matchesFilter path.toList filter.toList then .shown else .unselected
  | none => if isSkipped path.toList options.skipPatterns then .skipped else .shown

/-- The files to list without symbols. -/
def skippedEntries (options : Options) (records : List (Record × Nat)) : List Entry :=
  (records.filter fun r => options.choose r.1.path = .skipped).map fun r =>
    { index := r.2, path := r.1.path, status := .skipped }

/-- The files to show. A file that costs no line has nothing to show. -/
def plannedRecords (options : Options) (records : List (Record × Nat)) : List (Record × Nat) :=
  records.filter fun r => options.choose r.1.path = .shown && 0 < r.1.cost

/-- The tree of the files to show, with its totals counted. -/
def treeOf (records : List (Record × Nat)) : DirTree :=
  (records.foldl (fun tree r => tree.insert r.2 r.1.path r.1.cost) DirTree.empty).recompute

/-- Whether a visited directory may be truncated next: it lies below the
root, has no directory inside and is not truncated yet. -/
def Visit.truncatable (visit : Visit) : Bool :=
  2 ≤ visit.chain.length && visit.leaf && !visit.dir.truncated

/-- The first directory with the largest total. -/
def costliest : List Visit → Option Visit
  | [] => none
  | visit :: visits =>
    match costliest visits with
    | none => some visit
    | some other => if visit.dir.total < other.dir.total then some other else some visit

/-- The directory to truncate next; of equals the first on the walk. -/
def largestLeaf (tree : DirTree) : Option Visit :=
  costliest (tree.walk.filter Visit.truncatable)

/-- Truncate directories while the tree is over the limit and one is left.
The paths come in the order of truncation. Each round truncates a directory
that was not, so as many rounds as there are directories are enough. -/
def truncateLeaves (limit : Nat) : Nat → DirTree → DirTree × List String
  | 0, tree => (tree, [])
  | rounds + 1, tree =>
    if tree.total ≤ limit then (tree, [])
    else
      match largestLeaf tree with
      | none => (tree, [])
      | some visit =>
        let (result, paths) := truncateLeaves limit rounds (tree.truncate visit.chain)
        (result, visit.dir.path :: paths)

/-- A file that may be left out, and where it is. -/
structure Droppable where
  cost : Nat
  path : String
  chain : List Nat
  position : Nat
deriving Repr, DecidableEq

/-- The files of one directory that may be left out. -/
def Visit.droppables (visit : Visit) : List Droppable :=
  if visit.dir.truncated then []
  else
    (visit.dir.files.zipIdx.filter (!·.1.dropped)).map fun f =>
      { cost := f.1.cost, path := f.1.path, chain := visit.chain, position := f.2 }

/-- The order of leaving out: the costlier first, then by path. -/
def Droppable.before (a b : Droppable) : Bool :=
  b.cost < a.cost || (a.cost == b.cost && !(b.path < a.path))

/-- Leave out files of directories that are not truncated, until the tree is
within the limit. -/
def dropFiles (limit : Nat) (tree : DirTree) : DirTree :=
  let candidates := (tree.walk.flatMap Visit.droppables).mergeSort Droppable.before
  candidates.foldl (fun tree file =>
    if tree.total ≤ limit then tree else tree.dropFile file.chain file.position) tree

/-- Fit a tree into a budget. The paths are those of the truncated
directories. -/
def fit (budget : Budget) (tree : DirTree) : DirTree × List String :=
  match budget.limit? with
  | none => (tree, [])
  | some limit =>
    let (tree, paths) := truncateLeaves limit tree.size tree
    (dropFiles limit tree, paths)

/-- The entries of one directory. -/
def Visit.entries (visit : Visit) : List Entry :=
  (visit.dir.files.filter (!·.dropped)).map fun file =>
    { index := file.index
      path := file.path
      status := if visit.dir.truncated then .truncated else .full }

/-- The files of one directory that were left out. -/
def Visit.droppedPaths (visit : Visit) : List String :=
  (visit.dir.files.filter (·.dropped)).map (·.path)

/-- The order of entries: by path, then by position. -/
def Entry.before (a b : Entry) : Bool :=
  a.path < b.path || (a.path == b.path && a.index ≤ b.index)

/-- Texts in ascending order. -/
def sorted (texts : List String) : List String :=
  texts.mergeSort fun a b => !(b < a)

/-- Plan a map of some files. -/
def plan (records : List Record) (options : Options) : MapPlan :=
  let numbered := records.zipIdx
  let (tree, truncatedDirs) := fit options.budget (treeOf (plannedRecords options numbered))
  let shown := tree.walk.flatMap Visit.entries
  { entries := (skippedEntries options numbered ++ shown).mergeSort Entry.before
    truncatedDirs := sorted truncatedDirs
    dropped := sorted (tree.walk.flatMap Visit.droppedPaths)
    totalCost := tree.total
    budget := options.budget }

end SymbolMap.Plan
