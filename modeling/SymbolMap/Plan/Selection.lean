import SymbolMap.Path
import SymbolMap.Text.Blank
import SymbolMap.Plan.Budget

/-! Which files a map is asked to show. A filter names one file or one
directory; skip patterns name files and directories that are listed without
their symbols. Both compare whole segments. -/
namespace SymbolMap.Plan

open SymbolMap.Text SymbolMap.Path

/-- What one map is asked for. -/
structure Options where
  /-- Files and directories that are only listed. -/
  skipPatterns : List String := []
  /-- The one file or directory to show; skip patterns then do not apply. -/
  filter : Option String := none
  budget : Budget := .lines defaultLineLimit
deriving Repr, DecidableEq

/-- Set the filter. A blank filter is none. -/
def Options.withFilter (options : Options) (filter : Option String) : Options :=
  { options with filter := filter.filter fun text => !(trim text.toList).isEmpty }

/-- Whether a path is the one that a filter names, or lies below it. -/
def matchesFilter (path filter : List Char) : Bool :=
  let path := withoutDot path
  let filter := withoutDot filter
  if path = filter then true
  else
    let dir := withoutSlashes filter
    !dir.isEmpty && (below? dir path).isSome

/-- Whether a path is the one that a skip pattern names, or lies below it. -/
def matchesSkip (path pattern : List Char) : Bool :=
  let path := withoutDot path
  let dir := withoutSlashes (withoutDot pattern)
  !dir.isEmpty && (path = dir || (below? dir path).isSome)

/-- Whether some skip pattern covers a path. -/
def isSkipped (path : List Char) (patterns : List String) : Bool :=
  patterns.any fun pattern => matchesSkip path pattern.toList

end SymbolMap.Plan
