import SymbolMap.Ignore.Rule

/-! The rules of several ignore files in the order in which they were read.
The last rule that matches a path decides, but nothing below an excluded
directory can be taken back. -/
namespace SymbolMap.Ignore

open SymbolMap.Text SymbolMap.Path

/-- Rules in the order of their reading. -/
structure RuleSet where
  rules : List Rule := []
deriving Repr, DecidableEq

/-- The rules of one ignore file, in the order of its lines. -/
def rulesOf (contents base : List Char) : List Rule :=
  (lines contents).filterMap fun line => Rule.parse? line base

/-- Append the rules of an ignore file that lies in the directory `base`. -/
def RuleSet.add (set : RuleSet) (contents base : List Char) : RuleSet :=
  { rules := set.rules ++ rulesOf contents base }

/-- The verdict on a path by itself: that of the last rule which matches. -/
def RuleSet.excludes (set : RuleSet) (path : List Char) (isDir : Bool) : Bool :=
  match set.rules.reverse.find? (·.matches path isDir) with
  | some rule => !rule.negated
  | none => false

/-- Whether a path is ignored: it is excluded, or a directory above it is.
The path is brought to its one spelling first; the empty path is never
ignored. -/
def RuleSet.ignores (set : RuleSet) (path : List Char) (isDir : Bool) : Bool :=
  let path := normalize path
  !path.isEmpty &&
    ((ancestors path).any (set.excludes · true) || set.excludes path isDir)

end SymbolMap.Ignore
