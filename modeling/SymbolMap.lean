import SymbolMap.Main
import SymbolMap.Proofs.Glob.Globstar
import SymbolMap.Proofs.Plan.Budgets
import SymbolMap.Proofs.Report.LineCount
import SymbolMap.Proofs.Scan.Selection
import SymbolMap.Proofs.Plan.InputOrder
import SymbolMap.Proofs.Path.Names
import SymbolMap.Proofs.Scan.Loading
import SymbolMap.Proofs.Scan.Isolation
import SymbolMap.Proofs.Text.OneLine
import SymbolMap.Proofs.Outline.LineBreaks
import SymbolMap.Proofs.Outline.Spacing
import SymbolMap.Proofs.Glob.Backtracking
import SymbolMap.Proofs.Glob.EmptyRest
import SymbolMap.Proofs.Plan.Ties
import SymbolMap.Proofs.DirTree.Numbering
import SymbolMap.Proofs.DirTree.Upkeep
import SymbolMap.Proofs.Ignore.Scope
import SymbolMap.Proofs.Ignore.AnyDepth
import SymbolMap.Proofs.Definition.Lookup
import SymbolMap.Proofs.Outline.Trailing
import SymbolMap.Proofs.Reference.Accuracy
import SymbolMap.Proofs.Plan.Selection
import SymbolMap.Proofs.Settings.Precedence
import SymbolMap.Proofs.Settings.Creation
