import SymbolMap.Language
import SymbolMap.Outline.Go
import SymbolMap.Outline.Python
import SymbolMap.Outline.Rust
import SymbolMap.Outline.TypeScript

/-! The outline of a source in any known language. -/
namespace SymbolMap.Outline

/-- The outline of a source with the given syntax tree. A file of no known
language has none. -/
def ofSource? (language : Language) (source : List Char) (root : Node) : Option Outline :=
  match language with
  | .rust => some (Rust.outline source root)
  | .go => some (Go.outline source root)
  | .python => some (Python.outline source root)
  | .typescript | .tsx | .javascript | .jsx => some (TypeScript.outline source root)
  | .unknown => none

end SymbolMap.Outline
