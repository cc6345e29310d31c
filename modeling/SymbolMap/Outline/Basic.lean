import SymbolMap.Outline.Comment
import SymbolMap.Symbol

/-! What an outline holds, and how a declaration is brought to one line. -/
namespace SymbolMap

/-- The imports and the declarations of a source, each in source order. -/
structure Outline where
  imports : List String := []
  symbols : List Symbol := []
deriving Repr, DecidableEq

/-- One outline after another. -/
def Outline.append (a b : Outline) : Outline :=
  { imports := a.imports ++ b.imports, symbols := a.symbols ++ b.symbols }

/-- The outlines of the parts of a source in one. -/
def Outline.concat (parts : List Outline) : Outline := parts.foldr Outline.append {}

namespace Outline

open SymbolMap.Text

/-- The first line of a text; empty when there is none. -/
def firstLine (s : List Char) : List Char := (lines s).head?.getD []

/-- The source from the start of a node to the start of one of its
children. -/
def headBefore (source : List Char) (node child : Node) : List Char :=
  slice source node.start child.start

/-- A declaration in one line: what comes before its body, or its first line
if it has none, with blanks collapsed and without the mark that opens the
body. -/
def signature (source : List Char) (node : Node) : List Char :=
  let head := match node.child? "body" with
    | some body => headBefore source node body
    | none => firstLine (node.text source)
  collapseUpTo (fun c => c == '\x7b' || c == ':' || c == '=' || c == ';') head

/-- The declaration that a node makes, with the documentation above it. -/
def declare (source : List Char) (earlier : List Node) (node : Node) (name : List Char)
    (kind : SymbolKind) (sig : List Char) : Symbol :=
  Symbol.make name kind (node.range source) sig (precedingDoc source earlier node)

end Outline

end SymbolMap
