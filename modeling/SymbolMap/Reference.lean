import SymbolMap.Language
import SymbolMap.SyntaxTree
import SymbolMap.Json
import SymbolMap.Text.Blank

/-! Places where a name is used. Only syntax nodes that are names count, so
strings and comments never do. -/
namespace SymbolMap

open SymbolMap.Text

/-- A use of a name. -/
structure Reference where
  /-- The path of the file; empty for a source by itself. -/
  file : String
  /-- Counted from one. -/
  line : Nat
  /-- Counted from one, in octets. -/
  column : Nat
  /-- The line of the use. -/
  context : String
deriving Repr, DecidableEq

namespace Reference

/-- The most characters of a line that are shown. -/
def contextLimit : Nat := 100

/-- A line without blanks at its ends. A long one is cut and marked with
dots, which count against the limit. -/
def contextOf (line : List Char) : String :=
  let trimmed := trim line
  if contextLimit < trimmed.length then
    String.ofList (trimmed.take (contextLimit - 3) ++ ['.', '.', '.'])
  else String.ofList trimmed

/-- The use of a name that a node is, if it is one. -/
def ofNode? (language : Language) (source name : List Char) (node : Node) : Option Reference :=
  if language.identifierKinds.contains node.kind && node.text source == name then
    let pos := node.startPosition source
    some {
      file := ""
      line := pos.line + 1
      column := pos.column + 1
      context := (((splitAt '\n' source)[pos.line]?).map contextOf).getD "" }
  else none

/-- The uses of a name in a source, in source order. -/
def inSource (language : Language) (source name : List Char) (root : Node) : List Reference :=
  (visit [[root]]).filterMap (ofNode? language source name)

/-- A use in one line. -/
def render (ref : Reference) : String :=
  "  [" ++ toString ref.line ++ ":" ++ toString ref.column ++ "] " ++ ref.context ++ "\n"

/-- Uses under the names of their files. A name is written when it differs
from that of the use before, and after the first with a blank line above. -/
def renderGroups (current : Option String) : List Reference → String
  | [] => ""
  | ref :: refs =>
    let header :=
      if current = some ref.file then ""
      else (if current.isSome then "\n" else "") ++ "## " ++ ref.file ++ "\n"
    header ++ ref.render ++ renderGroups (some ref.file) refs

/-- The report on the uses of a name. -/
def report (name : String) (refs : List Reference) : String :=
  if refs.isEmpty then "No references found for " ++ Text.quote name
  else
    "# References to " ++ Text.quote name ++ " (" ++ toString refs.length ++ " found)\n\n" ++
      renderGroups none refs

/-- A use as JSON. -/
def toJson (ref : Reference) : Json.Value :=
  .obj [("file", .str ref.file), ("line", .nat ref.line), ("column", .nat ref.column),
    ("context", .str ref.context)]

end Reference

end SymbolMap
