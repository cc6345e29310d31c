import SymbolMap.Json
import SymbolMap.Text.Position

/-! The declarations that an outline lists. -/
namespace SymbolMap

open SymbolMap.Text

/-- What a declaration declares. -/
inductive SymbolKind where
  | function
  | method
  | objectClass
  | struct
  | enum
  | trait
  | interface
  | type
  | const
  | static
  | var
  | module
  | impl
deriving Repr, DecidableEq

/-- The name of a kind in reports. -/
def SymbolKind.name : SymbolKind → String
  | function => "function"
  | method => "method"
  | objectClass => "class"
  | struct => "struct"
  | enum => "enum"
  | trait => "trait"
  | interface => "interface"
  | type => "type"
  | const => "const"
  | static => "static"
  | var => "var"
  | module => "module"
  | impl => "impl"

/-- The short word for a kind. -/
def SymbolKind.word : SymbolKind → String
  | function => "func"
  | module => "mod"
  | kind => kind.name

/-- Every kind. -/
def SymbolKind.all : List SymbolKind :=
  [.function, .method, .objectClass, .struct, .enum, .trait, .interface, .type, .const, .static,
    .var, .module, .impl]

/-- The kind with a name. -/
def SymbolKind.ofName? (name : String) : Option SymbolKind :=
  SymbolKind.all.find? (·.name == name)

/-- A declaration. -/
structure Symbol where
  name : String
  kind : SymbolKind
  range : Range
  /-- The declaration in one line, without its body. -/
  signature : String
  /-- The first line of its documentation. -/
  doc : Option String
deriving Repr, DecidableEq

namespace Symbol

/-- A declaration with its documentation. An empty documentation is none. -/
def make (name : List Char) (kind : SymbolKind) (range : Range) (signature : List Char)
    (doc : Option (List Char)) : Symbol :=
  { name := String.ofList name
    kind
    range
    signature := String.ofList signature
    doc := (doc.filter (!·.isEmpty)).map String.ofList }

/-- The first line, counted from one. -/
def startLine (symbol : Symbol) : Nat := symbol.range.start.line + 1

/-- The last line, counted from one. -/
def endLine (symbol : Symbol) : Nat := symbol.range.stop.line + 1

/-- The lines in brackets; a single line is named once. -/
def lineLabel (symbol : Symbol) : String :=
  if symbol.startLine = symbol.endLine then "[" ++ toString symbol.startLine ++ "]"
  else "[" ++ toString symbol.startLine ++ "-" ++ toString symbol.endLine ++ "]"

/-- The line of a declaration in a map. -/
def render (symbol : Symbol) : String :=
  let head := "  " ++ symbol.signature ++ " " ++ symbol.lineLabel
  match symbol.doc with
  | some doc => head ++ " // " ++ doc
  | none => head

end Symbol

/-- A place as JSON. -/
def positionJson (pos : Position) : Json.Value :=
  .obj [("line", .nat pos.line), ("column", .nat pos.column)]

/-- A declaration as JSON. Without documentation there is no such field. -/
def Symbol.toJson (symbol : Symbol) : Json.Value :=
  .obj ([("name", .str symbol.name), ("kind", .str symbol.kind.name),
    ("range", .obj [("start", positionJson symbol.range.start),
      ("end", positionJson symbol.range.stop)]),
    ("signature", .str symbol.signature)] ++
    (symbol.doc.map fun doc => ("doc", Json.Value.str doc)).toList)

end SymbolMap
