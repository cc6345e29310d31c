import SymbolMap.Path

/-! The languages whose sources can be outlined, and what is known about
each: how its files end, what it is called, and which syntax nodes are
names. -/
namespace SymbolMap

/-- A source language. `unknown` is every other kind of file. -/
inductive Language where
  | rust
  | go
  | python
  | typescript
  | tsx
  | javascript
  | jsx
  | unknown
deriving Repr, DecidableEq

namespace Language

/-- Every known language, in the order in which they are tried. -/
def all : List Language := [rust, go, python, typescript, tsx, javascript, jsx]

/-- The name to show. -/
def displayName : Language → String
  | rust => "Rust"
  | go => "Go"
  | python => "Python"
  | typescript => "TypeScript"
  | tsx => "TSX"
  | javascript => "JavaScript"
  | jsx => "JSX"
  | unknown => "Unknown"

/-- The name in reports. -/
def name : Language → String
  | rust => "rust"
  | go => "go"
  | python => "python"
  | typescript => "typescript"
  | tsx => "tsx"
  | javascript => "javascript"
  | jsx => "jsx"
  | unknown => "unknown"

/-- The short identifier, by which an unknown file is plain text. -/
def id : Language → String
  | unknown => "text"
  | language => language.name

/-- The file name extensions, without the dot. -/
def extensions : Language → List String
  | rust => ["rs"]
  | go => ["go"]
  | python => ["py", "pyi"]
  | typescript => ["ts", "mts", "cts"]
  | tsx => ["tsx"]
  | javascript => ["js", "mjs", "cjs"]
  | jsx => ["jsx"]
  | unknown => []

/-- The names by which a language can be asked for. -/
def aliases : Language → List String
  | rust => ["rust", "rs"]
  | go => ["go", "golang"]
  | python => ["python", "py"]
  | typescript => ["typescript", "ts"]
  | tsx => ["tsx"]
  | javascript => ["javascript", "js"]
  | jsx => ["jsx"]
  | unknown => ["unknown", "text"]

/-- The kinds of syntax nodes that are names. -/
def identifierKinds : Language → List String
  | rust => ["identifier", "type_identifier", "field_identifier"]
  | go => ["identifier", "type_identifier", "field_identifier", "package_identifier"]
  | python => ["identifier"]
  | typescript | tsx => ["identifier", "property_identifier", "type_identifier"]
  | javascript | jsx => ["identifier", "property_identifier"]
  | unknown => []

/-- Whether sources of the language can be outlined. -/
def isKnown (language : Language) : Bool := language != unknown

/-- The extensions of all known languages. -/
def supportedExtensions : List String := all.flatMap extensions

/-- A text with its capital ASCII letters made small. No other capital letter
has a small form that occurs in an extension or an alias. -/
def lowercase (text : String) : String := String.ofList (text.toList.map Char.toLower)

/-- The language of files with an extension, in whatever case. -/
def ofExtension (ext : String) : Language :=
  (all.find? fun language => language.extensions.contains (lowercase ext)).getD unknown

/-- The language of a file by its path. -/
def ofPath (path : String) : Language :=
  match Path.extension? path with
  | some ext => ofExtension ext
  | none => unknown

/-- The known language with a name, in whatever case. -/
def ofName? (text : String) : Option Language :=
  all.find? fun language => language.aliases.contains (lowercase text)

end Language

end SymbolMap
