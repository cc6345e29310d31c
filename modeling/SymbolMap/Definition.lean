import SymbolMap.Error
import SymbolMap.Outline.OfLanguage

/-! The source of one declaration, looked up by name. -/
namespace SymbolMap

open SymbolMap.Text

/-- A declaration with the lines of its source. -/
structure Definition where
  file : String
  symbol : Symbol
  lines : List String
deriving Repr, DecidableEq

namespace Definition

/-- The lines of a source from one row to another, both clipped to the rows
there are, without carriage returns at their ends. -/
def sourceLines (source : List Char) (first last : Nat) : List String :=
  let rows := splitAt '\n' source
  let stop := min last (rows.length - 1)
  let start := min first stop
  ((rows.drop start).take (stop + 1 - start)).map fun row =>
    String.ofList (dropEndWhile (· == '\r') row)

/-- The first declaration with a name in an outline. -/
def find? (outline : Outline) (name : String) : Option Symbol :=
  outline.symbols.find? (·.name == name)

/-- The declaration with a name in a source. -/
def inSource (file : String) (language : Language) (source : List Char) (root : Node)
    (name : String) : Except Error Definition :=
  match Outline.ofSource? language source root with
  | none => .error (.unsupportedLanguage file)
  | some outline =>
    match find? outline name with
    | none => .error (.symbolNotFound name file)
    | some symbol =>
      .ok {
        file
        symbol
        lines := sourceLines source symbol.range.start.line symbol.range.stop.line }

/-- A number with blanks in front, at least four characters wide. -/
def padNumber (n : Nat) : String :=
  let digits := toString n
  String.ofList (List.replicate (4 - digits.length) ' ') ++ digits

/-- Lines of source with their numbers. -/
def renderLines (number : Nat) : List String → String
  | [] => ""
  | line :: lines => padNumber number ++ " | " ++ line ++ "\n" ++ renderLines (number + 1) lines

/-- The report on a declaration: a header, its documentation, and the
numbered source between fences. -/
def render (definition : Definition) : String :=
  let symbol := definition.symbol
  let doc := match symbol.doc with
    | some doc => "// " ++ doc ++ "\n\n"
    | none => ""
  "# " ++ symbol.signature ++ " in " ++ definition.file ++ " [" ++ toString symbol.startLine ++
    "-" ++ toString symbol.endLine ++ "]\n\n" ++ doc ++ "\x60\x60\x60\n" ++
    renderLines symbol.startLine definition.lines ++ "\x60\x60\x60\n"

end Definition

end SymbolMap
