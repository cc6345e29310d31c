import SymbolMap.Outline.Basic

/-! Outlines of Python sources. Decorators are part of a signature, and a
docstring comes before the comments above a definition. -/
namespace SymbolMap.Outline.Python

open SymbolMap.Text

/-- The modules that an import statement names. -/
def importedModules (source : List Char) (node : Node) : List String :=
  (node.childrenIn "name").filterMap fun name =>
    if name.kind == "aliased_import" then (name.childText? source "name").map String.ofList
    else some (String.ofList (name.text source))

/-- Whether a character may stand before the quotes of a string. -/
def isStringMark (c : Char) : Bool := ['r', 'R', 'u', 'U', 'b', 'B', 'f', 'F'].contains c

/-- The first line of the docstring, if the body opens with one. -/
def docstring? (source : List Char) (definition : Node) : Option (List Char) := do
  let body ← definition.child? "body"
  let first ← body.namedChildren.head?
  if first.kind != "expression_statement" then none
  else
    let string ← first.namedChildren.head?
    if string.kind != "string" then none
    else
      let text := (string.text source).dropWhile isStringMark
      firstCommentLine (stripWhere (fun c => c == '"' || c == '\x27') text)

/-- The definition inside a statement, and the decorators in front of it. -/
def undecorated? (source : List Char) (node : Node) : Option (Node × List (List Char)) :=
  if node.kind == "decorated_definition" then
    (node.child? "definition").map fun definition =>
      (definition, (node.namedChildren.filter (·.kind == "decorator")).map fun decorator =>
        trim (decorator.text source))
  else some (node, [])

/-- What a definition declares. -/
def definitionKind? : String → Option SymbolKind
  | "function_definition" => some .function
  | "class_definition" => some .objectClass
  | _ => none

/-- The function or class that a statement defines. Its range covers the
decorators. -/
def definition? (source : List Char) (earlier : List Node) (node : Node) : Option Symbol := do
  let (definition, decorators) ← undecorated? source node
  let kind ← definitionKind? definition.kind
  let name ← definition.childText? source "name"
  let sig := joinWith ' ' (decorators ++ [signature source definition])
  let doc := (docstring? source definition).or (precedingDoc source earlier node)
  some (Symbol.make name kind (node.range source) sig doc)

/-- The public name that a statement binds by a simple assignment. -/
def assignment? (source : List Char) (earlier : List Node) (node : Node) : Option Symbol := do
  let assignment ← node.namedChildren.head?
  if assignment.kind != "assignment" then none
  else
    let left ← assignment.child? "left"
    let name := left.text source
    if left.kind != "identifier" || name.isEmpty || name.head? == some '_' then none
    else
      let sig := match assignment.childText? source "type" with
        | some annotated => name ++ [':', ' '] ++ annotated
        | none => name
      some (declare source earlier node name .var sig)

/-- What one statement at the top of a source contributes. -/
def statement (source : List Char) (earlier : List Node) (node : Node) : Outline :=
  match node.kind with
  | "import_statement" => { imports := importedModules source node }
  | "import_from_statement" =>
    { imports := ((node.childText? source "module_name").map String.ofList).toList }
  | "function_definition" | "class_definition" | "decorated_definition" =>
    { symbols := (definition? source earlier node).toList }
  | "expression_statement" => { symbols := (assignment? source earlier node).toList }
  | _ => {}

/-- The outline of a source with the given syntax tree. -/
def outline (source : List Char) (root : Node) : Outline :=
  concat (root.namedInOrder.map fun (earlier, node) => statement source earlier node)

end SymbolMap.Outline.Python
