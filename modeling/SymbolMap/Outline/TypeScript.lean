import SymbolMap.Outline.Basic

/-! Outlines of TypeScript and JavaScript sources. An exported declaration
has the range and the documentation of its export statement. -/
namespace SymbolMap.Outline.TypeScript

open SymbolMap.Text

/-- The module that a statement names as its source. -/
def moduleSource (source : List Char) (node : Node) : List String :=
  ((node.childText? source "source").map fun name =>
    String.ofList (stripWhere (fun c => c == '"' || c == '\x27' || c == '\x60') name)).toList

/-- What a declaration declares, unless it declares variables. -/
def declarationKind? : String → Option SymbolKind
  | "function_declaration" | "generator_function_declaration" => some .function
  | "class_declaration" | "abstract_class_declaration" => some .objectClass
  | "interface_declaration" => some .interface
  | "type_alias_declaration" => some .type
  | "enum_declaration" => some .enum
  | "internal_module" | "module" => some .module
  | _ => none

/-- A declaration and the statement that owns its range and documentation. -/
structure Declaration where
  node : Node
  /-- The export statement, or the declaration itself. -/
  outer : Node
  /-- The siblings before the owner, the nearest first. -/
  earlier : List Node
  /-- The words of the export, if it is one. -/
  lead : Option (List Char)

/-- The words of an export in front of a signature. -/
def Declaration.exported (decl : Declaration) (head : List Char) : List Char :=
  match decl.lead with
  | some lead => lead ++ ' ' :: head
  | none => head

/-- A text with blanks collapsed and without equals signs at its end. -/
def collapseHead (s : List Char) : List Char := collapseUpTo (· == '=') s

/-- A declaration in one line. A type keeps only its left-hand side. -/
def Declaration.head (source : List Char) (decl : Declaration) (kind : SymbolKind) : List Char :=
  match kind, decl.node.child? "value" with
  | .type, some value => collapseHead (headBefore source decl.node value)
  | _, _ => signature source decl.node

/-- What a declarator declares, depending on its value and its keyword. -/
def declaratorKind (keyword : List Char) (declarator : Node) : SymbolKind :=
  match (declarator.child? "value").map (·.kind) with
  | some "arrow_function" | some "function_expression" | some "function" => .function
  | _ => if keyword = "const".toList then .const else .var

/-- A declarator in one line: keyword, name and type, and the parameters of a
function. -/
def declaratorHead (source keyword name : List Char) (kind : SymbolKind) (declarator : Node) :
    List Char :=
  let head := keyword ++ ' ' :: name ++ (declarator.childText? source "type").getD []
  let params := (declarator.child? "value").bind fun value => value.childText? source "parameters"
  match kind, params with
  | .function, some params => head ++ " = ".toList ++ collapseHead params ++ " =>".toList
  | _, _ => head

/-- The variable that one declarator declares, if it names one. -/
def declaratorSymbol? (source : List Char) (decl : Declaration) (keyword : List Char)
    (doc : Option (List Char)) (declarator : Node) : Option Symbol :=
  if declarator.kind != "variable_declarator" then none
  else
    match declarator.child? "name" with
    | none => none
    | some named =>
      if named.kind != "identifier" then none
      else
        let name := named.text source
        let kind := declaratorKind keyword declarator
        let head := declaratorHead source keyword name kind declarator
        some (Symbol.make name kind (decl.outer.range source) (decl.exported head) doc)

/-- The variables of a declaration. Its keyword is its first word. -/
def variableSymbols (source : List Char) (decl : Declaration) : List Symbol :=
  let keyword := (words (decl.node.text source)).head?.getD "const".toList
  let doc := precedingDoc source decl.earlier decl.outer
  decl.node.namedChildren.filterMap (declaratorSymbol? source decl keyword doc)

/-- What a declaration declares. -/
def declared (source : List Char) (decl : Declaration) : List Symbol :=
  if decl.node.kind == "lexical_declaration" || decl.node.kind == "variable_declaration" then
    variableSymbols source decl
  else
    match declarationKind? decl.node.kind, decl.node.childText? source "name" with
    | some kind, some name =>
      [declare source decl.earlier decl.outer name kind (decl.exported (decl.head source kind))]
    | _, _ => []

/-- The words with which an export statement begins. -/
def exportWords (source : List Char) (node : Node) : List Char :=
  if (afterLead "export default".toList (node.text source)).isSome then "export default".toList
  else "export".toList

/-- What one statement at the top of a source contributes. -/
def statement (source : List Char) (earlier : List Node) (node : Node) : Outline :=
  match node.kind with
  | "import_statement" => { imports := moduleSource source node }
  | "export_statement" =>
    { imports := moduleSource source node
      symbols := match node.child? "declaration" with
        | some decl =>
          declared source { node := decl, outer := node, earlier, lead := some (exportWords source node) }
        | none => [] }
  | _ => { symbols := declared source { node, outer := node, earlier, lead := none } }

/-- The outline of a source with the given syntax tree. -/
def outline (source : List Char) (root : Node) : Outline :=
  concat (root.namedInOrder.map fun (earlier, node) => statement source earlier node)

end SymbolMap.Outline.TypeScript
