import SymbolMap.Outline.Basic

/-! Outlines of Go sources. A grouped declaration is listed one
specification at a time; a specification without documentation of its own has
that of its group. -/
namespace SymbolMap.Outline.Go

open SymbolMap.Text

mutual

/-- The paths that an import declaration names, in groups too. -/
def imports (source : List Char) : Node → List String
  | ⟨_, _, _, _, _, children⟩ => importsOf source children

/-- The paths that some nodes of an import declaration name. -/
def importsOf (source : List Char) : List Node → List String
  | [] => []
  | node :: nodes =>
    let here :=
      if !node.named then []
      else if node.kind == "import_spec" then
        ((node.childText? source "path").map fun path =>
          String.ofList (stripWhere (fun c => c == '"' || c == '\x60') path)).toList
      else if node.kind == "import_spec_list" then imports source node
      else []
    here ++ importsOf source nodes

end

mutual

/-- The specifications of a declaration, in groups too, each with its earlier
siblings. -/
def specs : Node → List (List Node × Node)
  | ⟨_, _, _, _, _, children⟩ => specsOf [] children

/-- The specifications among some siblings. -/
def specsOf (earlier : List Node) : List Node → List (List Node × Node)
  | [] => []
  | node :: nodes =>
    if !node.named then specsOf earlier nodes
    else
      let here :=
        if node.kind == "const_spec" || node.kind == "var_spec" then [(earlier, node)]
        else if node.kind == "var_spec_list" then specs node
        else []
      here ++ specsOf (node :: earlier) nodes

end

/-- The first line of a node with blanks collapsed and without an opening
brace at its end. -/
def lineHead (source : List Char) (node : Node) : List Char :=
  collapseUpTo (· == '\x7b') (firstLine (node.text source))

/-- A specification in one line, without its value. -/
def specHead (source : List Char) (spec : Node) : List Char :=
  let text := match spec.child? "value" with
    | some value => headBefore source spec value
    | none => lineHead source spec
  collapseUpTo (· == '=') text

/-- A function or method. -/
def named? (source : List Char) (earlier : List Node) (node : Node) (kind : SymbolKind) :
    Option Symbol :=
  (node.childText? source "name").map fun name =>
    declare source earlier node name kind (signature source node)

/-- What a type specification declares. -/
def typeKind (spec : Node) : SymbolKind :=
  match (spec.child? "type").map (·.kind) with
  | some "struct_type" => .struct
  | some "interface_type" => .interface
  | _ => .type

/-- The type that one specification of a group declares. -/
def type? (source : List Char) (groupDoc : Option (List Char)) (earlier : List Node)
    (spec : Node) : Option Symbol :=
  if spec.kind == "type_spec" || spec.kind == "type_alias" then
    (spec.childText? source "name").map fun name =>
      Symbol.make name (typeKind spec) (spec.range source)
        ("type ".toList ++ lineHead source spec)
        ((precedingDoc source earlier spec).or groupDoc)
  else none

/-- The names that one specification of a group binds. The name `_` binds
nothing. -/
def constants (source : List Char) (word : List Char) (kind : SymbolKind)
    (groupDoc : Option (List Char)) (earlier : List Node) (spec : Node) : List Symbol :=
  let sig := word ++ ' ' :: specHead source spec
  let doc := (precedingDoc source earlier spec).or groupDoc
  let names := (spec.childrenIn "name").map (·.text source)
  (names.filter fun name => !name.isEmpty && name != ['_']).map fun name =>
    Symbol.make name kind (spec.range source) sig doc

/-- What one declaration at the top of a source contributes. -/
def declaration (source : List Char) (earlier : List Node) (node : Node) : Outline :=
  let doc := precedingDoc source earlier node
  match node.kind with
  | "import_declaration" => { imports := imports source node }
  | "function_declaration" => { symbols := (named? source earlier node .function).toList }
  | "method_declaration" => { symbols := (named? source earlier node .method).toList }
  | "type_declaration" =>
    { symbols := node.namedInOrder.filterMap fun (before, spec) => type? source doc before spec }
  | "const_declaration" =>
    { symbols := (specs node).flatMap fun (before, spec) =>
        constants source "const".toList .const doc before spec }
  | "var_declaration" =>
    { symbols := (specs node).flatMap fun (before, spec) =>
        constants source "var".toList .var doc before spec }
  | _ => {}

/-- The outline of a source with the given syntax tree. -/
def outline (source : List Char) (root : Node) : Outline :=
  concat (root.namedInOrder.map fun (earlier, node) => declaration source earlier node)

end SymbolMap.Outline.Go
