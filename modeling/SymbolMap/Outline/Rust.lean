import SymbolMap.Outline.Basic

/-! Outlines of Rust sources. Methods are listed under the header of their
`impl` block; a block without methods is listed itself. -/
namespace SymbolMap.Outline.Rust

open SymbolMap.Text

/-- What an item declares. -/
def itemKind? : String → Option SymbolKind
  | "function_item" => some .function
  | "struct_item" => some .struct
  | "enum_item" => some .enum
  | "trait_item" => some .trait
  | "const_item" => some .const
  | "static_item" => some .static
  | "type_item" => some .type
  | "mod_item" => some .module
  | _ => none

/-- A constant or static item in one line, with its type and without its
value. -/
def constantHead (source : List Char) (node : Node) : List Char :=
  let text := match node.child? "value" with
    | some value => headBefore source node value
    | none => node.text source
  collapseUpTo (fun c => c == '=' || c == ';') text

/-- The declaration of an item, if the item has a name. -/
def item? (source : List Char) (earlier : List Node) (node : Node) (kind : SymbolKind) :
    Option Symbol :=
  (node.childText? source "name").map fun name =>
    let sig := match kind with
      | .const | .static => constantHead source node
      | _ => signature source node
    declare source earlier node name kind sig

/-- The declaration of one method under the header of its block. -/
def method? (source header : List Char) (earlier : List Node) (node : Node) : Option Symbol :=
  if node.kind == "function_item" then
    (node.childText? source "name").map fun name =>
      declare source earlier node name .method (header ++ [':', ' '] ++ signature source node)
  else none

/-- The methods of an `impl` block, or the block itself if it has none. -/
def implementation (source : List Char) (earlier : List Node) (node : Node) : List Symbol :=
  let header := signature source node
  let methods := match node.child? "body" with
    | some body => body.namedInOrder.filterMap fun (before, member) =>
        method? source header before member
    | none => []
  if methods.isEmpty then
    [declare source earlier node ((node.childText? source "type").getD []) .impl header]
  else methods

/-- What one item at the top of a source contributes. -/
def item (source : List Char) (earlier : List Node) (node : Node) : Outline :=
  match node.kind with
  | "use_declaration" => { imports := ((node.childText? source "argument").map String.ofList).toList }
  | "impl_item" => { symbols := implementation source earlier node }
  | kind => { symbols := ((itemKind? kind).bind (item? source earlier node)).toList }

/-- The outline of a source with the given syntax tree. -/
def outline (source : List Char) (root : Node) : Outline :=
  concat (root.namedInOrder.map fun (earlier, node) => item source earlier node)

end SymbolMap.Outline.Rust
