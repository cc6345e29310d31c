import SymbolMap.Proofs.Outline.Trailing
import SymbolMap.Proofs.SyntaxTree.Preorder
import SymbolMap.Proofs.Text.Offsets

/-! The ranges of declarations. Every declaration has the range of a node, and
an outline lists them along the tree: for each node either declarations that
have its range, or those along its children. So in a tree whose nodes contain
their children and whose siblings are in order, declarations are in source
order. -/
namespace SymbolMap

open SymbolMap.Text

theorem visit_cons (nodes : List Node) (outer : List (List Node)) :
    visit (nodes :: outer) = visit [nodes] ++ visit outer := by
  have hNodes : ∀ outer, visit (nodes :: outer) =
      (preorderFrom [] 0 nodes).map Prod.snd ++ visit outer :=
    visit_nodes (fun node _ => visit_node node) [] 0
  rw [hNodes, hNodes [], visit, List.append_nil]

/-- What is met on a visit of some nodes: the first of them, what is below it,
and what is met on a visit of the others. -/
theorem mem_visit_cons_iff (found node : Node) (nodes : List Node) :
    found ∈ visit [node :: nodes] ↔
      found = node ∨ found ∈ visit [node.children] ∨ found ∈ visit [nodes] := by
  rw [visit, visit_cons, List.mem_cons, List.mem_append]

theorem mem_visit_root_iff (found root : Node) :
    found ∈ visit [[root]] ↔ found = root ∨ found ∈ visit [root.children] := by
  rw [mem_visit_cons_iff, visit, visit]
  simp

namespace Outline

section Listing

/-- Declarations are listed along some nodes: for each of these in turn come
declarations that have its range, if any, or those listed along its
children. -/
inductive Listed (source : List Char) : List Node → List Symbol → Prop where
  | nil : Listed source [] []
  | own {node : Node} {nodes : List Node} {here symbols : List Symbol}
      (ranges : ∀ symbol ∈ here, symbol.range = node.range source)
      (rest : Listed source nodes symbols) :
      Listed source (node :: nodes) (here ++ symbols)
  | descend {node : Node} {nodes : List Node} {inner symbols : List Symbol}
      (children : Listed source node.children inner) (rest : Listed source nodes symbols) :
      Listed source (node :: nodes) (inner ++ symbols)

variable {source : List Char} {node : Node} {nodes others : List Node}
variable {symbols more : List Symbol}

theorem Listed.single (hRanges : ∀ symbol ∈ symbols, symbol.range = node.range source) :
    Listed source [node] symbols := by
  have hOwn := Listed.own hRanges .nil
  rwa [List.append_nil] at hOwn

theorem Listed.inside (hChildren : Listed source node.children symbols) :
    Listed source [node] symbols := by
  have hInside := Listed.descend hChildren .nil
  rwa [List.append_nil] at hInside

theorem Listed.skip (hRest : Listed source nodes symbols) : Listed source (node :: nodes) symbols :=
  @Listed.own source node nodes [] symbols (by simp) hRest

theorem Listed.append (hFirst : Listed source nodes symbols)
    (hSecond : Listed source others more) : Listed source (nodes ++ others) (symbols ++ more) := by
  induction hFirst with
  | nil => exact hSecond
  | own ranges _ ih =>
      rw [List.append_assoc]
      exact .own ranges ih
  | descend children _ _ ih =>
      rw [List.append_assoc]
      exact .descend children ih

/-- Nodes without declarations may stand between the others. -/
theorem Listed.of_sublist (hKept : nodes.Sublist others) (hListed : Listed source nodes symbols) :
    Listed source others symbols := by
  induction hKept generalizing symbols with
  | slnil => exact hListed
  | cons node _ ih => exact (ih hListed).skip
  | cons_cons node _ ih =>
      cases hListed with
      | own ranges rest => exact .own ranges (ih rest)
      | descend children rest => exact .descend children (ih rest)

theorem Listed.flatMap {α : Type} {items : List α} {owner : α → Node} {list : α → List Symbol}
    (hItems : ∀ item ∈ items, Listed source [owner item] (list item)) :
    Listed source (items.map owner) (items.flatMap list) := by
  induction items with
  | nil => exact .nil
  | cons item items ih =>
      obtain ⟨hItem, hRest⟩ := List.forall_mem_cons.mp hItems
      exact hItem.append (ih hRest)

theorem map_snd_withEarlier (earlier nodes : List Node) :
    (Node.withEarlier earlier nodes).map Prod.snd = nodes := by
  induction nodes generalizing earlier with
  | nil => rfl
  | cons node nodes ih => rw [Node.withEarlier, List.map_cons, ih]

/-- What is listed for each named child of a node is listed along all its
children. -/
theorem Listed.namedInOrder {list : List Node × Node → List Symbol}
    (hNamed : ∀ item, Listed source [item.2] (list item)) (parent : Node) :
    Listed source parent.children (parent.namedInOrder.flatMap list) := by
  have hListed : Listed source (parent.namedInOrder.map Prod.snd)
      (parent.namedInOrder.flatMap list) := .flatMap fun item _ => hNamed item
  rw [Node.namedInOrder, map_snd_withEarlier] at hListed
  exact hListed.of_sublist List.filter_sublist

theorem listed_concat {statement : List Node → Node → Outline}
    (hStatement : ∀ earlier node, Listed source [node] (statement earlier node).symbols)
    (root : Node) :
    Listed source root.children
      (concat (root.namedInOrder.map fun (earlier, node) => statement earlier node)).symbols := by
  rw [symbols_concat, List.flatMap_map]
  exact .namedInOrder (fun item => hStatement item.1 item.2) root

end Listing

variable {source : List Char} {earlier : List Node} {node : Node} {symbol : Symbol}

namespace Rust

theorem range_of_mem_item? {kind : SymbolKind} (hSymbol : symbol ∈ item? source earlier node kind) :
    symbol.range = node.range source := by
  obtain ⟨name, _, rfl⟩ := Option.map_eq_some_iff.mp hSymbol
  rfl

theorem range_of_mem_method? {header : List Char}
    (hSymbol : symbol ∈ method? source header earlier node) :
    symbol.range = node.range source := by
  rw [Option.mem_def, method?] at hSymbol
  split at hSymbol
  · obtain ⟨name, _, rfl⟩ := Option.map_eq_some_iff.mp hSymbol
    rfl
  · cases hSymbol

/-- The methods of a block are listed along its body. -/
theorem listed_implementation (earlier : List Node) (node : Node) :
    Listed source [node] (implementation source earlier node) := by
  have hBlock : ∀ name sig, Listed source [node] [declare source earlier node name .impl sig] :=
    fun name sig => .single (by simp [declare, Symbol.make])
  rw [implementation]
  cases hBody : node.child? "body" with
  | none => exact hBlock _ _
  | some body =>
      dsimp only
      split
      · exact hBlock _ _
      · have hMethods : Listed source body.children (body.namedInOrder.filterMap
            fun item => method? source (signature source node) item.1 item.2) := by
          rw [List.filterMap_eq_flatMap_toList]
          exact .namedInOrder (fun item => .single fun _ hSymbol =>
            range_of_mem_method? (Option.mem_toList.mp hSymbol)) body
        have hChild : [body].Sublist node.children :=
          List.singleton_sublist.mpr (List.mem_of_find?_eq_some hBody)
        exact .inside (hMethods.inside.of_sublist hChild)

theorem listed_item (earlier : List Node) (node : Node) :
    Listed source [node] (item source earlier node).symbols := by
  unfold item
  split
  · exact .single (by simp)
  · exact listed_implementation earlier node
  · refine .single fun symbol hSymbol => ?_
    obtain ⟨kind, _, hItem⟩ := Option.bind_eq_some_iff.mp (Option.mem_toList.mp hSymbol)
    exact range_of_mem_item? hItem

end Rust

namespace Go

theorem range_of_mem_named? {kind : SymbolKind}
    (hSymbol : symbol ∈ (named? source earlier node kind).toList) :
    symbol.range = node.range source := by
  obtain ⟨name, _, rfl⟩ := Option.map_eq_some_iff.mp (Option.mem_toList.mp hSymbol)
  rfl

theorem range_of_mem_type? {groupDoc : Option (List Char)}
    (hSymbol : symbol ∈ (type? source groupDoc earlier node).toList) :
    symbol.range = node.range source := by
  rw [Option.mem_toList, type?] at hSymbol
  split at hSymbol
  · obtain ⟨name, _, rfl⟩ := Option.map_eq_some_iff.mp hSymbol
    rfl
  · cases hSymbol

theorem range_of_mem_constants {word : List Char} {kind : SymbolKind}
    {groupDoc : Option (List Char)}
    (hSymbol : symbol ∈ constants source word kind groupDoc earlier node) :
    symbol.range = node.range source := by
  obtain ⟨name, _, rfl⟩ := List.mem_map.mp hSymbol
  rfl

variable {list : List Node × Node → List Symbol}

theorem listed_specsOf (hSpec : ∀ item, Listed source [item.2] (list item)) {nodes : List Node}
    (hNodes : ∀ node ∈ nodes, Listed source node.children ((specs node).flatMap list))
    (earlier : List Node) : Listed source nodes ((specsOf earlier nodes).flatMap list) := by
  induction nodes generalizing earlier with
  | nil => exact .nil
  | cons node nodes ih =>
      obtain ⟨hNode, hRest⟩ := List.forall_mem_cons.mp hNodes
      rw [specsOf]
      split
      · exact (ih hRest earlier).skip
      · rw [List.flatMap_append, ← List.singleton_append]
        refine Listed.append ?_ (ih hRest _)
        split
        · rw [List.flatMap_singleton]
          exact hSpec (earlier, node)
        · split
          · exact hNode.inside
          · exact .single (by simp)

/-- What is listed for each specification of a declaration is listed along its
children, and along those of its groups. -/
theorem listed_specs (hSpec : ∀ item, Listed source [item.2] (list item)) (node : Node) :
    Listed source node.children ((specs node).flatMap list) := by
  induction node using Node.induction with
  | step node ih =>
      cases node
      rw [specs]
      exact listed_specsOf hSpec ih []

theorem listed_declaration (earlier : List Node) (node : Node) :
    Listed source [node] (declaration source earlier node).symbols := by
  have hConstants : ∀ (word : List Char) (kind : SymbolKind) (item : List Node × Node),
      Listed source [item.2]
        (constants source word kind (precedingDoc source earlier node) item.1 item.2) :=
    fun word kind item => .single fun _ hSymbol => range_of_mem_constants hSymbol
  unfold declaration
  split
  · exact .single (by simp)
  · exact .single fun _ hSymbol => range_of_mem_named? hSymbol
  · exact .single fun _ hSymbol => range_of_mem_named? hSymbol
  · dsimp only
    rw [List.filterMap_eq_flatMap_toList]
    exact .inside (.namedInOrder (fun item => .single fun _ hSymbol =>
      range_of_mem_type? hSymbol) node)
  · exact .inside (listed_specs (hConstants _ _) node)
  · exact .inside (listed_specs (hConstants _ _) node)
  · exact .single (by simp)

end Go

namespace Python

theorem range_of_mem_definition? (hSymbol : symbol ∈ (definition? source earlier node).toList) :
    symbol.range = node.range source := by
  rw [Option.mem_toList, definition?] at hSymbol
  simp only [Option.bind_eq_bind, Option.bind_eq_some_iff, Option.some.injEq] at hSymbol
  obtain ⟨_, _, _, _, _, _, rfl⟩ := hSymbol
  rfl

theorem range_of_mem_assignment? (hSymbol : symbol ∈ (assignment? source earlier node).toList) :
    symbol.range = node.range source := by
  rw [Option.mem_toList, assignment?] at hSymbol
  obtain ⟨assignment, _, hSymbol⟩ := Option.bind_eq_some_iff.mp hSymbol
  split at hSymbol
  · cases hSymbol
  · obtain ⟨left, _, hSymbol⟩ := Option.bind_eq_some_iff.mp hSymbol
    dsimp only at hSymbol
    split at hSymbol
    · cases hSymbol
    · cases hSymbol
      rfl

theorem listed_statement (earlier : List Node) (node : Node) :
    Listed source [node] (statement source earlier node).symbols := by
  unfold statement
  split
  · exact .single (by simp)
  · exact .single (by simp)
  · exact .single fun _ hSymbol => range_of_mem_definition? hSymbol
  · exact .single fun _ hSymbol => range_of_mem_definition? hSymbol
  · exact .single fun _ hSymbol => range_of_mem_definition? hSymbol
  · exact .single fun _ hSymbol => range_of_mem_assignment? hSymbol
  · exact .single (by simp)

end Python

namespace TypeScript

theorem range_of_mem_declaratorSymbol? {decl : Declaration} {keyword : List Char}
    {doc : Option (List Char)} {declarator : Node}
    (hSymbol : declaratorSymbol? source decl keyword doc declarator = some symbol) :
    symbol.range = decl.outer.range source := by
  rw [declaratorSymbol?] at hSymbol
  split at hSymbol
  · cases hSymbol
  · split at hSymbol
    · cases hSymbol
    · split at hSymbol
      · cases hSymbol
      · cases hSymbol
        rfl

/-- Whatever a statement declares has the range of the statement. -/
theorem range_of_mem_declared {decl : Declaration} (hSymbol : symbol ∈ declared source decl) :
    symbol.range = decl.outer.range source := by
  rw [declared] at hSymbol
  split at hSymbol
  · obtain ⟨declarator, _, hDeclarator⟩ := List.mem_filterMap.mp hSymbol
    exact range_of_mem_declaratorSymbol? hDeclarator
  · split at hSymbol
    · rw [List.mem_singleton.mp hSymbol]
      rfl
    · cases hSymbol

theorem listed_statement (earlier : List Node) (node : Node) :
    Listed source [node] (statement source earlier node).symbols := by
  unfold statement
  split
  · exact .single (by simp)
  · dsimp only
    split
    · exact .single fun _ hSymbol => range_of_mem_declared hSymbol
    · exact .single (by simp)
  · exact .single fun _ hSymbol => range_of_mem_declared hSymbol

end TypeScript

/-- The declarations of an outline are listed along the children of the
root. -/
theorem listed_ofSource? {language : Language} {root : Node} {outline : Outline}
    (hOutline : ofSource? language source root = some outline) :
    Listed source root.children outline.symbols := by
  cases language with
  | rust =>
      cases hOutline
      exact listed_concat Rust.listed_item root
  | go =>
      cases hOutline
      exact listed_concat Go.listed_declaration root
  | python =>
      cases hOutline
      exact listed_concat Python.listed_statement root
  | unknown => cases hOutline
  | typescript =>
      cases hOutline
      exact listed_concat TypeScript.listed_statement root
  | tsx =>
      cases hOutline
      exact listed_concat TypeScript.listed_statement root
  | javascript =>
      cases hOutline
      exact listed_concat TypeScript.listed_statement root
  | jsx =>
      cases hOutline
      exact listed_concat TypeScript.listed_statement root

/-- The range of a declaration is that of a node of the tree. -/
theorem Listed.exists_owner {nodes : List Node} {symbols : List Symbol}
    (hListed : Listed source nodes symbols) (hSymbol : symbol ∈ symbols) :
    ∃ owner ∈ visit [nodes], symbol.range = owner.range source := by
  induction hListed with
  | nil => cases hSymbol
  | @own node nodes here symbols ranges _ ih =>
      rcases List.mem_append.mp hSymbol with hHere | hLater
      · exact ⟨node, (mem_visit_cons_iff _ _ _).mpr (Or.inl rfl), ranges symbol hHere⟩
      · obtain ⟨owner, hOwner, hRange⟩ := ih hLater
        exact ⟨owner, (mem_visit_cons_iff _ _ _).mpr (Or.inr (Or.inr hOwner)), hRange⟩
  | descend _ _ ihInner ih =>
      rcases List.mem_append.mp hSymbol with hInner | hLater
      · obtain ⟨owner, hOwner, hRange⟩ := ihInner hInner
        exact ⟨owner, (mem_visit_cons_iff _ _ _).mpr (Or.inr (Or.inl hOwner)), hRange⟩
      · obtain ⟨owner, hOwner, hRange⟩ := ih hLater
        exact ⟨owner, (mem_visit_cons_iff _ _ _).mpr (Or.inr (Or.inr hOwner)), hRange⟩

section Order

/-- A node contains its children, and they are in order and do not overlap. -/
structure IsOrderly (node : Node) : Prop where
  inOrder : InOrder node.children
  contains : ∀ child ∈ node.children, node.start ≤ child.start ∧ child.stop ≤ node.stop

instance (node : Node) : Decidable (IsOrderly node) :=
  decidable_of_iff
    (InOrder node.children ∧
      ∀ child ∈ node.children, node.start ≤ child.start ∧ child.stop ≤ node.stop)
    ⟨fun h => ⟨h.1, h.2⟩, fun h => ⟨h.inOrder, h.contains⟩⟩

/-- Declarations are in source order, and their ranges lie between two
places. -/
structure Spread (first last : Position) (symbols : List Symbol) : Prop where
  starts : symbols.Pairwise fun symbol later => symbol.range.start ≤ later.range.start
  within : ∀ symbol ∈ symbols, first ≤ symbol.range.start ∧
    symbol.range.start ≤ symbol.range.stop ∧ symbol.range.stop ≤ last

variable {first middle last : Position} {symbols more : List Symbol}

/-- Declarations up to a place and declarations from there on. -/
theorem Spread.append (hFirst : Spread first middle symbols) (hSecond : Spread middle last more)
    (hBefore : first ≤ middle) (hAfter : middle ≤ last) : Spread first last (symbols ++ more) := by
  constructor
  · refine List.pairwise_append.mpr ⟨hFirst.starts, hSecond.starts, ?_⟩
    intro symbol hSymbol later hLater
    obtain ⟨_, hRange, hStop⟩ := hFirst.within symbol hSymbol
    exact le_trans hRange (le_trans hStop (hSecond.within later hLater).1)
  · intro symbol hSymbol
    rcases List.mem_append.mp hSymbol with hSymbol | hSymbol
    · obtain ⟨hStart, hRange, hStop⟩ := hFirst.within symbol hSymbol
      exact ⟨hStart, hRange, le_trans hStop hAfter⟩
    · obtain ⟨hStart, hRange, hStop⟩ := hSecond.within symbol hSymbol
      exact ⟨le_trans hBefore hStart, hRange, hStop⟩

theorem Spread.mono {first' last' : Position} (hSpread : Spread first last symbols)
    (hBefore : first' ≤ first) (hAfter : last ≤ last') : Spread first' last' symbols := by
  refine ⟨hSpread.starts, ?_⟩
  intro symbol hSymbol
  obtain ⟨hStart, hRange, hStop⟩ := hSpread.within symbol hSymbol
  exact ⟨le_trans hBefore hStart, hRange, le_trans hStop hAfter⟩

/-- Declarations with the range of one node. -/
theorem spread_of_range (hRange : node.start ≤ node.stop)
    (hSymbols : ∀ symbol ∈ symbols, symbol.range = node.range source) :
    Spread (node.startPosition source) (node.stopPosition source) symbols := by
  constructor
  · apply List.pairwise_of_forall_mem_list
    intro symbol hSymbol later hLater
    rw [hSymbols symbol hSymbol, hSymbols later hLater]
  · intro symbol hSymbol
    rw [hSymbols symbol hSymbol]
    exact ⟨le_refl _, positionAt_le source hRange, le_refl _⟩

/-- The declarations of a node and those of the nodes behind it, which begin
where it ends or later. -/
theorem spread_cons {nodes : List Node} {lo hi : Nat} (hOrder : InOrder (node :: nodes))
    (hWithin : ∀ inner ∈ node :: nodes, lo ≤ inner.start ∧ inner.stop ≤ hi)
    (hHere : Spread (node.startPosition source) (node.stopPosition source) symbols)
    (hRest : InOrder nodes → (∀ inner ∈ nodes, node.stop ≤ inner.start ∧ inner.stop ≤ hi) →
      Spread (positionAt source node.stop) (positionAt source hi) more) :
    Spread (positionAt source lo) (positionAt source hi) (symbols ++ more) := by
  obtain ⟨⟨hLo, hHi⟩, hLater⟩ := List.forall_mem_cons.mp hWithin
  have hRange : node.start ≤ node.stop := hOrder.ranges node List.mem_cons_self
  have hApart : ∀ inner ∈ nodes, node.stop ≤ inner.start :=
    (List.pairwise_cons.mp hOrder.apart).1
  have hMore := hRest (hOrder.sublist (List.sublist_cons_self node nodes))
    fun inner hInner => ⟨hApart inner hInner, (hLater inner hInner).2⟩
  exact (hHere.mono (positionAt_le source hLo) (le_refl _)).append hMore
    (positionAt_le source (le_trans hLo hRange)) (positionAt_le source hHi)

/-- What is listed along nodes in order is in source order. The induction goes
from each node to those behind it and to its children, which it contains. -/
theorem Listed.spread {nodes : List Node} (hListed : Listed source nodes symbols) {lo hi : Nat}
    (hOrder : InOrder nodes) (hWithin : ∀ inner ∈ nodes, lo ≤ inner.start ∧ inner.stop ≤ hi)
    (hTree : ∀ inner ∈ visit [nodes], IsOrderly inner) :
    Spread (positionAt source lo) (positionAt source hi) symbols := by
  induction hListed generalizing lo hi with
  | nil => exact ⟨List.Pairwise.nil, by simp⟩
  | @own node nodes here symbols ranges _ ih =>
      have hRange : node.start ≤ node.stop := hOrder.ranges node List.mem_cons_self
      apply spread_cons hOrder hWithin (spread_of_range hRange ranges)
      intro hBehind hLater
      exact ih hBehind hLater fun inner hInner =>
        hTree inner ((mem_visit_cons_iff _ _ _).mpr (Or.inr (Or.inr hInner)))
  | @descend node nodes inner symbols _ _ ihInner ih =>
      have hNode : IsOrderly node := hTree node ((mem_visit_cons_iff _ _ _).mpr (Or.inl rfl))
      have hBelow : Spread (node.startPosition source) (node.stopPosition source) inner :=
        ihInner hNode.inOrder hNode.contains fun found hFound =>
          hTree found ((mem_visit_cons_iff _ _ _).mpr (Or.inr (Or.inl hFound)))
      apply spread_cons hOrder hWithin hBelow
      intro hBehind hLater
      exact ih hBehind hLater fun inner hInner =>
        hTree inner ((mem_visit_cons_iff _ _ _).mpr (Or.inr (Or.inr hInner)))

end Order

/-- In a tree whose nodes contain their children and whose siblings are in
order without overlap, an outline in any language lists its declarations in
source order, by the line and column where they begin. Each range ends where it
begins or later, and all lie within the range of the root. -/
theorem outline_in_source_order {source : List Char} {root : Node}
    (hTree : ∀ node ∈ visit [[root]], IsOrderly node) {language : Language} {outline : Outline}
    (hOutline : ofSource? language source root = some outline) :
    (outline.symbols.Pairwise fun symbol later => symbol.range.start ≤ later.range.start) ∧
      ∀ symbol ∈ outline.symbols, symbol.range.start ≤ symbol.range.stop ∧
        (root.range source).start ≤ symbol.range.start ∧
        symbol.range.stop ≤ (root.range source).stop := by
  have hRoot : IsOrderly root := hTree root ((mem_visit_root_iff _ _).mpr (Or.inl rfl))
  have hSpread := (listed_ofSource? hOutline).spread hRoot.inOrder hRoot.contains
    fun node hNode => hTree node ((mem_visit_root_iff _ _).mpr (Or.inr hNode))
  refine ⟨hSpread.starts, ?_⟩
  intro symbol hSymbol
  obtain ⟨hStart, hRange, hStop⟩ := hSpread.within symbol hSymbol
  exact ⟨hRange, hStart, hStop⟩

theorem outline_in_source_order_remarked :
    (∀ node ∈ visit [[remarkedTree]], IsOrderly node) ∧
      ofSource? .go remarked remarkedTree = some (Go.outline remarked remarkedTree) ∧
      ((Go.outline remarked remarkedTree).symbols.map fun symbol => symbol.range) =
        [⟨⟨3, 1⟩, ⟨3, 6⟩⟩, ⟨⟨4, 1⟩, ⟨4, 6⟩⟩] ∧
      (Go.outline remarked remarkedTree).symbols.Pairwise fun symbol later =>
        symbol.range.start ≤ later.range.start := by
  have hTree : ∀ node ∈ visit [[remarkedTree]], IsOrderly node := by decide +kernel
  have hOutline : ofSource? .go remarked remarkedTree =
      some (Go.outline remarked remarkedTree) := rfl
  exact ⟨hTree, hOutline, by decide +kernel, (outline_in_source_order hTree hOutline).1⟩

end Outline

end SymbolMap
