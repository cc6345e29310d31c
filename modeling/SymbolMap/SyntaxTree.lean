import SymbolMap.Text.Position

/-! The syntax tree that a grammar gives for a source. The grammars are not
part of this library: trees come from outside, as nodes with the offsets of
the text that they cover. -/
namespace SymbolMap

open SymbolMap.Text

/-- A node of a syntax tree. -/
structure Node where
  /-- What the node is in its grammar. -/
  kind : String
  /-- The node stands for a rule of the grammar, not for a literal token. -/
  named : Bool
  /-- The role of the node in its parent. -/
  field : Option String
  /-- The offset of the first octet. -/
  start : Nat
  /-- The offset behind the last octet. -/
  stop : Nat
  children : List Node

instance : Inhabited Node := ⟨"", true, none, 0, 0, []⟩

namespace Node

/-- The children that stand for rules. -/
def namedChildren (node : Node) : List Node := node.children.filter (·.named)

/-- The first child in a role. -/
def child? (node : Node) (role : String) : Option Node :=
  node.children.find? (·.field == some role)

/-- All children in a role. -/
def childrenIn (node : Node) (role : String) : List Node :=
  node.children.filter (·.field == some role)

/-- The text that a node covers. -/
def text (source : List Char) (node : Node) : List Char :=
  slice source node.start node.stop

/-- The text of the first child in a role, if there is any. -/
def childText? (source : List Char) (node : Node) (role : String) : Option (List Char) :=
  ((node.child? role).map (·.text source)).filter (!·.isEmpty)

/-- The place where a node begins. -/
def startPosition (source : List Char) (node : Node) : Position :=
  positionAt source node.start

/-- The place where a node ends. -/
def stopPosition (source : List Char) (node : Node) : Position :=
  positionAt source node.stop

/-- The range that a node covers. -/
def range (source : List Char) (node : Node) : Range :=
  ⟨node.startPosition source, node.stopPosition source⟩

/-- Each node of a list with the nodes before it, the nearest first. -/
def withEarlier (earlier : List Node) : List Node → List (List Node × Node)
  | [] => []
  | node :: nodes => (earlier, node) :: withEarlier (node :: earlier) nodes

/-- The named children, each with its earlier named siblings. -/
def namedInOrder (node : Node) : List (List Node × Node) :=
  withEarlier [] node.namedChildren

end Node

mutual

/-- The steps that visiting a node and everything below it takes: one for the
node and one for leaving its children. -/
def Node.steps : Node → Nat
  | ⟨_, _, _, _, _, children⟩ => 2 + stepsOf children

/-- The steps that visiting all of some nodes takes. -/
def stepsOf : List Node → Nat
  | [] => 0
  | node :: nodes => node.steps + stepsOf nodes

end

/-- The steps that a cursor still has to take. -/
def pendingSteps : List (List Node) → Nat
  | [] => 0
  | siblings :: outer => 1 + stepsOf siblings + pendingSteps outer

/-- Visit nodes as a cursor does: to the first child, else to the next
sibling, else up until there is a next sibling. The siblings still to come
are kept for each level, the innermost first. -/
def visit : List (List Node) → List Node
  | [] => []
  | [] :: outer => visit outer
  | (node :: siblings) :: outer => node :: visit (node.children :: siblings :: outer)
termination_by levels => pendingSteps levels
decreasing_by
  · simp [pendingSteps, stepsOf]
  · cases node
    simp only [pendingSteps, stepsOf, Node.steps]
    omega

/-- A node as an entry of a flat list. -/
structure FlatNode where
  /-- The position of the parent in the list; the first entry has none. -/
  parent : Option Nat
  kind : String
  named : Bool
  field : Option String
  start : Nat
  stop : Nat

/-- Hang an entry whose children are known under its parent. -/
def hang (entry : FlatNode × Nat) (below : Array (List Node)) : Array (List Node) :=
  let flat := entry.1
  let node : Node := {
    kind := flat.kind, named := flat.named, field := flat.field,
    start := flat.start, stop := flat.stop, children := below.getD entry.2 [] }
  match flat.parent with
  | some parent => below.modify parent (node :: ·)
  | none => below.setIfInBounds entry.2 [node]

/-- The tree of a list in which each parent comes before its children. An
empty list gives an empty tree. -/
def Node.ofFlat (entries : List FlatNode) : Node :=
  let below := entries.zipIdx.foldr hang (Array.replicate entries.length [])
  ((below.getD 0 []).head?).getD default

end SymbolMap
