import Mathlib.Data.List.Lex
import SymbolMap.SyntaxTree

/-! Where the nodes of a tree are, and in which order they are visited. A place
is the way from the root to a node, by the number of the child at each level.
Nodes are visited in the order of their places, so that a node comes before
what is below it, and that before what is behind it. A cursor that only moves
to the first child, to the next sibling and to the parent goes through a tree
in this order and then leaves it. -/
namespace SymbolMap

section Places

/-- The node at a place in a tree. -/
def Node.at? : Node → List Nat → Option Node
  | node, [] => some node
  | node, index :: place => node.children[index]?.bind (·.at? place)

mutual

/-- The nodes of a tree that hangs at a place, each with its own place and
before what is below it. -/
def Node.preorder (place : List Nat) : Node → List (List Nat × Node)
  | ⟨kind, named, field, start, stop, children⟩ =>
    (place, ⟨kind, named, field, start, stop, children⟩) :: preorderFrom place 0 children

/-- The nodes of trees that hang next to each other below a place, from a
number on. -/
def preorderFrom (place : List Nat) (index : Nat) : List Node → List (List Nat × Node)
  | [] => []
  | node :: nodes => node.preorder (place ++ [index]) ++ preorderFrom place (index + 1) nodes

end

/-- The places of all nodes of a tree, in the order in which they are
visited. -/
def Node.places (root : Node) : List (List Nat) := (root.preorder []).map Prod.fst

/-- Places are listed in preorder: each place of a tree and no other, and in
the order of the numbers on the way down. -/
structure InPreorder (root : Node) (places : List (List Nat)) : Prop where
  exactly : ∀ place, place ∈ places ↔ (root.at? place).isSome = true
  ascending : places.Pairwise (· < ·)

theorem Node.preorder_eq (place : List Nat) (node : Node) :
    node.preorder place = (place, node) :: preorderFrom place 0 node.children := by
  cases node
  rw [Node.preorder]

/-- What follows for a node from its children holds of every node. -/
theorem Node.induction {motive : Node → Prop}
    (step : ∀ node : Node, (∀ child ∈ node.children, motive child) → motive node) :
    ∀ node, motive node
  | ⟨_, _, _, _, _, _⟩ => step _ fun child _ => Node.induction step child
termination_by node => node
decreasing_by
  rename_i hChild
  have hSmaller := List.sizeOf_lt_of_mem hChild
  simp only [Node.mk.sizeOf_spec] at hSmaller ⊢
  omega

variable {place : List Nat} {nodes : List Node}

theorem mem_preorderFrom_iff {below : List Nat} {found : Node}
    (hNodes : ∀ node ∈ nodes, ∀ place, (below, found) ∈ node.preorder place ↔
      ∃ inner, below = place ++ inner ∧ node.at? inner = some found) (index : Nat) :
    (below, found) ∈ preorderFrom place index nodes ↔
      ∃ i inner, below = place ++ (index + i) :: inner ∧
        nodes[i]?.bind (·.at? inner) = some found := by
  induction nodes generalizing index with
  | nil => simp [preorderFrom]
  | cons node nodes ih =>
      obtain ⟨hNode, hRest⟩ := List.forall_mem_cons.mp hNodes
      rw [preorderFrom, List.mem_append, hNode, ih hRest]
      constructor
      · rintro (⟨inner, rfl, hFound⟩ | ⟨i, inner, rfl, hFound⟩)
        · exact ⟨0, inner, by simp, by simpa using hFound⟩
        · exact ⟨i + 1, inner, by rw [Nat.add_right_comm, Nat.add_assoc], by simpa using hFound⟩
      · rintro ⟨i, inner, rfl, hFound⟩
        cases i with
        | zero => exact Or.inl ⟨inner, by simp, by simpa using hFound⟩
        | succ i =>
            exact Or.inr ⟨i, inner, by rw [Nat.add_right_comm, Nat.add_assoc],
              by simpa using hFound⟩

/-- Every node of the tree is listed with its place, and nothing else. -/
theorem Node.mem_preorder_iff (node : Node) (place : List Nat) {below : List Nat} {found : Node} :
    (below, found) ∈ node.preorder place ↔
      ∃ inner, below = place ++ inner ∧ node.at? inner = some found := by
  induction node using Node.induction generalizing place with
  | step node ih =>
      rw [Node.preorder_eq, List.mem_cons, mem_preorderFrom_iff ih]
      constructor
      · rintro (hSame | ⟨i, inner, rfl, hFound⟩)
        · cases hSame
          exact ⟨[], by simp, rfl⟩
        · exact ⟨i :: inner, by simp, hFound⟩
      · rintro ⟨inner, rfl, hFound⟩
        cases inner with
        | nil =>
            cases hFound
            exact Or.inl (by simp)
        | cons i inner => exact Or.inr ⟨i, inner, by simp, hFound⟩

theorem exists_of_mem_preorderFrom {index : Nat} {entry : List Nat × Node}
    (hEntry : entry ∈ preorderFrom place index nodes) :
    ∃ i inner, entry.1 = place ++ (index + i) :: inner := by
  obtain ⟨i, inner, hPlace, _⟩ :=
    (mem_preorderFrom_iff (fun node _ place => node.mem_preorder_iff place) index).mp hEntry
  exact ⟨i, inner, hPlace⟩

theorem pairwise_preorderFrom
    (hNodes : ∀ node ∈ nodes, ∀ place, (node.preorder place).Pairwise fun a b => a.1 < b.1)
    (index : Nat) : (preorderFrom place index nodes).Pairwise fun a b => a.1 < b.1 := by
  induction nodes generalizing index with
  | nil => exact List.Pairwise.nil
  | cons node nodes ih =>
      obtain ⟨hNode, hRest⟩ := List.forall_mem_cons.mp hNodes
      rw [preorderFrom, List.pairwise_append]
      refine ⟨hNode _, ih hRest _, ?_⟩
      -- the number of the child decides between two trees
      intro first hFirst second hSecond
      obtain ⟨inner, hInner, _⟩ := (node.mem_preorder_iff _).mp hFirst
      obtain ⟨i, more, hMore⟩ := exists_of_mem_preorderFrom hSecond
      rw [hInner, hMore, List.append_assoc]
      exact List.Lex.append_left _ (List.Lex.rel (by omega)) place

/-- Nodes are listed in the order of their places. -/
theorem Node.pairwise_preorder (node : Node) (place : List Nat) :
    (node.preorder place).Pairwise fun a b => a.1 < b.1 := by
  induction node using Node.induction generalizing place with
  | step node ih =>
      rw [Node.preorder_eq, List.pairwise_cons]
      refine ⟨?_, pairwise_preorderFrom ih 0⟩
      intro entry hEntry
      obtain ⟨i, inner, hPlace⟩ := exists_of_mem_preorderFrom hEntry
      have hBelow : place ++ [] < place ++ (0 + i) :: inner :=
        List.Lex.append_left _ List.Lex.nil place
      rwa [List.append_nil, ← hPlace] at hBelow

theorem Node.inPreorder_places (root : Node) : InPreorder root root.places := by
  constructor
  · intro place
    rw [Node.places, List.mem_map, Option.isSome_iff_exists]
    constructor
    · rintro ⟨⟨_, node⟩, hEntry, rfl⟩
      obtain ⟨inner, rfl, hNode⟩ := (root.mem_preorder_iff []).mp hEntry
      exact ⟨node, hNode⟩
    · rintro ⟨node, hNode⟩
      exact ⟨(place, node), (root.mem_preorder_iff []).mpr ⟨place, rfl, hNode⟩, rfl⟩
  · rw [Node.places, List.pairwise_map]
    exact root.pairwise_preorder []

end Places

section Visit

variable {nodes : List Node}

theorem visit_nodes
    (hNodes : ∀ node ∈ nodes, ∀ place siblings outer, visit ((node :: siblings) :: outer) =
      (node.preorder place).map Prod.snd ++ visit (siblings :: outer))
    (place : List Nat) (index : Nat) (outer : List (List Node)) :
    visit (nodes :: outer) = (preorderFrom place index nodes).map Prod.snd ++ visit outer := by
  induction nodes generalizing index with
  | nil =>
      rw [visit, preorderFrom]
      rfl
  | cons node nodes ih =>
      obtain ⟨hNode, hRest⟩ := List.forall_mem_cons.mp hNodes
      rw [hNode (place ++ [index]), ih hRest (index + 1), preorderFrom, List.map_append,
        List.append_assoc]

/-- A visit goes through a whole tree before it goes on to its siblings. -/
theorem visit_node (node : Node) (place : List Nat) (siblings : List Node)
    (outer : List (List Node)) :
    visit ((node :: siblings) :: outer) =
      (node.preorder place).map Prod.snd ++ visit (siblings :: outer) := by
  induction node using Node.induction generalizing place siblings outer with
  | step node ih => rw [visit, visit_nodes ih place 0, Node.preorder_eq, List.map_cons,
      List.cons_append]

theorem visit_root (root : Node) : visit [[root]] = (root.preorder []).map Prod.snd := by
  rw [visit_node root [], visit, visit, List.append_nil]

/-- The visited nodes are those at the places, one by one. -/
theorem map_some_visit (root : Node) :
    (visit [[root]]).map some = root.places.map root.at? := by
  rw [visit_root, Node.places, List.map_map, List.map_map]
  apply List.map_congr_left
  intro entry hEntry
  obtain ⟨inner, hPlace, hNode⟩ := (root.mem_preorder_iff []).mp hEntry
  show some entry.2 = root.at? entry.1
  rw [hPlace, List.nil_append, hNode]

end Visit

/-- A cursor stands on the root of a tree, or on a child of the node on which
another one stands. There it knows the number of the child and the siblings
behind it. -/
inductive Cursor where
  | root (node : Node)
  | child (parent : Cursor) (index : Nat) (node : Node) (later : List Node)

namespace Cursor

/-- The node on which a cursor stands. -/
def node : Cursor → Node
  | root node => node
  | child _ _ node _ => node

/-- The place of that node in the tree. -/
def place : Cursor → List Nat
  | root _ => []
  | child parent index _ _ => parent.place ++ [index]

/-- Move to the first child. -/
def firstChild? (cursor : Cursor) : Option Cursor :=
  match cursor.node.children with
  | [] => none
  | first :: later => some (child cursor 0 first later)

/-- Move to the next sibling. -/
def nextSibling? : Cursor → Option Cursor
  | root _ => none
  | child _ _ _ [] => none
  | child parent index _ (next :: later) => some (child parent (index + 1) next later)

/-- Move to the parent. -/
def parent? : Cursor → Option Cursor
  | root _ => none
  | child parent _ _ _ => some parent

/-- Move up until there is a next sibling, and to this. It fails when the
root is left. -/
def climb? (cursor : Cursor) : Option Cursor :=
  match cursor.nextSibling? with
  | some next => some next
  | none =>
    match _hParent : cursor.parent? with
    | some parent => parent.climb?
    | none => none
termination_by cursor
decreasing_by
  cases cursor with
  | root node => cases _hParent
  | child parent index node later =>
      cases _hParent
      simp only [child.sizeOf_spec]
      omega

/-- One round of the walk: to the first child, else up to a next sibling. -/
def advance? (cursor : Cursor) : Option Cursor :=
  match cursor.firstChild? with
  | some first => some first
  | none => cursor.climb?

/-- Where a cursor is after some rounds, unless it has left the tree. -/
def run : Nat → Cursor → Option Cursor
  | 0, cursor => some cursor
  | rounds + 1, cursor => cursor.advance?.bind (run rounds)

/-- What is behind a cursor's node and behind the nodes above it, the nearest
first. -/
def behind : Cursor → List (List Nat × Node)
  | root _ => []
  | child parent index _ later => preorderFrom parent.place (index + 1) later ++ parent.behind

/-- What a cursor still visits, beginning where it stands. -/
def ahead (cursor : Cursor) : List (List Nat × Node) :=
  cursor.node.preorder cursor.place ++ cursor.behind

theorem behind_eq_climb? (cursor : Cursor) : cursor.behind = cursor.climb?.elim [] ahead := by
  induction cursor with
  | root node =>
      rw [climb?]
      rfl
  | child parent index node later ih =>
      rw [climb?]
      cases later with
      | nil =>
          show [] ++ parent.behind = parent.climb?.elim [] ahead
          rw [List.nil_append, ih]
      | cons next later =>
          show preorderFrom parent.place (index + 1) (next :: later) ++ parent.behind =
            ahead (child parent (index + 1) next later)
          rw [preorderFrom, List.append_assoc]
          rfl

/-- A round takes a cursor from its own place to the first of those ahead. -/
theorem ahead_eq_advance? (cursor : Cursor) :
    cursor.ahead = (cursor.place, cursor.node) :: cursor.advance?.elim [] ahead := by
  rw [ahead, Node.preorder_eq, List.cons_append, advance?, firstChild?]
  cases hChildren : cursor.node.children with
  | nil =>
      rw [preorderFrom, List.nil_append, behind_eq_climb?]
  | cons first later =>
      rw [preorderFrom, List.append_assoc]
      rfl

/-- After some rounds a cursor is at the place with that number among those
ahead, and once these are used up it has left the tree. -/
theorem map_run (rounds : Nat) (cursor : Cursor) :
    (run rounds cursor).map (fun reached => (reached.place, reached.node)) =
      cursor.ahead[rounds]? := by
  induction rounds generalizing cursor with
  | zero =>
      rw [ahead_eq_advance?]
      rfl
  | succ rounds ih =>
      rw [ahead_eq_advance?, List.getElem?_cons_succ, run]
      cases hNext : cursor.advance? with
      | none => rfl
      | some next => exact ih next

theorem ahead_root (tree : Node) : (root tree).ahead = tree.preorder [] :=
  List.append_nil _

/-- From the root of a tree, a cursor goes through the places of the tree. -/
theorem map_place_run (rounds : Nat) (tree : Node) :
    (run rounds (root tree)).map place = tree.places[rounds]? := by
  rw [Node.places, List.getElem?_map, ← ahead_root, ← map_run, Option.map_map]
  rfl

/-- The node on which a cursor stands is the one at its place. -/
theorem at?_place_of_run {rounds : Nat} {tree : Node} {cursor : Cursor}
    (hRun : run rounds (root tree) = some cursor) : tree.at? cursor.place = some cursor.node := by
  have hEntry := map_run rounds (root tree)
  rw [hRun, ahead_root, Option.map_some] at hEntry
  obtain ⟨inner, hPlace, hNode⟩ :=
    (tree.mem_preorder_iff []).mp (List.mem_of_getElem? hEntry.symm)
  rw [hPlace, List.nil_append, hNode]

end Cursor

end SymbolMap
