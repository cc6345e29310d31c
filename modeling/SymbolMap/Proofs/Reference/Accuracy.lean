import SymbolMap.Proofs.Reference.Uses
import SymbolMap.Proofs.Text.Offsets

/-! What is said about a use of a name is right. Its line is a row of the
source, its column is where the name begins in the octets of the row, and the
context is the row itself, trimmed and never too long. -/
namespace SymbolMap

open SymbolMap.Text
open SymbolMap.Outline (ruleNode)

/-- A node covers a part of a text, from one character up to another. -/
structure Node.IsWithin (source : List Char) (node : Node) : Prop where
  ordered : node.start ≤ node.stop
  starts : IsBoundary source node.start
  stops : IsBoundary source node.stop

instance (source : List Char) (node : Node) : Decidable (node.IsWithin source) :=
  decidable_of_iff
    (node.start ≤ node.stop ∧ IsBoundary source node.start ∧ IsBoundary source node.stop)
    ⟨fun h => ⟨h.1, h.2.1, h.2.2⟩, fun h => ⟨h.ordered, h.starts, h.stops⟩⟩

namespace Reference

section Context

theorem toList_contextOf (line : List Char) :
    (contextOf line).toList =
      if 100 < (trim line).length then (trim line).take 97 ++ ['.', '.', '.'] else trim line := by
  have hLimit : contextLimit < (trim line).length ↔ 100 < (trim line).length := Iff.rfl
  simp only [contextOf, hLimit]
  split <;> exact String.toList_ofList

theorem length_contextOf_le (line : List Char) : (contextOf line).length ≤ 100 := by
  rw [← String.length_toList, toList_contextOf]
  split
  · rw [List.length_append, List.length_take]
    show min 97 (trim line).length + 3 ≤ 100
    omega
  · omega

end Context

section Place

variable {source name : List Char} {node : Node}

/-- A name without line feeds that follows an offset is in one row with it. -/
theorem isPrefix_of_splitAt {s head : List Char} {later : List (List Char)}
    (hRows : splitAt '\n' s = head :: later) (hName : '\n' ∉ name) (hBegins : name <+: s) :
    name <+: head := by
  obtain ⟨rest, rfl⟩ := hBegins
  obtain ⟨piece, pieces, hRest⟩ :=
    List.exists_cons_of_ne_nil (splitWhere_ne_nil (· == '\n') rest)
  rw [splitAt_append_of_not_mem hName hRest] at hRows
  exact ⟨piece, (List.cons.inj hRows).1⟩

theorem text_isPrefix (source : List Char) (node : Node) :
    node.text source <+: dropOctets node.start source :=
  ⟨_, takeOctets_append_dropOctets _ _⟩

/-- The row in which a node begins, the octets of this row before it, and those
from it on. -/
theorem exists_row (hName : '\n' ∉ node.text source) :
    ∃ row, (splitAt '\n' source)[(node.startPosition source).line]? = some row ∧
      encode (node.text source) <+: (encode row).drop (node.startPosition source).column := by
  obtain ⟨earlier, tail, head, later, _, hBack, hRows, hPlace⟩ := exists_cut source node.start
  obtain ⟨rest, hHead⟩ := isPrefix_of_splitAt hBack hName (text_isPrefix source node)
  refine ⟨tail ++ head, ?_, ?_⟩
  · rw [Node.startPosition, hPlace, hRows]
    simp
  · have hOctets : encode (tail ++ head) = encode tail ++ encode head := List.flatMap_append
    rw [Node.startPosition, hPlace, hOctets, ← length_encode, List.drop_left, ← hHead]
    exact ⟨encode rest, List.flatMap_append.symm⟩

/-- The octets before a node are those of the rows above it, each with its
line feed, and those before it in its own row. -/
theorem start_eq (hNode : node.IsWithin source) :
    node.start =
      (((splitAt '\n' source).take (node.startPosition source).line).map fun above =>
        octetLength above + 1).sum + (node.startPosition source).column := by
  obtain ⟨earlier, tail, head, later, hFront, _, hRows, hPlace⟩ := exists_cut source node.start
  have hOctets := octetLength_of_splitAt hFront
  rw [(isBoundary_iff source node.start).mp hNode.starts] at hOctets
  rw [Node.startPosition, hPlace, hRows, List.take_left]
  exact hOctets

end Place

/-- Every use that is found is where it is said to be. There is a node of the
tree with the name as its text, whose offset is that of the line and the
column; the line is a row of the source, and the octets of the row from the
column on begin with the name. The context is the trimmed row, and of more than
100 characters only 97 and dots. -/
theorem inSource_says_where {language : Language} {source name : List Char} {root : Node}
    (hTree : ∀ node ∈ visit [[root]], node.IsWithin source) (hName : '\n' ∉ name)
    {ref : Reference} (hRef : ref ∈ inSource language source name root) :
    ∃ node ∈ visit [[root]], node.text source = name ∧ 0 < ref.line ∧ 0 < ref.column ∧
      node.start = (((splitAt '\n' source).take (ref.line - 1)).map fun above =>
        octetLength above + 1).sum + (ref.column - 1) ∧
      ∃ row, (splitAt '\n' source)[ref.line - 1]? = some row ∧
        encode name <+: (encode row).drop (ref.column - 1) ∧
        ref.context.toList =
          (if 100 < (trim row).length then (trim row).take 97 ++ ['.', '.', '.'] else trim row) ∧
        ref.context.length ≤ 100 := by
  obtain ⟨node, hNode, ⟨_, rfl⟩, rfl⟩ := (mem_inSource_iff language source name root ref).mp hRef
  obtain ⟨row, hRow, hBegins⟩ := exists_row hName
  have hContext : (ofUse "" source node).context = contextOf row := by
    simp only [ofUse, hRow, Option.map_some, Option.getD_some]
  refine ⟨node, hNode, rfl, Nat.succ_pos _, Nat.succ_pos _, start_eq (hTree node hNode), row,
    hRow, hBegins, ?_, ?_⟩
  · rw [hContext, toList_contextOf]
  · rw [hContext]
    exact length_contextOf_le row

/-- Two assignments with Greek names, the first row with a carriage return and
the last one without a line feed. -/
def greekNames : List Char := "α = 1\r\n  β = α".toList

/-- The tree of the assignments. -/
def greekTree : Node :=
  ruleNode "module" none 0 17 [
    ruleNode "expression_statement" none 0 6 [
      ruleNode "assignment" none 0 6 [
        ruleNode "identifier" (some "left") 0 2 [],
        ruleNode "integer" (some "right") 5 6 []]],
    ruleNode "expression_statement" none 10 17 [
      ruleNode "assignment" none 10 17 [
        ruleNode "identifier" (some "left") 10 12 [],
        ruleNode "identifier" (some "right") 15 17 []]]]

theorem inSource_says_where_greekNames :
    (∀ node ∈ visit [[greekTree]], node.IsWithin greekNames) ∧ '\n' ∉ ['α'] ∧
      { file := "", line := 2, column := 8, context := "β = α" } ∈
        inSource .python greekNames ['α'] greekTree ∧
      ∃ row, (splitAt '\n' greekNames)[1]? = some row ∧ encode ['α'] <+: (encode row).drop 7 := by
  have hTree : ∀ node ∈ visit [[greekTree]], node.IsWithin greekNames := by decide +kernel
  have hName : '\n' ∉ ['α'] := by decide
  have hRef : { file := "", line := 2, column := 8, context := "β = α" } ∈
      inSource .python greekNames ['α'] greekTree := by decide +kernel
  obtain ⟨_, _, _, _, _, _, row, hRow, hBegins, _⟩ := inSource_says_where hTree hName hRef
  exact ⟨hTree, hName, hRef, row, hRow, hBegins⟩

end Reference

end SymbolMap
