import SymbolMap.Proofs.Outline.Documentation
import SymbolMap.Proofs.Outline.LineBreaks
import SymbolMap.Proofs.Text.Rows

/-! Comments behind code. A comment may begin on the row on which the code
before it ends, and then speaks of that code. If the next declaration follows
without a free row, the comment is still taken for its documentation. This
happens exactly if the run above the declaration borders on code that ends on
the row on which the comment begins. -/
namespace SymbolMap.Outline

open SymbolMap.Text

section Order

/-- Siblings in source order that do not overlap. -/
structure InOrder (siblings : List Node) : Prop where
  ranges : ∀ node ∈ siblings, node.start ≤ node.stop
  apart : siblings.Pairwise fun node later => node.stop ≤ later.start

instance (siblings : List Node) : Decidable (InOrder siblings) :=
  decidable_of_iff
    ((∀ node ∈ siblings, node.start ≤ node.stop) ∧
      siblings.Pairwise fun node later => node.stop ≤ later.start)
    ⟨fun h => ⟨h.1, h.2⟩, fun h => ⟨h.ranges, h.apart⟩⟩

theorem InOrder.sublist {siblings kept : List Node} (hOrder : InOrder siblings)
    (hKept : kept.Sublist siblings) : InOrder kept :=
  ⟨fun node hNode => hOrder.ranges node (hKept.subset hNode), hOrder.apart.sublist hKept⟩

/-- The siblings before a named child are in order. -/
theorem InOrder.earlier {parent node : Node} {earlier : List Node}
    (hOrder : InOrder parent.children) (hNode : (earlier, node) ∈ parent.namedInOrder) :
    InOrder earlier.reverse := by
  obtain ⟨later, hSiblings⟩ := (mem_namedInOrder_iff parent earlier node).mp hNode
  have hNamed : InOrder parent.namedChildren := hOrder.sublist List.filter_sublist
  rw [hSiblings] at hNamed
  exact hNamed.sublist (List.sublist_append_left _ _)

/-- Neither a comment nor an attribute. -/
def IsCode (node : Node) : Prop := isComment node = false ∧ isAttribute node = false

theorem not_isCode_iff (node : Node) :
    ¬IsCode node ↔ isComment node = true ∨ isAttribute node = true := by
  rw [IsCode, not_and_or, Bool.not_eq_false, Bool.not_eq_false]

theorem stopRow_le_lastRow (source : List Char) (node : Node) :
    (node.stopPosition source).line ≤ lastRow source node + 1 := by
  simp only [lastRow]
  split <;> omega

variable {front back : List Node} {node other : Node}

/-- What comes behind a sibling begins where it ends or later. -/
theorem InOrder.stop_le_start (hOrder : InOrder (front ++ node :: back)) (hMem : other ∈ back) :
    node.stop ≤ other.start :=
  (List.pairwise_cons.mp (List.pairwise_append.mp hOrder.apart).2.1).1 other hMem

/-- Nothing up to a sibling ends on a later row than this one. -/
theorem InOrder.stopRow_le (hOrder : InOrder (front ++ node :: back)) (source : List Char)
    (hMem : other ∈ front ++ [node]) :
    (other.stopPosition source).line ≤ (node.stopPosition source).line := by
  apply line_positionAt_le
  rcases List.mem_append.mp hMem with hFront | hSelf
  · have hApart := (List.pairwise_append.mp hOrder.apart).2.2 other hFront node List.mem_cons_self
    have hRange := hOrder.ranges node (by simp)
    omega
  · rw [List.mem_singleton.mp hSelf]

/-- Nothing from a sibling on begins on an earlier row than this one. -/
theorem InOrder.startRow_le (hOrder : InOrder (front ++ node :: back)) (source : List Char)
    (hMem : other ∈ node :: back) :
    (node.startPosition source).line ≤ (other.startPosition source).line := by
  apply line_positionAt_le
  rcases List.mem_cons.mp hMem with rfl | hBack
  · exact Nat.le_refl _
  · have hApart := hOrder.stop_le_start hBack
    have hRange := hOrder.ranges node (by simp)
    omega

end Order

section Border

variable {source : List Char} {row : Nat} {earlier run : List Node}

theorem Run.not_isCode_of_mem (hRun : Run source row run) {sibling : Node}
    (hMem : sibling ∈ run) : ¬IsCode sibling := by
  induction hRun with
  | nil => cases hMem
  | cons kind _ _ ih =>
      rcases List.mem_cons.mp hMem with rfl | hMem
      · exact (not_isCode_iff _).mpr kind
      · exact ih hMem

/-- A run goes on with a comment or attribute that leaves no row free below
it. -/
theorem Run.concat {front : List Node} {top sibling : Node}
    (hRun : Run source row (front ++ [top]))
    (hKind : isComment sibling = true ∨ isAttribute sibling = true)
    (hNear : (top.startPosition source).line ≤ lastRow source sibling + 1) :
    Run source row (front ++ [top] ++ [sibling]) := by
  induction front generalizing row with
  | nil =>
      cases hRun with
      | cons kind near rest => exact Run.cons kind near (Run.cons hKind hNear (Run.nil _))
  | cons nearest front ih =>
      cases hRun with
      | cons kind near rest => exact Run.cons kind near (ih rest)

/-- The sibling above the longest run is code, or leaves a row free. -/
theorem LongestRun.isCode_or_free {front before : List Node} {top border : Node}
    (hLongest : LongestRun source row earlier (front ++ [top]))
    (hEarlier : earlier = front ++ [top] ++ border :: before) :
    IsCode border ∨ lastRow source border + 1 < (top.startPosition source).line := by
  by_contra hNeither
  obtain ⟨hKind, hNear⟩ := not_or.mp hNeither
  -- otherwise the run could go on with it
  have hLonger := hLongest.linked.concat ((not_isCode_iff border).mp hKind) (Nat.not_lt.mp hNear)
  have hNearest : front ++ [top] ++ [border] <+: earlier := ⟨before, by simp [hEarlier]⟩
  have hLength := hLongest.longest _ hNearest hLonger
  rw [List.length_append, List.length_singleton] at hLength
  omega

/-- If code before a run ends on the row on which a comment of the run begins,
then the run borders on such code. Everything between them is on that row, so
nothing there can leave a row free. -/
theorem LongestRun.borders_on_code (hLongest : LongestRun source row earlier run)
    (hOrder : InOrder earlier.reverse) {comment code : Node} (hComment : comment ∈ run)
    (hMem : code ∈ earlier) (hCode : IsCode code)
    (hRow : (code.stopPosition source).line = (comment.startPosition source).line) :
    ∃ border before, earlier = run ++ border :: before ∧ IsCode border ∧
      (border.stopPosition source).line = (comment.startPosition source).line := by
  obtain ⟨rest, hEarlier⟩ := hLongest.nearest
  have hRest : code ∈ rest := by
    rw [← hEarlier] at hMem
    rcases List.mem_append.mp hMem with hInside | hRest
    · exact absurd hCode (hLongest.linked.not_isCode_of_mem hInside)
    · exact hRest
  obtain ⟨border, before, rfl⟩ := List.exists_cons_of_ne_nil (List.ne_nil_of_mem hRest)
  obtain ⟨front, top, rfl⟩ : ∃ front top, run = front ++ [top] :=
    (List.eq_nil_or_concat' run).resolve_left (List.ne_nil_of_mem hComment)
  have hSource : earlier.reverse = before.reverse ++ border :: top :: front.reverse := by
    simp [← hEarlier]
  rw [hSource] at hOrder
  -- in source order come `code`, `border`, `top` and `comment`, some of them perhaps the same
  have hCodeRow : (code.stopPosition source).line ≤ (border.stopPosition source).line :=
    hOrder.stopRow_le source (by simpa [or_comm] using hRest)
  have hBorderRow : (border.stopPosition source).line ≤ (top.startPosition source).line :=
    line_positionAt_le source (hOrder.stop_le_start List.mem_cons_self)
  have hTopRow : (top.startPosition source).line ≤ (comment.startPosition source).line := by
    rw [List.append_cons] at hOrder
    exact hOrder.startRow_le source (by simpa [or_comm] using hComment)
  rcases hLongest.isCode_or_free hEarlier.symm with hBorder | hFree
  · exact ⟨border, before, hEarlier.symm, hBorder, by omega⟩
  · have hEnd := stopRow_le_lastRow source border
    omega

end Border

theorem LongestRun.precedingDoc_of_text {source : List Char} {node comment : Node}
    {earlier run : List Node}
    (hRun : LongestRun source (node.startPosition source).line earlier run)
    (hComment : firstWithText? source run.reverse = some comment) :
    precedingDoc source earlier node = firstCommentLine (comment.text source) := by
  rw [precedingDoc_eq, ← (longestRun_iff source _ earlier run).mp hRun, hComment,
    Option.bind_some]

/-- A node has the documentation of the first comment with text in the longest
run above it. This comment begins on a row on which code before it ends exactly
if the run borders on code that ends on this row. -/
theorem documented_beside_code_iff {source : List Char} {parent node comment : Node}
    {earlier run : List Node} (hOrder : InOrder parent.children)
    (hNode : (earlier, node) ∈ parent.namedInOrder)
    (hRun : LongestRun source (node.startPosition source).line earlier run)
    (hComment : firstWithText? source run.reverse = some comment) :
    precedingDoc source earlier node = firstCommentLine (comment.text source) ∧
      ((∃ code ∈ earlier, IsCode code ∧
          (code.stopPosition source).line = (comment.startPosition source).line) ↔
        ∃ code before, earlier = run ++ code :: before ∧ IsCode code ∧
          (code.stopPosition source).line = (comment.startPosition source).line) := by
  constructor
  · exact hRun.precedingDoc_of_text hComment
  · constructor
    · intro ⟨code, hMem, hCode, hRow⟩
      have hInside : comment ∈ run := List.mem_reverse.mp (List.mem_of_find?_eq_some hComment)
      exact hRun.borders_on_code (hOrder.earlier hNode) hInside hMem hCode hRow
    · intro ⟨code, before, hEarlier, hCode, hRow⟩
      exact ⟨code, by simp [hEarlier], hCode, hRow⟩

/-- Two constants in a group, with a remark behind the first. -/
def remarked : List Char := "package p\n\nconst (\n\tA = 1 // of A\n\tB = 2\n)\n".toList

/-- The first constant. -/
def firstConstant : Node :=
  ruleNode "const_spec" none 20 25 [
    ruleNode "identifier" (some "name") 20 21 [],
    ruleNode "expression_list" (some "value") 24 25 [ruleNode "int_literal" none 24 25 []]]

/-- The remark behind it. -/
def remark : Node := ruleNode "comment" none 26 33 []

/-- The second constant. -/
def secondConstant : Node :=
  ruleNode "const_spec" none 35 40 [
    ruleNode "identifier" (some "name") 35 36 [],
    ruleNode "expression_list" (some "value") 39 40 [ruleNode "int_literal" none 39 40 []]]

/-- The group of the two. -/
def constantGroup : Node :=
  ruleNode "const_declaration" none 11 42 [firstConstant, remark, secondConstant]

/-- The tree of the source. -/
def remarkedTree : Node :=
  ruleNode "source_file" none 0 43 [
    ruleNode "package_clause" none 0 9 [ruleNode "package_identifier" none 8 9 []],
    constantGroup]

theorem secondConstant_mem_namedInOrder :
    ([remark, firstConstant], secondConstant) ∈ constantGroup.namedInOrder :=
  (mem_namedInOrder_iff _ _ _).mpr ⟨[], rfl⟩

theorem longestRun_secondConstant :
    LongestRun remarked (secondConstant.startPosition remarked).line [remark, firstConstant]
      [remark] := by
  rw [longestRun_iff]
  rfl

theorem firstCommentLine_remark :
    firstCommentLine (remark.text remarked) = some "of A".toList := by
  decide +kernel

theorem firstWithText?_remark : firstWithText? remarked [remark].reverse = some remark := by
  rw [List.reverse_singleton, firstWithText?_cons, firstCommentLine_remark]
  rfl

theorem remark_beside_firstConstant : IsCode firstConstant ∧
    (firstConstant.stopPosition remarked).line = (remark.startPosition remarked).line :=
  ⟨⟨by decide, by decide⟩, by decide⟩

theorem documented_beside_code_secondConstant :
    precedingDoc remarked [remark, firstConstant] secondConstant = some "of A".toList ∧
      ∃ code before, [remark, firstConstant] = [remark] ++ code :: before ∧ IsCode code ∧
        (code.stopPosition remarked).line = (remark.startPosition remarked).line := by
  have hOrder : InOrder constantGroup.children := by decide
  obtain ⟨hDoc, hIff⟩ := documented_beside_code_iff hOrder secondConstant_mem_namedInOrder
    longestRun_secondConstant firstWithText?_remark
  rw [firstCommentLine_remark] at hDoc
  exact ⟨hDoc, hIff.mp ⟨firstConstant, by simp, remark_beside_firstConstant⟩⟩

/-- In a tree that is in order throughout, the remark behind a constant
becomes the documentation of the next one. -/
theorem remark_documents_next_constant :
    (∀ node ∈ visit [[remarkedTree]], InOrder node.children) ∧
      constantGroup ∈ remarkedTree.children ∧
      ([remark, firstConstant], secondConstant) ∈ constantGroup.namedInOrder ∧
      precedingDoc remarked [remark, firstConstant] secondConstant =
        firstCommentLine (remark.text remarked) ∧
      IsCode firstConstant ∧
      (firstConstant.stopPosition remarked).line = (remark.startPosition remarked).line ∧
      (Go.outline remarked remarkedTree).symbols.map (fun symbol => (symbol.name, symbol.doc)) =
        [("A", none), ("B", some "of A")] := by
  have hDoc : precedingDoc remarked [remark, firstConstant] secondConstant =
      firstCommentLine (remark.text remarked) :=
    longestRun_secondConstant.precedingDoc_of_text firstWithText?_remark
  obtain ⟨hCode, hRow⟩ := remark_beside_firstConstant
  exact ⟨by decide +kernel, by simp [remarkedTree, ruleNode], secondConstant_mem_namedInOrder,
    hDoc, hCode, hRow, by decide +kernel⟩

end SymbolMap.Outline
