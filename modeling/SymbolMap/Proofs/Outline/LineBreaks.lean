import SymbolMap.Outline.OfLanguage
import SymbolMap.Proofs.Report.LineCount
import SymbolMap.Proofs.Text.OneLine

/-! How many lines declarations take. Documentation never has a line break,
and what a signature collapses has none either. But some pieces of the source
are copied into signatures as they stand: names and types of variables, and
decorators. So a declaration is on one line exactly if these are. -/
namespace SymbolMap.Outline

open SymbolMap.Text SymbolMap.Report

section Comments

theorem dropMarks_subset (mark s : List Char) : dropMarks mark s ⊆ s := by
  fun_induction dropMarks mark s with
  | case1 s => exact List.Subset.refl s
  | case2 s m ms rest hRest ih =>
      rw [(afterLead_eq_some_iff _ _ _).mp hRest]
      exact List.subset_append_of_subset_right _ ih
  | case3 s m ms hNone => exact List.Subset.refl s

theorem dropEndMarks_subset (mark s : List Char) : dropEndMarks mark s ⊆ s := by
  intro c hChar
  rw [dropEndMarks, List.mem_reverse] at hChar
  exact List.mem_reverse.mp (dropMarks_subset _ _ hChar)

theorem commentText_subset (line : List Char) : commentText line ⊆ line := by
  have hOpened : ∀ (marks : List String) (s : List Char),
      marks.foldl (fun s mark => dropMarks mark.toList s) s ⊆ s := by
    intro marks
    induction marks with
    | nil => exact fun s => List.Subset.refl s
    | cons mark marks ih => exact fun s => List.Subset.trans (ih _) (dropMarks_subset mark.toList s)
  rw [commentText]
  apply List.Subset.trans (trim_subset _)
  apply List.Subset.trans (List.dropWhile_sublist _).subset
  apply List.Subset.trans (dropEndMarks_subset _ _)
  exact List.Subset.trans (hOpened _ _) (trim_subset line)

theorem newline_not_mem_firstCommentLine {comment line : List Char}
    (hLine : firstCommentLine comment = some line) : '\n' ∉ line := by
  obtain ⟨raw, hRaw, rfl⟩ := List.mem_map.mp (List.mem_of_find?_eq_some hLine)
  exact fun hBreak => newline_not_mem_of_mem_lines hRaw (commentText_subset raw hBreak)

theorem newline_not_mem_precedingDoc {source : List Char} {earlier : List Node} {node : Node}
    {line : List Char} (hDoc : precedingDoc source earlier node = some line) : '\n' ∉ line := by
  obtain ⟨sibling, _, hLine⟩ := List.exists_of_findSome?_eq_some hDoc
  split at hLine
  · exact newline_not_mem_firstCommentLine hLine
  · cases hLine

theorem newline_not_mem_signature (source : List Char) (node : Node) :
    '\n' ∉ signature source node :=
  newline_not_mem_collapseUpTo _ _

end Comments

section Lines

/-- The line breaks in some texts. -/
def breaksIn (pieces : List (List Char)) : Nat := (pieces.map (List.count '\n')).sum

/-- The documentation of declarations has no line breaks, and all their line
breaks are those of some pieces. -/
structure BreaksOnlyIn (pieces : List (List Char)) (symbols : List Symbol) : Prop where
  docs : ∀ symbol ∈ symbols, ∀ doc ∈ symbol.doc, '\n' ∉ doc.toList
  lines : (symbols.map fun symbol => lineBreaks symbol.render).sum = breaksIn pieces

theorem lineBreaks_lineLabel (symbol : Symbol) : lineBreaks symbol.lineLabel = 0 := by
  have hOpen : lineBreaks "[" = 0 := by decide
  have hDash : lineBreaks "-" = 0 := by decide
  have hClose : lineBreaks "]" = 0 := by decide
  rw [Symbol.lineLabel]
  split <;> simp only [lineBreaks_append, hOpen, hDash, hClose, lineBreaks_toString]

/-- Only the signature can bring line breaks into the line of a declaration. -/
theorem lineBreaks_render {symbol : Symbol} (hDoc : ∀ doc ∈ symbol.doc, '\n' ∉ doc.toList) :
    lineBreaks symbol.render = lineBreaks symbol.signature := by
  have hIndent : lineBreaks "  " = 0 := by decide
  have hSpace : lineBreaks " " = 0 := by decide
  have hMark : lineBreaks " // " = 0 := by decide
  rw [Symbol.render]
  cases hText : symbol.doc with
  | none => simp [hIndent, hSpace, lineBreaks_lineLabel]
  | some doc =>
      have hFree := lineBreaks_eq_zero (hDoc doc hText)
      simp [hIndent, hSpace, hMark, hFree, lineBreaks_lineLabel]

variable {pieces : List (List Char)} {symbols : List Symbol}

theorem BreaksOnlyIn.one_line_iff (hBreaks : BreaksOnlyIn pieces symbols) :
    (∀ symbol ∈ symbols, '\n' ∉ symbol.signature.toList) ↔ ∀ piece ∈ pieces, '\n' ∉ piece := by
  have hSymbols : (∀ symbol ∈ symbols, '\n' ∉ symbol.signature.toList) ↔
      (symbols.map fun symbol => lineBreaks symbol.render).sum = 0 := by
    rw [List.sum_eq_zero_iff_forall_eq_nat, List.forall_mem_map]
    refine forall₂_congr fun symbol hSymbol => ?_
    rw [lineBreaks_render (hBreaks.docs symbol hSymbol), lineBreaks, List.count_eq_zero]
  rw [hSymbols, hBreaks.lines, breaksIn, List.sum_eq_zero_iff_forall_eq_nat, List.forall_mem_map]
  exact forall₂_congr fun piece _ => List.count_eq_zero

theorem BreaksOnlyIn.nil : BreaksOnlyIn [] [] := ⟨by simp, rfl⟩

theorem BreaksOnlyIn.flatMap {α : Type} {items : List α} {f : α → List (List Char)}
    {g : α → List Symbol} (hItems : ∀ item ∈ items, BreaksOnlyIn (f item) (g item)) :
    BreaksOnlyIn (items.flatMap f) (items.flatMap g) := by
  induction items with
  | nil => exact .nil
  | cons item items ih =>
      obtain ⟨hItem, hRest⟩ := List.forall_mem_cons.mp hItems
      have hTail := ih hRest
      constructor
      · intro symbol hSymbol
        rw [List.flatMap_cons, List.mem_append] at hSymbol
        exact hSymbol.elim (hItem.docs symbol) (hTail.docs symbol)
      · have hFirst := hItem.lines
        have hLines := hTail.lines
        rw [breaksIn] at hFirst hLines ⊢
        simp only [List.flatMap_cons, List.map_append, List.sum_append, hFirst, hLines]

/-- A declaration breaks the line where its signature does. -/
theorem breaksOnlyIn_make {name sig : List Char} {kind : SymbolKind} {range : Range}
    {doc : Option (List Char)} (hDoc : ∀ line ∈ doc, '\n' ∉ line)
    (hSig : sig.count '\n' = breaksIn pieces) :
    BreaksOnlyIn pieces [Symbol.make name kind range sig doc] := by
  have hFree : ∀ text ∈ (Symbol.make name kind range sig doc).doc, '\n' ∉ text.toList := by
    intro text hText
    obtain ⟨line, hLine, rfl⟩ := Option.map_eq_some_iff.mp hText
    rw [String.toList_ofList]
    exact hDoc line (Option.eq_some_of_filter_eq_some hLine)
  constructor
  · simpa using hFree
  · rw [List.map_singleton, List.sum_singleton, lineBreaks_render hFree, ← hSig, lineBreaks]
    simp [Symbol.make]

theorem symbols_concat (parts : List Outline) :
    (concat parts).symbols = parts.flatMap Outline.symbols := by
  induction parts with
  | nil => rfl
  | cons part parts ih =>
      rw [List.flatMap_cons, ← ih]
      rfl

/-- What holds of every statement holds of a whole source. -/
theorem breaksOnlyIn_concat {copied : Node → List (List Char)}
    {statement : List Node → Node → Outline}
    (hStatement : ∀ earlier node, BreaksOnlyIn (copied node) (statement earlier node).symbols)
    (root : Node) :
    BreaksOnlyIn (root.namedChildren.flatMap copied)
      (concat (root.namedInOrder.map fun (earlier, node) => statement earlier node)).symbols := by
  have hNodes : ∀ (nodes earlier : List Node),
      nodes.flatMap copied = (Node.withEarlier earlier nodes).flatMap fun item => copied item.2 := by
    intro nodes
    induction nodes with
    | nil => exact fun _ => rfl
    | cons node nodes ih =>
        intro earlier
        rw [Node.withEarlier, List.flatMap_cons, List.flatMap_cons, ← ih]
  rw [symbols_concat, List.flatMap_map, Node.namedInOrder, hNodes _ []]
  exact .flatMap fun item _ => hStatement item.1 item.2

end Lines

namespace TypeScript

section Variables

/-- The pieces that the signature of a variable copies: its name and its type. -/
def copiedFrom (source : List Char) (declarator : Node) : List (List Char) :=
  match declarator.child? "name" with
  | some named =>
    if declarator.kind = "variable_declarator" ∧ named.kind = "identifier" then
      [named.text source, (declarator.childText? source "type").getD []]
    else []
  | none => []

/-- The pieces that the signatures of a declaration copy. -/
def copiedIn (source : List Char) (node : Node) : List (List Char) :=
  if node.kind = "lexical_declaration" ∨ node.kind = "variable_declaration" then
    node.namedChildren.flatMap (copiedFrom source)
  else []

/-- The pieces that the signatures of a source copy. -/
def copied (source : List Char) (root : Node) : List (List Char) :=
  root.namedChildren.flatMap fun node =>
    if node.kind = "export_statement" then
      ((node.child? "declaration").map (copiedIn source)).getD []
    else copiedIn source node

variable {source : List Char} {decl : Declaration}

theorem count_exported (hLead : ∀ lead ∈ decl.lead, '\n' ∉ lead) (head : List Char) :
    (decl.exported head).count '\n' = head.count '\n' := by
  rw [Declaration.exported]
  cases hWords : decl.lead with
  | none => rfl
  | some lead => simp [List.count_eq_zero.mpr (hLead lead hWords)]

theorem count_declaratorHead {keyword : List Char} (hKeyword : '\n' ∉ keyword) (name : List Char)
    (kind : SymbolKind) (declarator : Node) :
    (declaratorHead source keyword name kind declarator).count '\n' =
      name.count '\n' + ((declarator.childText? source "type").getD []).count '\n' := by
  have hParams : ∀ params : List Char, (collapseHead params).count '\n' = 0 := fun params =>
    List.count_eq_zero.mpr (newline_not_mem_collapseUpTo _ params)
  simp only [declaratorHead]
  split <;> simp [List.count_eq_zero.mpr hKeyword, hParams]

theorem breaksOnlyIn_declarator (hLead : ∀ lead ∈ decl.lead, '\n' ∉ lead) {keyword : List Char}
    (hKeyword : '\n' ∉ keyword) {doc : Option (List Char)} (hDoc : ∀ line ∈ doc, '\n' ∉ line)
    (declarator : Node) :
    BreaksOnlyIn (copiedFrom source declarator)
      (declaratorSymbol? source decl keyword doc declarator).toList := by
  rw [declaratorSymbol?, copiedFrom]
  by_cases hKind : declarator.kind = "variable_declarator"
  · cases hName : declarator.child? "name" with
    | none => simpa [hKind] using BreaksOnlyIn.nil
    | some named =>
        by_cases hIdentifier : named.kind = "identifier"
        · simp only [hKind, hIdentifier, bne_self_eq_false, Bool.false_eq_true, if_false,
            and_self, if_true, Option.toList_some]
          apply breaksOnlyIn_make hDoc
          rw [count_exported hLead, count_declaratorHead hKeyword]
          simp [breaksIn]
        · simpa [hKind, hIdentifier] using BreaksOnlyIn.nil
  · cases declarator.child? "name" <;> simpa [hKind] using BreaksOnlyIn.nil

theorem newline_not_mem_head (source : List Char) (decl : Declaration) (kind : SymbolKind) :
    '\n' ∉ decl.head source kind := by
  unfold Declaration.head
  split
  · exact newline_not_mem_collapseUpTo _ _
  · exact newline_not_mem_signature source decl.node

theorem newline_not_mem_keyword (text : List Char) :
    '\n' ∉ (words text).head?.getD "const".toList := by
  cases hWords : words text with
  | nil => decide
  | cons word _ =>
      intro hBreak
      have hWord : word ∈ words text := by simp [hWords]
      exact absurd (not_isBlank_of_mem_words hWord hBreak) (by decide)

theorem breaksOnlyIn_declared (decl : Declaration) (hLead : ∀ lead ∈ decl.lead, '\n' ∉ lead) :
    BreaksOnlyIn (copiedIn source decl.node) (declared source decl) := by
  have hDoc : ∀ line ∈ precedingDoc source decl.earlier decl.outer, '\n' ∉ line :=
    fun _ hLine => newline_not_mem_precedingDoc hLine
  rw [copiedIn, declared]
  by_cases hVariables :
      decl.node.kind = "lexical_declaration" ∨ decl.node.kind = "variable_declaration"
  · rw [if_pos hVariables, if_pos (by simpa using hVariables), variableSymbols,
      List.filterMap_eq_flatMap_toList]
    exact .flatMap fun declarator _ =>
      breaksOnlyIn_declarator hLead (newline_not_mem_keyword _) hDoc declarator
  · rw [if_neg hVariables, if_neg (by simpa using hVariables)]
    split
    · apply breaksOnlyIn_make hDoc
      rw [count_exported hLead, List.count_eq_zero.mpr (newline_not_mem_head source decl _)]
      rfl
    · exact .nil

theorem breaksOnlyIn_statement (earlier : List Node) (node : Node) :
    BreaksOnlyIn
      (if node.kind = "export_statement" then
        ((node.child? "declaration").map (copiedIn source)).getD []
      else copiedIn source node)
      (statement source earlier node).symbols := by
  have hWords : '\n' ∉ exportWords source node := by
    rw [exportWords]
    split <;> decide
  by_cases hExport : node.kind = "export_statement"
  · rw [if_pos hExport]
    simp only [statement, hExport]
    cases node.child? "declaration" with
    | none => exact .nil
    | some decl =>
        exact breaksOnlyIn_declared ⟨decl, node, earlier, some (exportWords source node)⟩
          (by simpa using hWords)
  · rw [if_neg hExport]
    unfold statement
    split
    · rename_i hImport
      rw [copiedIn, if_neg (by simp [hImport])]
      exact .nil
    · exact absurd ‹_› hExport
    · exact breaksOnlyIn_declared ⟨node, node, earlier, none⟩ (by simp)

end Variables

end TypeScript

namespace Python

section Definitions

/-- The pieces that the signature of a definition copies: its decorators. -/
def copiedDecorators (source : List Char) (node : Node) : List (List Char) :=
  match undecorated? source node with
  | some (definition, decorators) =>
    if (definitionKind? definition.kind).isSome ∧ (definition.childText? source "name").isSome then
      decorators
    else []
  | none => []

/-- Whether a node is a name that is listed when it is bound. -/
def isPublicName (source : List Char) (node : Node) : Bool :=
  node.kind == "identifier" && !(node.text source).isEmpty &&
    (node.text source).head? != some '_'

/-- The pieces that the signature of an assignment copies: the name that it
binds and its type. -/
def copiedFromAssignment (source : List Char) (node : Node) : List (List Char) :=
  match node.namedChildren.head? with
  | some assignment =>
    if assignment.kind = "assignment" then
      match assignment.child? "left" with
      | some left =>
        if isPublicName source left then
          [left.text source, (assignment.childText? source "type").getD []]
        else []
      | none => []
    else []
  | none => []

/-- The pieces that the signature of a statement copies. -/
def copiedIn (source : List Char) (node : Node) : List (List Char) :=
  if node.kind = "expression_statement" then copiedFromAssignment source node
  else if node.kind = "function_definition" ∨ node.kind = "class_definition" ∨
      node.kind = "decorated_definition" then copiedDecorators source node
  else []

/-- The pieces that the signatures of a source copy. -/
def copied (source : List Char) (root : Node) : List (List Char) :=
  root.namedChildren.flatMap (copiedIn source)

variable {source : List Char}

theorem newline_not_mem_docstring {definition : Node} {line : List Char}
    (hDoc : docstring? source definition = some line) : '\n' ∉ line := by
  simp only [docstring?, Option.bind_eq_bind, Option.bind_eq_some_iff] at hDoc
  obtain ⟨body, _, first, _, hDoc⟩ := hDoc
  split at hDoc
  · cases hDoc
  · obtain ⟨string, _, hDoc⟩ := Option.bind_eq_some_iff.mp hDoc
    split at hDoc
    · cases hDoc
    · exact newline_not_mem_firstCommentLine hDoc

theorem breaksOnlyIn_definition (earlier : List Node) (node : Node) :
    BreaksOnlyIn (copiedDecorators source node) (definition? source earlier node).toList := by
  rw [definition?, copiedDecorators]
  cases undecorated? source node with
  | none => exact .nil
  | some found =>
      obtain ⟨definition, decorators⟩ := found
      cases hKind : definitionKind? definition.kind with
      | none => simpa [hKind] using BreaksOnlyIn.nil
      | some kind =>
          cases hName : definition.childText? source "name" with
          | none => simpa [hKind, hName] using BreaksOnlyIn.nil
          | some name =>
              simp only [hKind, hName, Option.bind_eq_bind, Option.bind_some, Option.isSome_some,
                and_self, if_true, Option.toList_some]
              apply breaksOnlyIn_make
              · intro line hLine
                rcases Option.or_eq_some_iff.mp hLine with hDoc | ⟨_, hDoc⟩
                · exact newline_not_mem_docstring hDoc
                · exact newline_not_mem_precedingDoc hDoc
              · have hSignature := List.count_eq_zero.mpr (newline_not_mem_signature source definition)
                rw [count_joinWith (by decide)]
                simp [breaksIn, hSignature]

theorem breaksOnlyIn_assignment (earlier : List Node) (node : Node) :
    BreaksOnlyIn (copiedFromAssignment source node) (assignment? source earlier node).toList := by
  have hDoc : ∀ line ∈ precedingDoc source earlier node, '\n' ∉ line :=
    fun _ hLine => newline_not_mem_precedingDoc hLine
  have hListed : ∀ left : Node, (left.kind != "identifier" || (left.text source).isEmpty ||
      (left.text source).head? == some '_') = !isPublicName source left := by
    intro left
    simp only [isPublicName, bne, Bool.not_and, Bool.not_not]
  rw [assignment?, copiedFromAssignment]
  cases node.namedChildren.head? with
  | none => exact .nil
  | some assignment =>
      simp only [Option.bind_eq_bind, Option.bind_some, hListed]
      by_cases hKind : assignment.kind = "assignment"
      · rw [if_pos hKind, if_neg (by simp [hKind])]
        cases assignment.child? "left" with
        | none => exact .nil
        | some left =>
            simp only [Option.bind_some]
            cases isPublicName source left with
            | false => exact .nil
            | true =>
                apply breaksOnlyIn_make hDoc
                cases assignment.childText? source "type" <;> simp [breaksIn]
      · rw [if_neg hKind, if_pos (by simpa using hKind)]
        exact .nil

theorem breaksOnlyIn_statement (earlier : List Node) (node : Node) :
    BreaksOnlyIn (copiedIn source node) (statement source earlier node).symbols := by
  rw [copiedIn]
  by_cases hBinding : node.kind = "expression_statement"
  · rw [if_pos hBinding]
    simp only [statement, hBinding]
    exact breaksOnlyIn_assignment earlier node
  · rw [if_neg hBinding]
    by_cases hDefining : node.kind = "function_definition" ∨ node.kind = "class_definition" ∨
        node.kind = "decorated_definition"
    · rw [if_pos hDefining]
      rcases hDefining with hKind | hKind | hKind <;> simp only [statement, hKind] <;>
        exact breaksOnlyIn_definition earlier node
    · rw [if_neg hDefining]
      have hNone : (statement source earlier node).symbols = [] := by
        unfold statement
        split <;> simp_all
      rw [hNone]
      exact .nil

end Definitions

end Python

/-- The line breaks of the declarations in a source are those of the pieces
that are copied into signatures as they stand, and documentation has none. So
every declaration is on one line exactly if every copied piece is. -/
theorem one_line_iff_copied_one_line (source : List Char) (root : Node) :
    (BreaksOnlyIn (TypeScript.copied source root) (TypeScript.outline source root).symbols ∧
      ((∀ symbol ∈ (TypeScript.outline source root).symbols, '\n' ∉ symbol.signature.toList) ↔
        ∀ piece ∈ TypeScript.copied source root, '\n' ∉ piece)) ∧
    (BreaksOnlyIn (Python.copied source root) (Python.outline source root).symbols ∧
      ((∀ symbol ∈ (Python.outline source root).symbols, '\n' ∉ symbol.signature.toList) ↔
        ∀ piece ∈ Python.copied source root, '\n' ∉ piece)) := by
  have hTypeScript :
      BreaksOnlyIn (TypeScript.copied source root) (TypeScript.outline source root).symbols :=
    breaksOnlyIn_concat TypeScript.breaksOnlyIn_statement root
  have hPython : BreaksOnlyIn (Python.copied source root) (Python.outline source root).symbols :=
    breaksOnlyIn_concat Python.breaksOnlyIn_statement root
  exact ⟨⟨hTypeScript, hTypeScript.one_line_iff⟩, hPython, hPython.one_line_iff⟩

/-- A node that stands for a rule. -/
def ruleNode (kind : String) (field : Option String) (start stop : Nat) (children : List Node) :
    Node :=
  ⟨kind, true, field, start, stop, children⟩

/-- An assignment with a type on two lines. -/
def twoLineType : String := "y: Dict[str,\n  int] = \x7b\x7d\n"

/-- The tree of the assignment. -/
def twoLineTypeTree : Node :=
  ruleNode "module" none 0 25 [
    ruleNode "expression_statement" none 0 24 [
      ruleNode "assignment" none 0 24 [
        ruleNode "identifier" (some "left") 0 1 [],
        ruleNode "type" (some "type") 3 19 [
          ruleNode "generic_type" none 3 19 [
            ruleNode "identifier" none 3 7 [],
            ruleNode "type_parameter" none 7 19 [
              ruleNode "type" none 8 11 [ruleNode "identifier" none 8 11 []],
              ruleNode "type" none 15 18 [ruleNode "identifier" none 15 18 []]]]],
        ruleNode "dictionary" (some "right") 22 24 []]]]

theorem symbols_twoLineType :
    (Python.outline twoLineType.toList twoLineTypeTree).symbols =
      [{ name := "y", kind := .var, range := ⟨⟨0, 0⟩, ⟨1, 11⟩⟩
         signature := "y: Dict[str,\n  int]", doc := none }] := by
  decide +kernel

/-- A copied type can break the line of a declaration. -/
theorem signature_two_lines :
    ∃ symbol ∈ (Python.outline twoLineType.toList twoLineTypeTree).symbols,
      '\n' ∈ symbol.signature.toList ∧ lineBreaks symbol.render = 1 := by
  rw [symbols_twoLineType]
  exact ⟨_, List.mem_singleton_self _, by decide, by decide⟩

end SymbolMap.Outline
