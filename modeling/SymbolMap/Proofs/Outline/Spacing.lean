import SymbolMap.Proofs.Outline.LineBreaks

/-! How declarations of Rust and Go sources are spaced. Everything that their
signatures take from the source is collapsed first, and what is put in front
of it ends in one space. So these declarations are always on one line. -/
namespace SymbolMap.Outline

open SymbolMap.Text SymbolMap.Report

section Documentation

/-- A line of documentation: it has text, no line feed, and no blanks around
it. -/
structure IsDocLine (line : List Char) : Prop where
  text : line ≠ []
  newline : '\n' ∉ line
  trimmed : Trimmed line

theorem isDocLine_firstCommentLine {comment line : List Char}
    (hLine : firstCommentLine comment = some line) : IsDocLine line where
  text := by simpa using List.find?_some hLine
  newline := newline_not_mem_firstCommentLine hLine
  trimmed := by
    obtain ⟨raw, _, rfl⟩ := List.mem_map.mp (List.mem_of_find?_eq_some hLine)
    exact trimmed_trim _

theorem isDocLine_precedingDoc {source : List Char} {earlier : List Node} {node : Node} :
    ∀ line ∈ precedingDoc source earlier node, IsDocLine line := by
  intro line hDoc
  obtain ⟨sibling, _, hLine⟩ := List.exists_of_findSome?_eq_some hDoc
  split at hLine
  · exact isDocLine_firstCommentLine hLine
  · cases hLine

/-- A member of a group has its own documentation or that of the group. -/
theorem isDocLine_or {own shared : Option (List Char)} (hOwn : ∀ line ∈ own, IsDocLine line)
    (hShared : ∀ line ∈ shared, IsDocLine line) : ∀ line ∈ own.or shared, IsDocLine line := by
  intro line hLine
  rcases Option.or_eq_some_iff.mp hLine with hLine | ⟨_, hLine⟩
  · exact hOwn line hLine
  · exact hShared line hLine

end Documentation

section Declarations

/-- A declaration whose rendering is one line: neither its signature nor its
documentation has a line feed, the only blanks of the signature are single
spaces, and the documentation has text without blanks around it. -/
structure OnOneLine (symbol : Symbol) : Prop where
  render : '\n' ∉ symbol.render.toList
  signature : '\n' ∉ symbol.signature.toList
  spaced : SingleSpaced symbol.signature.toList
  doc : ∀ doc ∈ symbol.doc, IsDocLine doc.toList

theorem onOneLine_make {name sig : List Char} {kind : SymbolKind} {range : Range}
    {doc : Option (List Char)} (hSig : SingleSpaced sig) (hDoc : ∀ line ∈ doc, IsDocLine line) :
    OnOneLine (Symbol.make name kind range sig doc) := by
  have hSpaced : SingleSpaced (Symbol.make name kind range sig doc).signature.toList := by
    rwa [Symbol.make, String.toList_ofList]
  have hDocs : ∀ text ∈ (Symbol.make name kind range sig doc).doc, IsDocLine text.toList := by
    intro text hMem
    obtain ⟨line, hLine, rfl⟩ := Option.map_eq_some_iff.mp hMem
    rw [String.toList_ofList]
    exact hDoc line (Option.eq_some_of_filter_eq_some hLine)
  refine ⟨?_, hSpaced.newline_not_mem, hSpaced, hDocs⟩
  rw [← List.count_eq_zero, ← lineBreaks,
    lineBreaks_render fun text hMem => (hDocs text hMem).newline]
  exact lineBreaks_eq_zero hSpaced.newline_not_mem

/-- A text and a space in front of a collapsed piece of source. -/
theorem singleSpaced_before {lead : List Char} (hLead : SingleSpaced lead)
    (hEnd : ' ' ∉ lead.getLast?) (p : Char → Bool) (s : List Char) :
    SingleSpaced (lead ++ ' ' :: collapseUpTo p s) := by
  obtain ⟨hSpaced, hTrimmed⟩ := singleSpaced_collapseUpTo p s
  exact hLead.append_space hEnd hSpaced fun hSpace =>
    absurd (hTrimmed.first ' ' hSpace) (by decide)

variable {source : List Char} {earlier : List Node} {node : Node} {symbol : Symbol}

theorem onOneLine_declare {name sig : List Char} {kind : SymbolKind} (hSig : SingleSpaced sig) :
    OnOneLine (declare source earlier node name kind sig) :=
  onOneLine_make hSig isDocLine_precedingDoc

/-- What holds of the declarations of every item holds of a whole source. -/
theorem onOneLine_concat {item : List Node → Node → Outline}
    (hItem : ∀ earlier node, ∀ symbol ∈ (item earlier node).symbols, OnOneLine symbol)
    (root : Node) :
    ∀ symbol ∈ (concat (root.namedInOrder.map fun (earlier, node) => item earlier node)).symbols,
      OnOneLine symbol := by
  intro symbol hSymbol
  rw [symbols_concat, List.flatMap_map, List.mem_flatMap] at hSymbol
  obtain ⟨⟨earlier, node⟩, _, hSymbol⟩ := hSymbol
  exact hItem earlier node symbol hSymbol

namespace Rust

theorem onOneLine_item? {kind : SymbolKind} (hSymbol : symbol ∈ item? source earlier node kind) :
    OnOneLine symbol := by
  obtain ⟨name, _, rfl⟩ := Option.map_eq_some_iff.mp hSymbol
  apply onOneLine_declare
  split <;> exact (singleSpaced_collapseUpTo _ _).1

/-- The header of its block and a colon come in front of a method. -/
theorem onOneLine_method? {block : Node}
    (hSymbol : symbol ∈ method? source (signature source block) earlier node) :
    OnOneLine symbol := by
  rw [Option.mem_def, method?] at hSymbol
  split at hSymbol
  · obtain ⟨name, _, rfl⟩ := Option.map_eq_some_iff.mp hSymbol
    have hHeader : SingleSpaced (signature source block ++ [':']) :=
      (singleSpaced_collapseUpTo _ _).1.concat (by decide)
    apply onOneLine_declare
    rw [List.append_cons, List.append_assoc]
    exact singleSpaced_before hHeader (by simp) _ _
  · cases hSymbol

theorem onOneLine_implementation (hSymbol : symbol ∈ implementation source earlier node) :
    OnOneLine symbol := by
  have hBlock : ∀ name, OnOneLine (declare source earlier node name .impl (signature source node)) :=
    fun _ => onOneLine_declare (singleSpaced_collapseUpTo _ _).1
  rw [implementation] at hSymbol
  cases hBody : node.child? "body" with
  | none =>
      rw [hBody] at hSymbol
      rw [List.mem_singleton.mp hSymbol]
      exact hBlock _
  | some body =>
      simp only [hBody] at hSymbol
      split at hSymbol
      · rw [List.mem_singleton.mp hSymbol]
        exact hBlock _
      · obtain ⟨⟨before, member⟩, _, hMethod⟩ := List.mem_filterMap.mp hSymbol
        exact onOneLine_method? hMethod

theorem onOneLine_item (hSymbol : symbol ∈ (item source earlier node).symbols) :
    OnOneLine symbol := by
  unfold item at hSymbol
  split at hSymbol
  · cases hSymbol
  · exact onOneLine_implementation hSymbol
  · obtain ⟨kind, _, hItem⟩ := Option.bind_eq_some_iff.mp (Option.mem_toList.mp hSymbol)
    exact onOneLine_item? hItem

end Rust

namespace Go

theorem onOneLine_named? {kind : SymbolKind}
    (hSymbol : symbol ∈ named? source earlier node kind) : OnOneLine symbol := by
  obtain ⟨name, _, rfl⟩ := Option.map_eq_some_iff.mp hSymbol
  exact onOneLine_declare (singleSpaced_collapseUpTo _ _).1

theorem onOneLine_type? {groupDoc : Option (List Char)}
    (hGroup : ∀ line ∈ groupDoc, IsDocLine line)
    (hSymbol : symbol ∈ type? source groupDoc earlier node) : OnOneLine symbol := by
  rw [Option.mem_def, type?] at hSymbol
  split at hSymbol
  · obtain ⟨name, _, rfl⟩ := Option.map_eq_some_iff.mp hSymbol
    have hWord : SingleSpaced "type".toList := singleSpaced_of_not_isBlank (by simp [isBlank])
    have hSig : SingleSpaced ("type".toList ++ ' ' :: lineHead source node) :=
      singleSpaced_before hWord (by decide) _ _
    exact onOneLine_make hSig (isDocLine_or isDocLine_precedingDoc hGroup)
  · cases hSymbol

theorem onOneLine_constants {word : List Char} (hWord : ∀ c ∈ word, isBlank c = false)
    {kind : SymbolKind} {groupDoc : Option (List Char)}
    (hGroup : ∀ line ∈ groupDoc, IsDocLine line)
    (hSymbol : symbol ∈ constants source word kind groupDoc earlier node) : OnOneLine symbol := by
  obtain ⟨name, _, rfl⟩ := List.mem_map.mp hSymbol
  refine onOneLine_make ?_ (isDocLine_or isDocLine_precedingDoc hGroup)
  refine singleSpaced_before (singleSpaced_of_not_isBlank hWord) ?_ _ _
  exact fun hSpace => absurd (hWord ' ' (List.mem_of_getLast? hSpace)) (by decide)

theorem onOneLine_declaration (hSymbol : symbol ∈ (declaration source earlier node).symbols) :
    OnOneLine symbol := by
  have hDoc : ∀ line ∈ precedingDoc source earlier node, IsDocLine line := isDocLine_precedingDoc
  unfold declaration at hSymbol
  split at hSymbol
  · cases hSymbol
  · exact onOneLine_named? (Option.mem_toList.mp hSymbol)
  · exact onOneLine_named? (Option.mem_toList.mp hSymbol)
  · obtain ⟨⟨before, spec⟩, _, hType⟩ := List.mem_filterMap.mp hSymbol
    exact onOneLine_type? hDoc hType
  · obtain ⟨⟨before, spec⟩, _, hConstant⟩ := List.mem_flatMap.mp hSymbol
    exact onOneLine_constants (by simp [isBlank]) hDoc hConstant
  · obtain ⟨⟨before, spec⟩, _, hVariable⟩ := List.mem_flatMap.mp hSymbol
    exact onOneLine_constants (by simp [isBlank]) hDoc hVariable
  · cases hSymbol

end Go

end Declarations

/-- Every declaration of a Rust or Go source is on one line, whatever the
syntax tree is. -/
theorem rust_and_go_on_one_line (source : List Char) (root : Node) :
    (∀ symbol ∈ (Rust.outline source root).symbols, OnOneLine symbol) ∧
      ∀ symbol ∈ (Go.outline source root).symbols, OnOneLine symbol := by
  constructor
  · exact @onOneLine_concat (Rust.item source) (fun _ _ _ hSymbol => Rust.onOneLine_item hSymbol) root
  · exact @onOneLine_concat (Go.declaration source)
      (fun _ _ _ hSymbol => Go.onOneLine_declaration hSymbol) root

end SymbolMap.Outline
