import SymbolMap.Proofs.Disk.Routes
import SymbolMap.Proofs.Outline.Ranges
import SymbolMap.Proofs.Reference.Uses

/-! Looking up a declaration in a file and recording the file in an index are
two ways through one source. The declaration that is found is the first one
recorded under its name, and what is shown of it are the rows that it covers,
under the numbers that these rows have in the source. -/
namespace SymbolMap

open SymbolMap.Path SymbolMap.Text
open SymbolMap.Outline (ruleNode)

/-- The source file that one path leads to, under the other path. -/
def SourceFile.atPath (disk : Disk) (path shown : String) : SourceFile :=
  { path := shown
    doc? := disk.file? path
    language := Language.ofPath path }

section Recorded

variable {disk : Disk} {root : String} {listing : Listing} {settings : ScanSettings}

/-- A scanned file is the one that its path leads to from the directory of the
scan. -/
theorem Scan.eq_atPath_of_mem_files (hRoot : disk.readDir root = .ok listing)
    (hOrdered : listing.Ordered)
    (hShort : listing.EveryName fun name => octetLength name.toList ≤ Disk.nameLimit)
    {files : List SourceFile} (hFiles : Scan.files disk root settings = .ok files)
    {file : SourceFile} (hFile : file ∈ files) :
    file = .atPath disk (child root file.path) file.path := by
  have hTop : ∀ rules (dir : List String), dir ≠ [] → dir <+: [] →
      Scan.enters rules settings.skipDirs root dir = true :=
    fun _ dir hNe hPrefix => absurd (List.prefix_nil.mp hPrefix) hNe
  rw [Scan.files_eq hRoot, Except.ok.injEq] at hFiles
  subst hFiles
  by_cases hDash : Scan.isDash root = true
  · rw [if_pos hDash] at hFile
    cases hFile
  rw [if_neg hDash, ← ofNames_nil, Scan.filesIn_eq_filter hOrdered (by simp) (hTop _)] at hFile
  obtain ⟨⟨names, doc⟩, hPlace, rfl⟩ := List.mem_map.mp hFile
  have hPlace := (List.mem_filter.mp hPlace).1
  have hNames : ∀ name ∈ names, IsEntryName name :=
    Listing.isEntryName_of_mem_places hOrdered (by simp) hPlace
  have hLengths : ∀ name ∈ names, octetLength name.toList ≤ Disk.nameLimit :=
    hShort.of_mem_places (by simp) hPlace
  obtain ⟨inner, hInner, hItem⟩ := (Listing.mem_places_iff hOrdered [] names doc).mp hPlace
  rw [List.nil_append] at hInner
  subst hInner
  have hNe : names ≠ [] := by
    rintro rfl
    cases hItem
  have hSteps : ∀ name ∈ names, IsStep name := fun name hName => (hNames name hName).isStep
  show Scan.sourceAt root (names, doc) =
    .atPath disk (child root (ofNames names)) (ofNames names)
  rw [SourceFile.atPath, Disk.file?_child hRoot hItem hNames hLengths,
    Language.ofPath_child root hNe hSteps]
  rfl

/-- What an index has about a file is the outline of the file that its path
leads to. -/
theorem Index.eq_outlineOf_of_mem_outlines (hRoot : disk.readDir root = .ok listing)
    (hOrdered : listing.Ordered)
    (hShort : listing.EveryName fun name => octetLength name.toList ≤ Disk.nameLimit)
    {entries : List FileOutline} (hEntries : Index.outlines disk root settings = .ok entries)
    {entry : FileOutline} (hEntry : entry ∈ entries) :
    entry = Index.outlineOf settings.maxFileSize
      (.atPath disk (child root entry.path) entry.path) := by
  rw [Index.outlines, Scan.files_eq hRoot, Except.map, Except.ok.injEq] at hEntries
  subst hEntries
  obtain ⟨file, hFile, rfl⟩ := List.mem_map.mp hEntry
  have hSame := Scan.eq_atPath_of_mem_files hRoot hOrdered hShort (Scan.files_eq hRoot _) hFile
  exact congrArg (Index.outlineOf settings.maxFileSize) hSame

variable {path shown : String} {doc : Document} {limit : Nat} {outline : Outline}

/-- What is recorded about a file within the size limit is its outline. -/
theorem Index.outlineOf_atPath (hDoc : disk.file? path = some doc) (hSize : doc.size ≤ limit)
    (hOutline : Outline.ofSource? (Language.ofPath path) doc.text doc.tree = some outline) :
    (Index.outlineOf limit (.atPath disk path shown)).outline = outline := by
  have hWithin : ¬limit < (SourceFile.atPath disk path shown).size := by
    rw [SourceFile.size, SourceFile.atPath, hDoc]
    show ¬limit < doc.size
    omega
  rw [Index.outlineOf, if_neg hWithin, SourceFile.atPath, hDoc]
  show (Outline.ofSource? (Language.ofPath path) doc.text doc.tree).getD {} = outline
  rw [hOutline, Option.getD_some]

/-- A name is looked up among the declarations of the outline. -/
theorem Index.definition_eq {name : String} (hDoc : disk.file? path = some doc)
    (hOutline : Outline.ofSource? (Language.ofPath path) doc.text doc.tree = some outline)
    (hName : name ≠ "") :
    Index.definition disk path name =
      match outline.symbols.find? (·.name == name) with
      | none => .error (.symbolNotFound name path)
      | some symbol => .ok {
          file := path
          symbol
          lines := Definition.sourceLines doc.text symbol.range.start.line
            symbol.range.stop.line } := by
  have hSome : ¬name.isEmpty = true := by simpa using hName
  rw [Index.definition, if_neg hSome, hDoc]
  show Definition.inSource path (Language.ofPath path) doc.text doc.tree name = _
  rw [Definition.inSource, hOutline]
  cases hFound : outline.symbols.find? (·.name == name) with
  | none => simp [Definition.find?, hFound]
  | some symbol => simp [Definition.find?, hFound]

end Recorded

namespace Outline

/-- A source of a known language has an outline. -/
theorem exists_ofSource? {language : Language} (hKnown : language.isKnown = true)
    (source : List Char) (root : Node) :
    ∃ outline, ofSource? language source root = some outline := by
  cases language with
  | unknown => cases hKnown
  | _ => exact ⟨_, rfl⟩

/-- Every declaration of an outline covers rows of the source. -/
theorem rows_of_mem {language : Language} {source : List Char} {root : Node} {outline : Outline}
    (hOutline : ofSource? language source root = some outline)
    (hTree : ∀ node ∈ visit [[root]], node.start ≤ node.stop)
    {symbol : Symbol} (hSymbol : symbol ∈ outline.symbols) :
    symbol.range.start.line ≤ symbol.range.stop.line ∧
      symbol.range.stop.line < (splitAt '\n' source).length := by
  obtain ⟨owner, hOwner, hRange⟩ := (listed_ofSource? hOutline).exists_owner hSymbol
  have hOwned : owner ∈ visit [[root]] := (mem_visit_root_iff _ _).mpr (Or.inr hOwner)
  rw [hRange]
  exact ⟨line_positionAt_le source (hTree owner hOwned), line_positionAt_lt source owner.stop⟩

end Outline

namespace Definition

variable {definition : Definition} {source : List Char}

section Rows

/-- A line is a row of a source without the carriage returns at its end. -/
def IsLineOf (line : String) (row : List Char) : Prop :=
  (∃ returns, row = line.toList ++ List.replicate returns '\r') ∧
    line.toList.getLast? ≠ some '\r'

theorem isLineOf_dropEndWhile (row : List Char) :
    IsLineOf (String.ofList (dropEndWhile (· == '\r') row)) row := by
  obtain ⟨dropped, hText, hReturns⟩ := exists_append_dropEndWhile (· == '\r') row
  rw [IsLineOf, String.toList_ofList]
  constructor
  · have hAll : dropped = List.replicate dropped.length '\r' :=
      List.eq_replicate_of_mem fun c hChar => by simpa using hReturns c hChar
    exact ⟨dropped.length, by rw [← hAll, ← hText]⟩
  · intro hLast
    have hKept := not_of_mem_getLast?_dropEndWhile hLast
    simp at hKept

/-- The lines of a definition are the rows of a source from the first to the
last that its declaration covers, all of which there are. -/
structure Shows (definition : Definition) (source : List Char) : Prop where
  ordered : definition.symbol.range.start.line ≤ definition.symbol.range.stop.line
  rows : ∃ above covered below, splitAt '\n' source = above ++ covered ++ below ∧
    above.length = definition.symbol.range.start.line ∧
    (above ++ covered).length = definition.symbol.range.stop.line + 1 ∧
    List.Forall₂ IsLineOf definition.lines covered

theorem Shows.length_lines (hShows : definition.Shows source) :
    definition.lines.length = definition.symbol.endLine + 1 - definition.symbol.startLine := by
  obtain ⟨above, covered, below, _, hAbove, hLength, hLines⟩ := hShows.rows
  rw [hLines.length_eq, Symbol.endLine, Symbol.startLine]
  rw [List.length_append] at hLength
  omega

/-- Rows that there are need not be clipped. -/
theorem shows_sourceLines (file : String) {symbol : Symbol}
    (hOrdered : symbol.range.start.line ≤ symbol.range.stop.line)
    (hInside : symbol.range.stop.line < (splitAt '\n' source).length) :
    Shows
      { file
        symbol
        lines := sourceLines source symbol.range.start.line symbol.range.stop.line } source := by
  have hStop : min symbol.range.stop.line ((splitAt '\n' source).length - 1) =
      symbol.range.stop.line := by omega
  have hStart : min symbol.range.start.line symbol.range.stop.line =
      symbol.range.start.line := by omega
  have hCut : (splitAt '\n' source).take symbol.range.start.line ++
      ((splitAt '\n' source).drop symbol.range.start.line).take
        (symbol.range.stop.line + 1 - symbol.range.start.line) =
      (splitAt '\n' source).take (symbol.range.stop.line + 1) := by
    rw [← List.take_add]
    congr 1
    omega
  refine ⟨hOrdered, (splitAt '\n' source).take symbol.range.start.line,
    ((splitAt '\n' source).drop symbol.range.start.line).take
      (symbol.range.stop.line + 1 - symbol.range.start.line),
    (splitAt '\n' source).drop (symbol.range.stop.line + 1), ?_, ?_, ?_, ?_⟩
  · rw [hCut, List.take_append_drop]
  · exact List.length_take_of_le (by omega)
  · rw [hCut]
    exact List.length_take_of_le (by omega)
  · simp only [sourceLines, hStop, hStart]
    rw [List.forall₂_map_left_iff, List.forall₂_same]
    intro row _
    exact isLineOf_dropEndWhile row

end Rows

section Numbers

/-- A line of source behind its number. -/
def numbered (number : Nat) (line : String) : String :=
  padNumber number ++ " | " ++ line ++ "\n"

theorem renderLines_eq (number : Nat) (lines : List String) :
    renderLines number lines =
      String.join (List.zipWith numbered (List.range' number lines.length) lines) := by
  induction lines generalizing number with
  | nil => rfl
  | cons line lines ih =>
      rw [renderLines, ih, List.length_cons, List.range'_succ, List.zipWith_cons_cons,
        String.join_cons]
      rfl

/-- A definition that shows all rows of its declaration is rendered with the
numbers from the first line to the last one in front of them, which are those
in the header. -/
theorem Shows.render_eq (hShows : definition.Shows source) :
    definition.render =
      "# " ++ definition.symbol.signature ++ " in " ++ definition.file ++ " [" ++
        toString definition.symbol.startLine ++ "-" ++ toString definition.symbol.endLine ++
        "]\n\n" ++ (definition.symbol.doc.elim "" fun doc => "// " ++ doc ++ "\n\n") ++
        "\x60\x60\x60\n" ++
        String.join (List.zipWith numbered (List.range' definition.symbol.startLine
          (definition.symbol.endLine + 1 - definition.symbol.startLine)) definition.lines) ++
        "\x60\x60\x60\n" := by
  -- unfolded in place, since an equation for the whole text is slow to prove
  delta render
  dsimp only
  rw [renderLines_eq, hShows.length_lines]
  cases definition.symbol.doc <;> rfl

end Numbers

end Definition

section Lookup

/-- An index has about every file what lies at the path of the file. Of any
file of a known language and within the size limit, over whatever text and tree
whose nodes do not end before they begin: if a declaration is recorded under a
name, looking up the name in the file gives the first one so recorded. The
lines are the rows of the source that it covers, all of which there are, without
the carriage returns at their ends; they are rendered with the numbers from the
first line to the last, which the header has as well. If no declaration is
recorded under the name, it is not found. -/
theorem definition_is_first_recorded :
    (∀ (disk : Disk) (root : String) (listing : Listing) (settings : ScanSettings)
        (entries : List FileOutline),
      disk.readDir root = .ok listing → listing.Ordered →
      (listing.EveryName fun name => octetLength name.toList ≤ Disk.nameLimit) →
      Index.outlines disk root settings = .ok entries →
      ∀ entry ∈ entries, entry = Index.outlineOf settings.maxFileSize
        (.atPath disk (child root entry.path) entry.path)) ∧
    ∀ (disk : Disk) (path shown name : String) (doc : Document) (limit : Nat),
      disk.file? path = some doc → (Language.ofPath path).isKnown = true → doc.size ≤ limit →
      (∀ node ∈ visit [[doc.tree]], node.start ≤ node.stop) → name ≠ "" →
      (∀ symbol ∈ (Index.outlineOf limit (.atPath disk path shown)).outline.symbols,
        symbol.name = name → ∃ before first after definition,
          (Index.outlineOf limit (.atPath disk path shown)).outline.symbols =
            before ++ first :: after ∧
          first.name = name ∧ (∀ earlier ∈ before, earlier.name ≠ name) ∧
          Index.definition disk path name = .ok definition ∧ definition.file = path ∧
          definition.symbol = first ∧ definition.Shows doc.text ∧
          definition.lines.length = first.endLine + 1 - first.startLine ∧
          definition.render =
            "# " ++ first.signature ++ " in " ++ path ++ " [" ++ toString first.startLine ++ "-" ++
              toString first.endLine ++ "]\n\n" ++
              (first.doc.elim "" fun doc => "// " ++ doc ++ "\n\n") ++ "\x60\x60\x60\n" ++
              String.join (List.zipWith Definition.numbered
                (List.range' first.startLine (first.endLine + 1 - first.startLine))
                definition.lines) ++ "\x60\x60\x60\n") ∧
      ((∀ symbol ∈ (Index.outlineOf limit (.atPath disk path shown)).outline.symbols,
        symbol.name ≠ name) →
        Index.definition disk path name = .error (.symbolNotFound name path)) := by
  constructor
  · intro disk root listing settings entries hRoot hOrdered hShort hEntries entry hEntry
    exact Index.eq_outlineOf_of_mem_outlines hRoot hOrdered hShort hEntries hEntry
  · intro disk path shown name doc limit hDoc hKnown hSize hTree hName
    obtain ⟨outline, hOutline⟩ := Outline.exists_ofSource? hKnown doc.text doc.tree
    rw [Index.outlineOf_atPath hDoc hSize hOutline, Index.definition_eq hDoc hOutline hName]
    constructor
    · intro symbol hSymbol hSame
      cases hFound : outline.symbols.find? (·.name == name) with
      | none =>
          have hNone := List.find?_eq_none.mp hFound symbol hSymbol
          simp [hSame] at hNone
      | some first =>
          obtain ⟨hFirst, before, after, hSplit, hBefore⟩ :=
            List.find?_eq_some_iff_append.mp hFound
          obtain ⟨hOrdered, hInside⟩ :=
            Outline.rows_of_mem hOutline hTree (List.mem_of_find?_eq_some hFound)
          have hShows := Definition.shows_sourceLines path hOrdered hInside
          refine ⟨before, first, after, _, hSplit, by simpa using hFirst, ?_, rfl, rfl, rfl, hShows,
            hShows.length_lines, hShows.render_eq⟩
          intro earlier hEarlier
          simpa using hBefore earlier hEarlier
    · intro hNone
      have hFound : outline.symbols.find? (·.name == name) = none :=
        List.find?_eq_none.mpr fun symbol hSymbol => by simpa using hNone symbol hSymbol
      rw [hFound]

/-- A file with two functions of one name. There are carriage returns at the ends
of the first two rows, and no line feed behind the last. -/
def repeatedName : Document :=
  { bytes := encode "def run():\r\n    pass\r\ndef run(): 0".toList
    tree := ruleNode "module" none 0 34 [
      ruleNode "function_definition" none 0 20 [
        ruleNode "identifier" (some "name") 4 7 [],
        ruleNode "parameters" (some "parameters") 7 9 [],
        ruleNode "block" (some "body") 16 20 [
          ruleNode "pass_statement" none 16 20 []]],
      ruleNode "function_definition" none 22 34 [
        ruleNode "identifier" (some "name") 26 29 [],
        ruleNode "parameters" (some "parameters") 29 31 [],
        ruleNode "block" (some "body") 33 34 [
          ruleNode "expression_statement" none 33 34 [
            ruleNode "integer" none 33 34 []]]]] }

theorem symbols_repeatedName :
    (Outline.Python.outline repeatedName.text repeatedName.tree).symbols = [
      { name := "run", kind := .function, range := ⟨⟨0, 0⟩, ⟨1, 8⟩⟩, signature := "def run()"
        doc := none },
      { name := "run", kind := .function, range := ⟨⟨2, 0⟩, ⟨2, 12⟩⟩, signature := "def run()"
        doc := none }] := by
  decide +kernel

/-- The file in a directory. -/
def repeatedNameTree : Listing := .dir "pkg" (.file "b.py" repeatedName .nil) .nil

theorem outlines_repeatedName :
    Index.outlines { root := repeatedNameTree } "." {} =
      .ok [Index.outlineOf ({} : ScanSettings).maxFileSize
        { path := "pkg/b.py", doc? := some repeatedName, language := .python }] := by
  rw [Index.outlines, Scan.files_eq (Scan.readDir_dot _)]
  rfl

theorem definition_is_first_recorded_repeatedName :
    repeatedNameTree.Ordered ∧
      (repeatedNameTree.EveryName fun name => octetLength name.toList ≤ Disk.nameLimit) ∧
      (∃ entry, Index.outlines { root := repeatedNameTree } "." {} = .ok [entry] ∧
        entry = Index.outlineOf ({} : ScanSettings).maxFileSize
          (.atPath { root := repeatedNameTree } "./pkg/b.py" "pkg/b.py")) ∧
      (∀ node ∈ visit [[repeatedName.tree]], node.start ≤ node.stop) ∧
      (∃ definition, Index.definition { root := repeatedNameTree } "./pkg/b.py" "run" =
          .ok definition ∧
        definition.symbol.range = ⟨⟨0, 0⟩, ⟨1, 8⟩⟩ ∧ definition.Shows repeatedName.text) ∧
      Index.definition { root := repeatedNameTree } "./pkg/b.py" "walk" =
        .error (.symbolNotFound "walk" "./pkg/b.py") := by
  have hOrdered : repeatedNameTree.Ordered := by decide
  have hShort : repeatedNameTree.EveryName fun name => octetLength name.toList ≤ Disk.nameLimit :=
    ⟨by decide, ⟨by decide, trivial⟩, trivial⟩
  have hTree : ∀ node ∈ visit [[repeatedName.tree]], node.start ≤ node.stop := by decide +kernel
  have hDoc : ({ root := repeatedNameTree } : Disk).file? "./pkg/b.py" = some repeatedName := by
    cbv
  have hLanguage : Language.ofPath "./pkg/b.py" = .python := by decide +kernel
  have hSize : repeatedName.size ≤ ({} : ScanSettings).maxFileSize := by decide +kernel
  have hOutline : Outline.ofSource? (Language.ofPath "./pkg/b.py") repeatedName.text
      repeatedName.tree = some (Outline.Python.outline repeatedName.text repeatedName.tree) := by
    rw [hLanguage]
    rfl
  have hLookup := fun name => definition_is_first_recorded.2 { root := repeatedNameTree }
    "./pkg/b.py" "pkg/b.py" name repeatedName _ hDoc (by rw [hLanguage]; rfl) hSize hTree
  rw [Index.outlineOf_atPath hDoc hSize hOutline, symbols_repeatedName] at hLookup
  refine ⟨hOrdered, hShort, ⟨_, outlines_repeatedName, ?_⟩, hTree, ?_, ?_⟩
  · exact definition_is_first_recorded.1 _ "." _ {} _ (Scan.readDir_dot _) hOrdered hShort
      outlines_repeatedName _ (List.mem_singleton_self _)
  · obtain ⟨before, first, after, definition, hSplit, _, hBefore, hFound, _, hFirst, hShows, _⟩ :=
      (hLookup "run" (by decide)).1 _ List.mem_cons_self rfl
    refine ⟨definition, hFound, ?_, hShows⟩
    cases before with
    | nil => rw [hFirst, ← (List.cons.inj hSplit).1]
    | cons earlier before =>
        have hEarlier := hBefore earlier List.mem_cons_self
        rw [← (List.cons.inj hSplit).1] at hEarlier
        exact absurd rfl hEarlier
  · exact (hLookup "walk" (by decide)).2 (by decide)

end Lookup

end SymbolMap
