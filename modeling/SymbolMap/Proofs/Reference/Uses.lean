import SymbolMap.Index
import SymbolMap.Proofs.Outline.LineBreaks
import SymbolMap.Proofs.Scan.Isolation
import SymbolMap.Proofs.SyntaxTree.Preorder

/-! Which uses of a name are found. In one source these are the nodes that are
the name, each once and in preorder. Below a directory they are those of the
files that a scan finds, one file after the other. -/
namespace SymbolMap

open SymbolMap.Text
open SymbolMap.Outline (ruleNode)

namespace Reference

/-- A node is a use of a name: its kind is one of names, and its text is the
name. -/
def IsUse (language : Language) (source name : List Char) (node : Node) : Prop :=
  node.kind ∈ language.identifierKinds ∧ node.text source = name

instance (language : Language) (source name : List Char) :
    DecidablePred (IsUse language source name) :=
  fun _ => inferInstanceAs (Decidable (_ ∧ _))

/-- The uses of a name in a tree, in preorder. -/
def usesIn (language : Language) (source name : List Char) (root : Node) : List Node :=
  (root.places.filterMap root.at?).filter (IsUse language source name ·)

/-- What is said about a use in a file. -/
def ofUse (file : String) (source : List Char) (node : Node) : Reference :=
  { file
    line := (node.startPosition source).line + 1
    column := (node.startPosition source).column + 1
    context := (((splitAt '\n' source)[(node.startPosition source).line]?).map contextOf).getD "" }

theorem ofNode?_eq (language : Language) (source name : List Char) (node : Node) :
    ofNode? language source name node =
      if IsUse language source name node then some (ofUse "" source node) else none := by
  have hUse : (language.identifierKinds.contains node.kind && node.text source == name) = true ↔
      IsUse language source name node := by
    rw [Bool.and_eq_true, List.contains_iff_mem, beq_iff_eq]
    rfl
  rw [ofNode?]
  by_cases h : IsUse language source name node
  · rw [if_pos (hUse.mpr h), if_pos h]
    rfl
  · rw [if_neg fun hFound => h (hUse.mp hFound), if_neg h]

theorem filterMap_places (root : Node) : root.places.filterMap root.at? = visit [[root]] := by
  have hSome := congrArg (List.filterMap id) (map_some_visit root)
  rw [List.filterMap_map, List.filterMap_map] at hSome
  simpa [Function.comp_def] using hSome.symm

/-- A source has one entry for each use in its tree. -/
theorem inSource_eq (language : Language) (source name : List Char) (root : Node) :
    inSource language source name root =
      (usesIn language source name root).map (ofUse "" source) := by
  rw [inSource, usesIn, filterMap_places]
  induction visit [[root]] with
  | nil => rfl
  | cons node nodes ih =>
      rw [List.filterMap_cons, ih, ofNode?_eq, List.filter_cons]
      by_cases hUse : IsUse language source name node <;> simp [hUse]

theorem mem_inSource_iff (language : Language) (source name : List Char) (root : Node)
    (ref : Reference) :
    ref ∈ inSource language source name root ↔
      ∃ node ∈ visit [[root]], IsUse language source name node ∧ ofUse "" source node = ref := by
  simp only [inSource_eq, usesIn, filterMap_places, List.mem_map, List.mem_filter,
    decide_eq_true_eq, and_assoc]

end Reference

theorem Index.referencesIn_eq (name : List Char) (file : SourceFile) :
    Index.referencesIn name file = file.doc?.toList.flatMap fun doc =>
      (Reference.usesIn file.language doc.text name doc.tree).map
        (Reference.ofUse file.path doc.text) := by
  rw [Index.referencesIn]
  cases file.doc? with
  | none => rfl
  | some doc =>
      simp only [Option.toList_some, List.flatMap_singleton, Reference.inSource_eq, List.map_map]
      rfl

/-- A cursor goes through the places of any tree in preorder, one in each
round, and leaves it after the last; at each place it is on the node there. A
visit meets the same nodes. So a source has one entry for each use of a name in
its tree, in preorder, and what is found below a directory are the entries of
the scanned files, in the order of the scan and under their paths. -/
theorem references_one_per_use_in_preorder :
    (∀ root : Node, InPreorder root root.places ∧
      (∀ rounds, (Cursor.run rounds (.root root)).map Cursor.place = root.places[rounds]?) ∧
      (∀ rounds cursor, Cursor.run rounds (.root root) = some cursor →
        root.at? cursor.place = some cursor.node) ∧
      (visit [[root]]).map some = root.places.map root.at? ∧
      ∀ language source name, Reference.inSource language source name root =
        (Reference.usesIn language source name root).map (Reference.ofUse "" source)) ∧
    ∀ (disk : Disk) (dir name : String) (settings : ScanSettings), name ≠ "" →
      Index.references disk dir name settings =
        (Scan.files disk dir settings).map fun files => files.flatMap fun file =>
          file.doc?.toList.flatMap fun doc =>
            (Reference.usesIn file.language doc.text name.toList doc.tree).map
              (Reference.ofUse file.path doc.text) := by
  constructor
  · intro root
    exact ⟨root.inPreorder_places, fun rounds => Cursor.map_place_run rounds root,
      fun _ _ hRun => Cursor.at?_place_of_run hRun, map_some_visit root,
      fun language source name => Reference.inSource_eq language source name root⟩
  · intro disk dir name settings hName
    have hSome : ¬name.isEmpty = true := by simpa using hName
    rw [Index.references, if_neg hSome]
    congr 1
    funext files
    congr 1
    funext file
    exact Index.referencesIn_eq name.toList file

/-- A file that calls a function. -/
def callingFile : Document :=
  { bytes := encode "run()\n".toList
    tree := ruleNode "module" none 0 6 [
      ruleNode "expression_statement" none 0 5 [
        ruleNode "call" none 0 5 [
          ruleNode "identifier" (some "function") 0 3 [],
          ruleNode "argument_list" (some "arguments") 3 5 []]]] }

/-- The file of the function. -/
def calledFile : Document :=
  { bytes := encode "def run():\n    pass\n".toList
    tree := ruleNode "module" none 0 20 [
      ruleNode "function_definition" none 0 19 [
        ruleNode "identifier" (some "name") 4 7 [],
        ruleNode "parameters" (some "parameters") 7 9 [],
        ruleNode "block" (some "body") 15 19 [
          ruleNode "pass_statement" none 15 19 []]]] }

/-- The calling file, and beside it a directory with the other one. -/
def twoFiles : Disk :=
  { root := .file "a.py" callingFile (.dir "pkg" (.file "b.py" calledFile .nil) .nil) }

theorem files_twoFiles :
    Scan.files twoFiles "." {} = .ok [
      { path := "a.py", doc? := some callingFile, language := .python },
      { path := "pkg/b.py", doc? := some calledFile, language := .python }] := by
  rw [twoFiles, Scan.files_eq (Scan.readDir_dot _)]
  rfl

theorem references_one_per_use_twoFiles :
    "run" ≠ "" ∧ Index.references twoFiles "." "run" {} = .ok [
      { file := "a.py", line := 1, column := 1, context := "run()" },
      { file := "pkg/b.py", line := 1, column := 5, context := "def run():" }] := by
  have hName : "run" ≠ "" := by decide
  refine ⟨hName, ?_⟩
  rw [references_one_per_use_in_preorder.2 twoFiles "." "run" {} hName, files_twoFiles]
  exact congrArg Except.ok (by decide +kernel)

end SymbolMap
