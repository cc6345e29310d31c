import Mathlib
import SymbolMap.Proofs.Disk.Walks
import SymbolMap.Proofs.Ignore.Verdict
import SymbolMap.Proofs.Scan.Extension
import SymbolMap.Scan

/-! Which files a walk finds. The walk decides on whole directories and never
looks into one that it leaves out. It finds what a test of each file alone
would find, since a file below an ignored directory is itself ignored. -/
namespace SymbolMap

open SymbolMap.Path SymbolMap.Text

namespace Scan

variable {rules : Ignore.RuleSet} {skipDirs : List String} {root : String}

/-- Whether a walk enters the directory that some names lead to, once it is
in the one above. -/
def enters (rules : Ignore.RuleSet) (skipDirs : List String) (root : String)
    (dir : List String) : Bool :=
  !(isSkippedName skipDirs (dir.getLastD "") || rules.ignores (ofNames dir).toList true ||
    !isOpenable root (ofNames dir))

/-- Whether a file is a source that rules leave, looking at its path alone. -/
def isWanted (rules : Ignore.RuleSet) (path : String) : Bool :=
  (Language.ofPath path).isKnown && !rules.ignores path.toList false

/-- The source file at a place. -/
def sourceAt (root : String) (place : List String × Document) : SourceFile :=
  { path := ofNames place.1
    doc? := if isOpenable root (ofNames place.1) then some place.2 else none
    language := Language.ofPath (ofNames place.1) }

section Walk

theorem enters_concat (rules : Ignore.RuleSet) (skipDirs : List String) (root : String)
    (here : List String) (name : String) :
    enters rules skipDirs root (here ++ [name]) =
      !(isSkippedName skipDirs name || rules.ignores (ofNames (here ++ [name])).toList true ||
        !isOpenable root (ofNames (here ++ [name]))) := by
  rw [enters, List.getLastD_concat]

/-- The walk for source files, told by the names of the directories that it
enters. -/
theorem filesIn_eq_collect {listing : Listing} (hOrdered : listing.Ordered) {here : List String}
    (hHere : ∀ name ∈ here, IsEntryName name) :
    filesIn rules skipDirs root (ofNames here) listing =
      listing.collect (enters rules skipDirs root)
        (fun place => if isWanted rules (ofNames place.1) then [sourceAt root place] else [])
        here := by
  induction listing generalizing here with
  | nil => rfl
  | file name doc rest ih =>
      obtain ⟨hName, _, hRest⟩ := hOrdered
      have hSteps : ∀ step ∈ here ++ [name], IsStep step :=
        fun step hStep => (Listing.isEntryName_concat hHere hName step hStep).isStep
      have hPath : join (ofNames here) name = ofNames (here ++ [name]) :=
        join_ofNames (fun step hStep => (hHere step hStep).isStep) name
      rw [filesIn, Listing.collect, ih hRest hHere]
      simp only [hPath, ← Language.ofPath_ofNames hSteps]
      rfl
  | dir name below rest ihBelow ihRest =>
      obtain ⟨hName, _, hBelow, hRest⟩ := hOrdered
      have hPath : join (ofNames here) name = ofNames (here ++ [name]) :=
        join_ofNames (fun step hStep => (hHere step hStep).isStep) name
      have hEnters := enters_concat rules skipDirs root here name
      rw [filesIn, Listing.collect, ihRest hRest hHere]
      simp only [hPath]
      rw [ihBelow hBelow (Listing.isEntryName_concat hHere hName), hEnters, ← ite_not]
      simp
  | link name target rest ih =>
      exact ih hOrdered.2.2 hHere

/-- The walk of a directory finds the wanted files to which it gets through
directories that it enters. -/
theorem filesIn_eq_filter {listing : Listing} (hOrdered : listing.Ordered) {here : List String}
    (hHere : ∀ name ∈ here, IsEntryName name)
    (hEntered : ∀ dir, dir ≠ [] → dir <+: here → enters rules skipDirs root dir = true) :
    filesIn rules skipDirs root (ofNames here) listing =
      ((listing.places here).filter fun place => isWanted rules (ofNames place.1) &&
        (properInits place.1).all (enters rules skipDirs root)).map (sourceAt root) := by
  rw [filesIn_eq_collect hOrdered hHere, Listing.collect_eq_flatMap hEntered, ← List.filter_filter]
  induction (listing.places here).filter fun place =>
      (properInits place.1).all (enters rules skipDirs root) with
  | nil => rfl
  | cons place places ih =>
      rw [List.flatMap_cons, ih, List.filter_cons]
      split <;> rfl

end Walk

section Flat

/-- The text of a directory that is not hidden does not begin with a dot. -/
theorem not_dot_of_not_hidden {first : String} (hFirst : first ≠ "")
    (hShown : isHiddenName first = false) (rest : List String) :
    ¬['.', '/'] <+: slashed (ofNames (first :: rest)).toList ++ ['/'] := by
  obtain ⟨c, cs, hChars⟩ := List.exists_cons_of_ne_nil
    (fun h => hFirst (String.toList_eq_nil_iff.mp h) : first.toList ≠ [])
  have hText : ∃ more, (ofNames (first :: rest)).toList = c :: more := by
    cases rest with
    | nil => exact ⟨cs, by simp [ofNames, ofSegments, joinWith, hChars]⟩
    | cons next rest =>
        exact ⟨cs ++ '/' :: ofSegments ((next :: rest).map String.toList),
          by simp [ofNames, ofSegments, joinWith, hChars]⟩
  obtain ⟨more, hMore⟩ := hText
  have hChar : c ≠ '.' := by
    simpa [isHiddenName, hChars] using hShown
  rw [hMore, slashed, List.map_cons, List.cons_append, List.cons_prefix_cons]
  rintro ⟨hSame, _⟩
  split at hSame
  · exact absurd hSame (by decide)
  · exact hChar hSame.symm

/-- A file that is left by the rules lies in no ignored directory. -/
theorem not_ignores_above {names : List String} (hNames : ∀ name ∈ names, IsEntryName name)
    (hShown : ∀ name ∈ names.dropLast, isHiddenName name = false)
    (hWanted : isWanted rules (ofNames names) = true) {dir : List String}
    (hDir : dir ∈ properInits names) : rules.ignores (ofNames dir).toList true = false := by
  obtain ⟨hNe, ⟨rest, rfl⟩, hNot⟩ := (mem_properInits_iff _ _).mp hDir
  have hRest : rest ≠ [] := by simpa using hNot
  obtain ⟨hKnown, hLeft⟩ := Bool.and_eq_true_iff.mp hWanted
  obtain ⟨first, others, rfl⟩ := List.exists_cons_of_ne_nil hNe
  have hFirst : isHiddenName first = false := by
    refine hShown first ?_
    rw [List.dropLast_append_of_ne_nil hRest]
    simp
  -- the last name decides how the path ends
  obtain ⟨front, last, rfl⟩ := (List.eq_nil_or_concat' rest).resolve_left hRest
  have hLastName : IsStep last := (hNames last (by simp)).isStep
  rw [← List.append_assoc, Language.ofPath_ofNames fun step hStep =>
    (hNames step (by simpa using hStep)).isStep] at hKnown
  obtain ⟨c, hLast, hSlash, hBackslash⟩ := Language.getLast?_of_isKnown hLastName hKnown
  have hEnd : (ofNames (front ++ [last])).toList.getLast? = some c := by
    have hNonempty : last.toList ≠ [] := fun h => hLastName.1 (String.toList_eq_nil_iff.mp h)
    rw [ofNames, String.toList_ofList, ofSegments, getLast?_joinWith (by simp) hNonempty, hLast]
  by_contra hIgnored
  rw [Bool.not_eq_false] at hIgnored
  have hBelow := Ignore.RuleSet.ignores_below hIgnored
    (not_dot_of_not_hidden (hNames first (by simp)).1 hFirst others)
    (getLast?_slashed hEnd hBackslash) hSlash false
  rw [← ofNames_append hNe hRest] at hBelow
  rw [hBelow] at hLeft
  cases hLeft

/-- The names before the last are the last names of the directories above. -/
theorem mem_dropLast_iff (names : List String) (name : String) :
    name ∈ names.dropLast ↔ ∃ above, above ++ [name] ∈ properInits names := by
  simp only [mem_properInits_iff]
  constructor
  · intro hMem
    obtain ⟨above, below, hSplit⟩ := List.append_of_mem hMem
    have hPrefix : above ++ [name] <+: names.dropLast := ⟨below, by simp [hSplit]⟩
    refine ⟨above, by simp, hPrefix.trans (List.dropLast_prefix names), ?_⟩
    rintro rfl
    have hLonger := hPrefix.length_le
    simp at hLonger
  · rintro ⟨above, _, ⟨below, rfl⟩, hNot⟩
    have hBelow : below ≠ [] := by simpa using hNot
    rw [List.dropLast_append_of_ne_nil hBelow]
    simp

/-- A walker lists every directory of a tree: the root is none that it reads
in another way, and no path is too long to be opened. -/
structure Walkable (root : String) (listing : Listing) : Prop where
  notDash : isDash root = false
  opens : ∀ dir below, dir ≠ [] → listing.at? dir = some (.dir below) →
    isOpenable root (ofNames dir) = true

/-- For a file that is wanted, the walk gets to it exactly if no directory
above it is left out for its name. -/
theorem all_enters_iff {listing : Listing} (hOrdered : listing.Ordered)
    (hWalk : Walkable root listing) {names : List String} {doc : Document}
    (hFile : listing.at? names = some (.file doc))
    (hWanted : isWanted rules (ofNames names) = true) :
    (properInits names).all (enters rules skipDirs root) = true ↔
      ∀ name ∈ names.dropLast, isHiddenName name = false ∧ name ∉ skipDirs := by
  have hPlace : (names, doc) ∈ listing.places [] :=
    (Listing.mem_places_iff hOrdered [] names doc).mpr ⟨names, rfl, hFile⟩
  have hNames : ∀ name ∈ names, IsEntryName name :=
    Listing.isEntryName_of_mem_places hOrdered (by simp) hPlace
  rw [List.all_eq_true]
  constructor
  · intro hAll name hName
    obtain ⟨above, hAbove⟩ := (mem_dropLast_iff names name).mp hName
    have hEnters := hAll _ hAbove
    rw [enters_concat] at hEnters
    simp only [isSkippedName, Bool.not_or, Bool.and_eq_true, Bool.not_eq_true',
      List.contains_eq_mem, decide_eq_false_iff_not] at hEnters
    exact hEnters.1.1
  · intro hShown dir hDir
    have hIgnored := not_ignores_above hNames (fun name hName => (hShown name hName).1) hWanted hDir
    obtain ⟨hNe, ⟨rest, rfl⟩, hNot⟩ := (mem_properInits_iff _ _).mp hDir
    have hRest : rest ≠ [] := by simpa using hNot
    obtain ⟨below, hBelow⟩ := Listing.exists_dir_of_at? hRest hFile
    have hOpens := hWalk.opens dir below hNe hBelow
    obtain ⟨above, name, rfl⟩ := (List.eq_nil_or_concat' dir).resolve_left hNe
    have hName := hShown name ((mem_dropLast_iff _ name).mpr ⟨above, hDir⟩)
    simp [enters_concat, isSkippedName, hIgnored, hOpens, hName]

/-- A walk finds exactly the source files that a look at each one by itself
finds: those in a known language, below no directory that is hidden or
skipped, and not ignored. They come in the order of their names, component by
component, each once. -/
theorem filesWith_finds_exactly {disk : Disk} {root : String} {listing : Listing}
    (hRoot : disk.readDir root = .ok listing) (hOrdered : listing.Ordered)
    (hWalk : Walkable root listing) (rules : Ignore.RuleSet) (skipDirs : List String) :
    ∃ files, filesWith disk root rules skipDirs = .ok files ∧
      (∀ file, file ∈ files ↔ ∃ names doc, listing.at? names = some (.file doc) ∧
        file = sourceAt root (names, doc) ∧ (Language.ofPath (ofNames names)).isKnown = true ∧
        (∀ name ∈ names.dropLast, isHiddenName name = false ∧ name ∉ skipDirs) ∧
        rules.ignores (ofNames names).toList false = false) ∧
      files.Pairwise fun a b => components a.path.toList < components b.path.toList := by
  have hWanted : ∀ path, isWanted rules path = true ↔
      (Language.ofPath path).isKnown = true ∧ rules.ignores path.toList false = false := by
    simp [isWanted]
  have hFiles : filesWith disk root rules skipDirs =
      .ok (((listing.places []).filter fun place => isWanted rules (ofNames place.1) &&
        (properInits place.1).all (enters rules skipDirs root)).map (sourceAt root)) := by
    rw [filesWith, openRoot, hRoot, hWalk.notDash]
    exact congrArg Except.ok (filesIn_eq_filter hOrdered (by simp) fun dir hNe hPrefix =>
      absurd (List.prefix_nil.mp hPrefix) hNe)
  refine ⟨_, hFiles, ?_, ?_⟩
  · intro file
    simp only [List.mem_map, List.mem_filter, Bool.and_eq_true]
    constructor
    · rintro ⟨⟨names, doc⟩, ⟨hPlace, hFound, hAll⟩, rfl⟩
      obtain ⟨_, rfl, hFile⟩ := (Listing.mem_places_iff hOrdered [] names doc).mp hPlace
      have hAbove := (all_enters_iff hOrdered hWalk hFile hFound).mp hAll
      obtain ⟨hKnown, hLeft⟩ := (hWanted _).mp hFound
      exact ⟨_, doc, hFile, rfl, hKnown, hAbove, hLeft⟩
    · rintro ⟨names, doc, hFile, rfl, hKnown, hAbove, hLeft⟩
      have hFound := (hWanted _).mpr ⟨hKnown, hLeft⟩
      exact ⟨(names, doc),
        ⟨(Listing.mem_places_iff hOrdered [] names doc).mpr ⟨names, rfl, hFile⟩, hFound,
          (all_enters_iff hOrdered hWalk hFile hFound).mpr hAbove⟩, rfl⟩
  · rw [List.pairwise_map]
    refine ((Listing.pairwise_places hOrdered []).filter _).imp_of_mem ?_
    intro a b hA hB hLess
    have hSteps : ∀ {place}, place ∈ listing.places [] → ∀ name ∈ place.1, IsStep name :=
      fun hPlace name hName =>
        (Listing.isEntryName_of_mem_places hOrdered (by simp) hPlace name hName).isStep
    simp only [sourceAt]
    rwa [components_ofNames (hSteps (List.mem_filter.mp hA).1),
      components_ofNames (hSteps (List.mem_filter.mp hB).1)]

/-- A directory with one directory in it, which holds a file and a further
directory. -/
def nestedTree : Listing :=
  .dir "lib" (.dir "gen" (.file "out.rs" { bytes := [] } .nil)
    (.file "main.rs" { bytes := [] } .nil)) .nil

theorem walkable_nestedTree : Walkable "." nestedTree := by
  refine ⟨by decide, ?_⟩
  intro dir below hNe hDir
  obtain ⟨first, rest, rfl⟩ := List.exists_cons_of_ne_nil hNe
  rw [nestedTree, Listing.at?_dir] at hDir
  split at hDir
  · rename_i hFirst
    subst hFirst
    cases rest with
    | nil => decide
    | cons second rest =>
        rw [Listing.at?_dir] at hDir
        split at hDir
        · rename_i hSecond
          subst hSecond
          cases rest with
          | nil => decide
          | cons third rest =>
              rw [Listing.at?_file] at hDir
              split at hDir
              · split at hDir <;> cases hDir
              · simp [Listing.at?, Listing.get?] at hDir
        · rw [Listing.at?_file] at hDir
          split at hDir
          · split at hDir <;> cases hDir
          · simp [Listing.at?, Listing.get?] at hDir
  · simp [Listing.at?, Listing.get?] at hDir

theorem filesWith_nestedTree :
    ({ root := nestedTree } : Disk).readDir "." = .ok nestedTree ∧ nestedTree.Ordered ∧
      Walkable "." nestedTree ∧
      ∃ files, filesWith { root := nestedTree } "."
          { rules := Ignore.rulesOf "gen/\n!out.rs".toList [] } [] = .ok files ∧
        sourceAt "." (["lib", "main.rs"], { bytes := [] }) ∈ files ∧
        ∀ doc, sourceAt "." (["lib", "gen", "out.rs"], doc) ∉ files := by
  have hRoot : ({ root := nestedTree } : Disk).readDir "." = .ok nestedTree := by cbv
  have hOrdered : nestedTree.Ordered := by decide
  refine ⟨hRoot, hOrdered, walkable_nestedTree, ?_⟩
  obtain ⟨files, hFiles, hFinds, _⟩ := filesWith_finds_exactly hRoot hOrdered walkable_nestedTree
    { rules := Ignore.rulesOf "gen/\n!out.rs".toList [] } []
  refine ⟨files, hFiles, ?_, ?_⟩
  · exact (hFinds _).mpr ⟨_, _, rfl, rfl, by decide, by decide, by cbv⟩
  · intro doc hMem
    obtain ⟨names, doc', _, hSame, _, _, hIgnored⟩ := (hFinds _).mp hMem
    have hPath : ofNames ["lib", "gen", "out.rs"] = ofNames names := congrArg SourceFile.path hSame
    rw [← hPath] at hIgnored
    have hNot : Ignore.RuleSet.ignores { rules := Ignore.rulesOf "gen/\n!out.rs".toList [] }
        (ofNames ["lib", "gen", "out.rs"]).toList false = true := by cbv
    exact absurd (hNot.symm.trans hIgnored) (by decide)
end Flat

end Scan

end SymbolMap
