import Mathlib.Data.List.Induction
import Mathlib.Data.List.Lex
import Mathlib.Data.String.Basic
import SymbolMap.Plan.Basic
import SymbolMap.Proofs.Path.Segments

/-! What putting files into a directory tree does. The files of a directory
are looked up by the names that lead to it; insertion changes exactly the
directory of the file and makes the directories on the way. Directories stay
in the order of their names, carry their own paths, and are numbered without
repetition. -/
namespace SymbolMap.Plan

open SymbolMap.Path

namespace Forest

/-- The names of the outermost directories. -/
def tops : Forest → List String
  | nil => []
  | cons dir _ rest => dir.name :: rest.tops

/-- The numbers of all directories, each before those inside it. -/
def ids : Forest → List Nat
  | nil => []
  | cons dir below rest => dir.id :: (below.ids ++ rest.ids)

theorem length_ids (forest : Forest) : forest.ids.length = forest.size := by
  induction forest with
  | nil => rfl
  | cons dir below rest ihBelow ihRest =>
      simp only [ids, size, List.length_cons, List.length_append, ihBelow, ihRest]
      omega

/-- The files of the directory that some names lead to, if it is there. -/
def filesAt? : Forest → List String → Option (List PlacedFile)
  | nil, _ => none
  | cons _ _ _, [] => none
  | cons dir below rest, name :: names =>
    if name = dir.name then if names = [] then some dir.files else below.filesAt? names
    else rest.filesAt? (name :: names)

@[simp] theorem filesAt?_empty_names (forest : Forest) : forest.filesAt? [] = none := by
  cases forest <;> rfl

/-- Only an outermost directory leads further. -/
theorem filesAt?_of_not_mem_tops {forest : Forest} {name : String}
    (hName : name ∉ forest.tops) (names : List String) :
    forest.filesAt? (name :: names) = none := by
  induction forest with
  | nil => rfl
  | cons dir below rest _ ihRest =>
      simp only [tops, List.mem_cons, not_or] at hName
      rw [filesAt?, if_neg hName.1, ihRest hName.2]

/-- Directories as insertion leaves them, reached by `names`: neighbours are
in the order of their names, every directory carries its own path, and none
is truncated. -/
def Tidy (names : List String) : Forest → Prop
  | nil => True
  | cons dir below rest =>
    dir.path = ofNames (names ++ [dir.name]) ∧ dir.truncated = false ∧
      (∀ top ∈ rest.tops, dir.name < top) ∧ below.Tidy (names ++ [dir.name]) ∧ rest.Tidy names

section Branch

variable (file : PlacedFile) (parent : String) (next : Nat) (rest : Forest)

@[simp] theorem tops_branch (name : String) (names : List String) :
    (branch file parent next name names rest).tops = name :: rest.tops := by
  cases names <;> rfl

/-- A new branch holds its file at the end and nothing on the way. -/
theorem filesAt?_branch (name : String) (names probe : List String) :
    (branch file parent next name names rest).filesAt? probe =
      if probe = name :: names then some [file]
      else if probe ≠ [] ∧ probe <+: name :: names then some []
      else if probe.head? = some name then none else rest.filesAt? probe := by
  induction names generalizing parent next name rest probe with
  | nil =>
      cases probe with
      | nil => simp
      | cons first others =>
          by_cases hFirst : first = name <;> by_cases hOthers : others = [] <;>
            simp [branch, filesAt?, hFirst, hOthers, List.cons_prefix_cons]
  | cons deeper names ih =>
      cases probe with
      | nil => simp
      | cons first others =>
          by_cases hFirst : first = name
          · by_cases hOthers : others = []
            · simp [branch, filesAt?, hFirst, hOthers]
            · simp [branch, filesAt?, hFirst, hOthers, ih]
          · simp [branch, filesAt?, hFirst, List.cons_prefix_cons]

/-- A new branch numbers its directories onwards. -/
theorem ids_branch (name : String) (names : List String) :
    (branch file parent next name names rest).ids =
      List.range' next (names.length + 1) ++ rest.ids := by
  induction names generalizing parent next name rest with
  | nil => simp [branch, ids]
  | cons deeper names ih =>
      simp [branch, ids, ih, List.range'_succ]

theorem tidy_branch {names : List String} {name : String} {deeper : List String}
    (hParent : parent = ofNames names)
    (hSteps : ∀ step ∈ names ++ name :: deeper, IsStep step)
    (hTops : ∀ top ∈ rest.tops, name < top) (hRest : rest.Tidy names) :
    (branch file parent next name deeper rest).Tidy names := by
  have hPath : join parent name = ofNames (names ++ [name]) := by
    rw [hParent]
    exact join_ofNames (fun step hStep => hSteps step (List.mem_append_left _ hStep)) name
  induction deeper generalizing names name parent next rest with
  | nil => exact ⟨hPath, rfl, hTops, trivial, hRest⟩
  | cons first deeper ih =>
      refine ⟨hPath, rfl, hTops, ?_, hRest⟩
      have hInner : ∀ step ∈ (names ++ [name]) ++ first :: deeper, IsStep step := by
        simpa using hSteps
      refine ih (join parent name) (next + 1) nil hPath hInner (by simp [tops]) trivial ?_
      rw [hPath]
      exact join_ofNames (fun step hStep => hInner step (List.mem_append_left _ hStep)) first

end Branch

section Insert

variable (file : PlacedFile)

/-- Where insertion goes on at a directory: into it, in front of it, or
behind it. -/
theorem insert_cons (parent : String) (next : Nat) (name : String) (names : List String)
    (dir : Directory) (below rest : Forest) :
    (cons dir below rest).insert file parent next name names =
      if name = dir.name then
        match names with
        | [] => cons { dir with files := dir.files ++ [file] } below rest
        | deeper :: names => cons dir (below.insert file dir.path next deeper names) rest
      else if name < dir.name then branch file parent next name names (cons dir below rest)
      else cons dir below (rest.insert file parent next name names) := by
  cases names <;> rfl

theorem mem_tops_insert {parent : String} {next : Nat} {name : String} {names : List String}
    {forest : Forest} {top : String}
    (hTop : top ∈ (forest.insert file parent next name names).tops) :
    top = name ∨ top ∈ forest.tops := by
  induction forest with
  | nil => simpa [insert] using hTop
  | cons dir below rest _ ihRest =>
      rw [insert_cons] at hTop
      split at hTop
      · cases names <;> exact Or.inr hTop
      · split at hTop
        · simpa using hTop
        · rcases List.mem_cons.mp hTop with hTop | hTop
          · exact Or.inr (List.mem_cons.mpr (Or.inl hTop))
          · exact (ihRest hTop).imp_right fun h => List.mem_cons_of_mem _ h

/-- Insertion adds one file to its directory, makes the directories on the
way to it, and leaves all others alone. -/
theorem filesAt?_insert {above : List String} (parent : String) (next : Nat) (name : String)
    (names : List String) (forest : Forest) (hTidy : forest.Tidy above) (probe : List String) :
    (forest.insert file parent next name names).filesAt? probe =
      if probe = name :: names then some ((forest.filesAt? probe).getD [] ++ [file])
      else if probe ≠ [] ∧ probe <+: name :: names then some ((forest.filesAt? probe).getD [])
      else forest.filesAt? probe := by
  induction forest generalizing above parent name names probe with
  | nil => simp [insert, filesAt?_branch, filesAt?]
  | cons dir below rest ihBelow ihRest =>
      obtain ⟨_, _, hTops, hBelow, hRest⟩ := hTidy
      cases probe with
      | nil => simp
      | cons first others =>
          rw [insert_cons]
          split
          · -- the branch that begins with this directory
            rename_i hName
            by_cases hFirst : first = dir.name
            · cases names with
              | nil => by_cases hOthers : others = [] <;> simp [filesAt?, hFirst, hName, hOthers]
              | cons deeper names =>
                  by_cases hOthers : others = []
                  · simp [filesAt?, hFirst, hName, hOthers]
                  · simp [filesAt?, hFirst, hName, hOthers, ihBelow _ _ _ hBelow]
            · cases names <;> simp [filesAt?, hFirst, hName, List.cons_prefix_cons]
          · rename_i hName
            split
            · -- no directory of that name is there yet
              rename_i hLess
              have hAbsent : name ∉ (cons dir below rest).tops := by
                simp only [tops, List.mem_cons, not_or]
                exact ⟨hName, fun h => lt_asymm hLess (hTops name h)⟩
              have hNone := filesAt?_of_not_mem_tops hAbsent
              rw [filesAt?_branch]
              by_cases hFirst : first = name
              · subst hFirst
                simp [hNone]
              · simp [hFirst, List.cons_prefix_cons]
            · by_cases hFirst : first = dir.name
              · have hOther : ¬dir.name = name := fun h => hName h.symm
                simp [filesAt?, hFirst, hOther, List.cons_prefix_cons]
              · simp [filesAt?, hFirst, ihRest _ _ _ hRest]

/-- Insertion numbers the directories that it makes from `next` on. -/
theorem ids_insert (parent : String) (next : Nat) (name : String) (names : List String)
    (forest : Forest) : ∃ count,
      (forest.insert file parent next name names).ids.Perm
        (forest.ids ++ List.range' next count) := by
  induction forest generalizing parent name names with
  | nil => exact ⟨names.length + 1, by simp [insert, ids_branch, ids]⟩
  | cons dir below rest ihBelow ihRest =>
      rw [insert_cons]
      split
      · cases names with
        | nil => exact ⟨0, by simp [ids]⟩
        | cons deeper names =>
            obtain ⟨count, hPerm⟩ := ihBelow dir.path deeper names
            refine ⟨count, ?_⟩
            simp only [ids, List.cons_append, List.append_assoc]
            refine List.Perm.cons _ ((hPerm.append_right _).trans ?_)
            rw [List.append_assoc]
            exact List.Perm.append_left _ List.perm_append_comm
      · split
        · exact ⟨names.length + 1, by rw [ids_branch]; exact List.perm_append_comm⟩
        · obtain ⟨count, hPerm⟩ := ihRest parent name names
          refine ⟨count, ?_⟩
          simp only [ids, List.cons_append, List.append_assoc]
          exact List.Perm.cons _ (List.Perm.append_left _ hPerm)

theorem tidy_insert {above : List String} {parent : String} {next : Nat} {name : String}
    {names : List String} {forest : Forest} (hParent : parent = ofNames above)
    (hSteps : ∀ step ∈ above ++ name :: names, IsStep step) (hTidy : forest.Tidy above) :
    (forest.insert file parent next name names).Tidy above := by
  induction forest generalizing above parent name names with
  | nil => exact tidy_branch file parent next nil hParent hSteps (by simp [tops]) trivial
  | cons dir below rest ihBelow ihRest =>
      obtain ⟨hPath, hShown, hTops, hBelow, hRest⟩ := hTidy
      rw [insert_cons]
      split
      · rename_i hName
        cases names with
        | nil => exact ⟨hPath, hShown, hTops, hBelow, hRest⟩
        | cons deeper names =>
            subst hName
            exact ⟨hPath, hShown, hTops, ihBelow hPath (by simpa using hSteps) hBelow, hRest⟩
      · rename_i hName
        split
        · rename_i hLess
          refine tidy_branch file parent next _ hParent hSteps ?_
            ⟨hPath, hShown, hTops, hBelow, hRest⟩
          intro top hTop
          rcases List.mem_cons.mp hTop with rfl | hTop
          · exact hLess
          · exact lt_trans hLess (hTops top hTop)
        · rename_i hNotLess
          refine ⟨hPath, hShown, ?_, hBelow, ihRest hParent hSteps hRest⟩
          intro top hTop
          rcases mem_tops_insert file hTop with rfl | hTop
          · exact lt_of_le_of_ne (not_lt.mp hNotLess) fun h => hName h.symm
          · exact hTops top hTop

end Insert

end Forest

/-- The names of the directory of a file. -/
def folder (file : Record × Nat) : List String := directory file.1.path

/-- A file as it lies in its directory at first. -/
def placed (file : Record × Nat) : PlacedFile :=
  { index := file.2, path := file.1.path, cost := file.1.cost }

theorem isStep_of_prefix_folder {names : List String} {file : Record × Nat}
    (hNames : names <+: folder file) : ∀ name ∈ names, IsStep name :=
  fun _ hName => (isStep_of_mem_directory (hNames.subset hName)).1

namespace DirTree

/-- The numbers of all directories, the root first. -/
def ids (tree : DirTree) : List Nat := tree.root.id :: tree.below.ids

theorem length_ids (tree : DirTree) : tree.ids.length = tree.size := by
  rw [ids, List.length_cons, Forest.length_ids, size, Nat.add_comm]

/-- The files of the directory that some names lead to from the root. -/
def filesAt? (tree : DirTree) (names : List String) : Option (List PlacedFile) :=
  if names = [] then some tree.root.files else tree.below.filesAt? names

theorem filesAt?_insert {tree : DirTree} (hTidy : tree.below.Tidy []) (file : Record × Nat)
    (probe : List String) :
    (tree.insert file.2 file.1.path file.1.cost).filesAt? probe =
      if probe = folder file then some ((tree.filesAt? probe).getD [] ++ [placed file])
      else if probe <+: folder file then some ((tree.filesAt? probe).getD [])
      else tree.filesAt? probe := by
  cases hDir : directory file.1.path with
  | nil => by_cases hProbe : probe = [] <;> simp [insert, filesAt?, folder, placed, hDir, hProbe]
  | cons name names =>
      by_cases hProbe : probe = []
      · simp [insert, filesAt?, folder, hDir, hProbe]
      · simp [insert, filesAt?, folder, placed, hDir, hProbe,
          Forest.filesAt?_insert _ _ _ _ _ _ hTidy]

/-- Insertion numbers the directories that it makes after all others. -/
theorem ids_insert (tree : DirTree) (file : Record × Nat) : ∃ count,
    (tree.insert file.2 file.1.path file.1.cost).ids.Perm
      (tree.ids ++ List.range' tree.size count) := by
  rw [insert]
  split
  · exact ⟨0, by simp [ids]⟩
  · rename_i name names _
    obtain ⟨count, hPerm⟩ :=
      Forest.ids_insert (placed file) tree.root.path tree.size name names tree.below
    exact ⟨count, hPerm.cons _⟩

end DirTree

/-- A tree that holds some files: the root and the directories on the way to
the files are there, each with its own files in their order. -/
structure Grown (files : List (Record × Nat)) (tree : DirTree) : Prop where
  filesAt : ∀ names, tree.filesAt? names =
    if names = [] ∨ ∃ file ∈ files, names <+: folder file then
      some ((files.filter (folder · = names)).map placed)
    else none
  path : tree.root.path = ""
  shown : tree.root.truncated = false
  tidy : tree.below.Tidy []
  ids : tree.ids.Perm (List.range tree.size)

theorem grown_empty : Grown [] DirTree.empty where
  filesAt names := by
    by_cases hNames : names = [] <;>
      simp [DirTree.filesAt?, DirTree.empty, hNames, Forest.filesAt?]
  path := rfl
  shown := rfl
  tidy := trivial
  ids := by simp [DirTree.ids, DirTree.empty, DirTree.size, Forest.ids, Forest.size]

namespace Grown

variable {files : List (Record × Nat)} {tree : DirTree}

/-- A directory that is not there yet has no files. -/
theorem getD_filesAt (hGrown : Grown files tree) (names : List String) :
    (tree.filesAt? names).getD [] = (files.filter (folder · = names)).map placed := by
  rw [hGrown.filesAt]
  split
  · rfl
  · rename_i hNone
    have hEmpty : files.filter (folder · = names) = [] := by
      rw [List.filter_eq_nil_iff]
      intro file hFile hFolder
      have hSame : folder file = names := by simpa using hFolder
      exact hNone (Or.inr ⟨file, hFile, hSame ▸ List.prefix_rfl⟩)
    simp [hEmpty]

theorem filesAt_insert (hGrown : Grown files tree) (file : Record × Nat) (names : List String) :
    (tree.insert file.2 file.1.path file.1.cost).filesAt? names =
      if names = [] ∨ ∃ f ∈ files ++ [file], names <+: folder f then
        some (((files ++ [file]).filter (folder · = names)).map placed)
      else none := by
  rw [DirTree.filesAt?_insert hGrown.tidy, hGrown.getD_filesAt, List.filter_append,
    List.map_append]
  by_cases hSame : names = folder file
  · rw [if_pos hSame, if_pos (Or.inr ⟨file, by simp, hSame ▸ List.prefix_rfl⟩)]
    simp [hSame]
  · have hOther : ¬folder file = names := fun h => hSame h.symm
    rw [if_neg hSame]
    by_cases hOn : names <+: folder file
    · rw [if_pos hOn, if_pos (Or.inr ⟨file, by simp, hOn⟩)]
      simp [hOther]
    · have hExists : (∃ f ∈ files ++ [file], names <+: folder f) ↔
          ∃ f ∈ files, names <+: folder f := by
        simp [or_and_right, exists_or, hOn]
      rw [if_neg hOn, hGrown.filesAt]
      simp only [hExists]
      simp [hOther]

theorem tidy_insert (hGrown : Grown files tree) (file : Record × Nat) :
    (tree.insert file.2 file.1.path file.1.cost).below.Tidy [] := by
  have hSteps : ∀ step ∈ folder file, IsStep step := isStep_of_prefix_folder List.prefix_rfl
  rw [DirTree.insert]
  split
  · exact hGrown.tidy
  · rename_i name names hDir
    refine Forest.tidy_insert _ hGrown.path ?_ hGrown.tidy
    simpa [folder, hDir] using hSteps

theorem ids_insert (hGrown : Grown files tree) (file : Record × Nat) :
    (tree.insert file.2 file.1.path file.1.cost).ids.Perm
      (List.range (tree.insert file.2 file.1.path file.1.cost).size) := by
  obtain ⟨count, hPerm⟩ := DirTree.ids_insert tree file
  have hRange : List.range tree.size ++ List.range' tree.size count =
      List.range (tree.size + count) := by
    have hAppend := @List.range'_append_1 0 tree.size count
    rw [Nat.zero_add] at hAppend
    rw [List.range_eq_range', hAppend, ← List.range_eq_range']
  have hAll := hPerm.trans (hGrown.ids.append_right _)
  rw [hRange] at hAll
  have hSize := hAll.length_eq
  rw [DirTree.length_ids, List.length_range] at hSize
  rw [hSize]
  exact hAll

/-- Insertion keeps the tree one that holds its files. -/
theorem insert (hGrown : Grown files tree) (file : Record × Nat) :
    Grown (files ++ [file]) (tree.insert file.2 file.1.path file.1.cost) where
  filesAt := hGrown.filesAt_insert file
  path := by rw [DirTree.insert]; split <;> exact hGrown.path
  shown := by rw [DirTree.insert]; split <;> exact hGrown.shown
  tidy := hGrown.tidy_insert file
  ids := hGrown.ids_insert file

end Grown

/-- The tree of some files before its totals are counted. -/
def grow (files : List (Record × Nat)) : DirTree :=
  files.foldl (fun tree file => tree.insert file.2 file.1.path file.1.cost) DirTree.empty

theorem treeOf_eq (files : List (Record × Nat)) : treeOf files = (grow files).recompute := rfl

/-- The tree of some files holds these files. -/
theorem grown_grow (files : List (Record × Nat)) : Grown files (grow files) := by
  induction files using List.reverseRecOn with
  | nil => exact grown_empty
  | append_singleton files file ih =>
      rw [grow, List.foldl_append]
      exact ih.insert file

end SymbolMap.Plan
