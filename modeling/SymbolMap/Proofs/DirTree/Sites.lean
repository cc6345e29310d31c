import Mathlib.Algebra.GroupWithZero.Nat
import SymbolMap.Proofs.DirTree.Totals

/-! Directories by the names that lead to them. The walk of a tree meets the
directories in the order of these names, each with its own files, and a
directory is a leaf exactly when no other lies below it. -/
namespace SymbolMap.Plan

open SymbolMap.Path

/-- A directory met on a walk, with the names that lead to it. -/
structure Site where
  names : List String
  visit : Visit

namespace Site

/-- The same place after its directory has changed. -/
def onDir (f : Directory → Directory) (site : Site) : Site :=
  { site with visit := { site.visit with dir := f site.visit.dir } }

end Site

namespace Forest

/-- The walk of a forest that `names` and `chain` lead to, with the names of
each directory. -/
def sites (names : List String) (chain : List Nat) : Forest → List Site
  | nil => []
  | cons dir below rest =>
    let there := names ++ [dir.name]
    let here := chain ++ [dir.id]
    { names := there, visit := { chain := here, dir, leaf := below.isEmpty } } ::
      (below.sites there here ++ rest.sites names chain)

theorem map_visit_sites (names : List String) (chain : List Nat) (forest : Forest) :
    (forest.sites names chain).map Site.visit = forest.walk chain := by
  induction forest generalizing names chain with
  | nil => rfl
  | cons dir below rest ihBelow ihRest => simp [sites, walk, ihBelow, ihRest]

/-- Changing directories by themselves moves none of them. -/
theorem sites_map {f : Directory → Directory}
    (hKeep : ∀ dir, (f dir).id = dir.id ∧ (f dir).name = dir.name) (names : List String)
    (chain : List Nat) (forest : Forest) :
    (forest.map f).sites names chain = (forest.sites names chain).map (Site.onDir f) := by
  induction forest generalizing names chain with
  | nil => rfl
  | cons dir below rest ihBelow ihRest =>
      obtain ⟨hId, hName⟩ := hKeep dir
      simp [map, sites, hId, hName, isEmpty_map, ihBelow, ihRest, Site.onDir]

theorem ownTotal_eq_sum (names : List String) (chain : List Nat) (forest : Forest) :
    forest.ownTotal =
      ((forest.sites names chain).map fun site => site.visit.dir.ownCost).sum := by
  induction forest generalizing names chain with
  | nil => rfl
  | cons dir below rest ihBelow ihRest =>
      simp [sites, ownTotal, ← ihBelow, ← ihRest, Nat.add_assoc]

/-- The totals of directories without directories inside are those of their
own files. -/
theorem total_of_leaf {names : List String} {chain : List Nat} {forest : Forest}
    (hCounted : forest.Counted) {site : Site} (hSite : site ∈ forest.sites names chain)
    (hLeaf : site.visit.leaf = true) : site.visit.dir.total = site.visit.dir.ownCost := by
  induction forest generalizing names chain with
  | nil => simp [sites] at hSite
  | cons dir below rest ihBelow ihRest =>
      obtain ⟨hTotal, hBelow, hRest⟩ := hCounted
      simp only [sites, List.mem_cons, List.mem_append] at hSite
      rcases hSite with rfl | hSite | hSite
      · cases below with
        | nil => simpa [total] using hTotal
        | cons => simp [isEmpty] at hLeaf
      · exact ihBelow hBelow hSite
      · exact ihRest hRest hSite

section Tidy

variable {above : List String} {forest : Forest}

theorem mem_tops_of_filesAt? {name : String} {names : List String} {files : List PlacedFile}
    (hFiles : forest.filesAt? (name :: names) = some files) : name ∈ forest.tops := by
  by_contra hTop
  simp [filesAt?_of_not_mem_tops hTop] at hFiles

theorem filesAt?_of_ne {dir : Directory} {below rest : Forest} {name : String}
    (hName : name ≠ dir.name) (names : List String) :
    (cons dir below rest).filesAt? (name :: names) = rest.filesAt? (name :: names) := by
  rw [filesAt?, if_neg hName]

theorem filesAt?_inside {dir : Directory} {below rest : Forest} {names : List String}
    (hNames : names ≠ []) :
    (cons dir below rest).filesAt? (dir.name :: names) = below.filesAt? names := by
  rw [filesAt?, if_pos rfl, if_neg hNames]

/-- A directory that a walk meets is the one that its names lead to, and it
is a leaf when nothing further is reached through it. -/
theorem filesAt?_of_mem_sites (hTidy : forest.Tidy above) {chain : List Nat} {site : Site}
    (hSite : site ∈ forest.sites above chain) :
    ∃ first others, site.names = above ++ first :: others ∧
      forest.filesAt? (first :: others) = some site.visit.dir.files ∧
      (site.visit.leaf = true ↔
        ∀ name more, forest.filesAt? (first :: others ++ name :: more) = none) := by
  induction forest generalizing above chain with
  | nil => simp [sites] at hSite
  | cons dir below rest ihBelow ihRest =>
      obtain ⟨_, _, hTops, hBelow, hRest⟩ := hTidy
      simp only [sites, List.mem_cons, List.mem_append] at hSite
      rcases hSite with rfl | hSite | hSite
      · refine ⟨dir.name, [], rfl, by simp [filesAt?], ?_⟩
        cases below with
        | nil => simp [filesAt?, isEmpty]
        | cons d inner others =>
            simp only [isEmpty, Bool.false_eq_true, false_iff, not_forall]
            exact ⟨d.name, [], by simp [filesAt?]⟩
      · obtain ⟨first, others, hNames, hFiles, hLeaf⟩ := ihBelow hBelow hSite
        refine ⟨dir.name, first :: others, by simp [hNames], ?_, ?_⟩
        · rw [filesAt?_inside (List.cons_ne_nil _ _), hFiles]
        · rw [hLeaf]
          simp only [List.cons_append]
          simp only [filesAt?_inside (List.cons_ne_nil _ _)]
      · obtain ⟨first, others, hNames, hFiles, hLeaf⟩ := ihRest hRest hSite
        have hNe : first ≠ dir.name := (hTops first (mem_tops_of_filesAt? hFiles)).ne'
        refine ⟨first, others, hNames, ?_, ?_⟩
        · rw [filesAt?_of_ne hNe, hFiles]
        · rw [hLeaf]
          simp only [List.cons_append, filesAt?_of_ne hNe]

/-- Every directory that names lead to is met on the walk. -/
theorem exists_mem_sites {names : List String} {files : List PlacedFile} (chain : List Nat)
    (hFiles : forest.filesAt? names = some files) :
    ∃ site ∈ forest.sites above chain, site.names = above ++ names := by
  induction forest generalizing above names chain with
  | nil => simp [filesAt?] at hFiles
  | cons dir below rest ihBelow ihRest =>
      cases names with
      | nil => simp at hFiles
      | cons name names =>
          by_cases hName : name = dir.name
          · subst hName
            by_cases hNames : names = []
            · exact ⟨_, List.mem_cons_self, by simp [hNames]⟩
            · rw [filesAt?_inside hNames] at hFiles
              obtain ⟨site, hSite, hEq⟩ :=
                @ihBelow (above ++ [dir.name]) _ (chain ++ [dir.id]) hFiles
              refine ⟨site, ?_, by simp [hEq]⟩
              simp only [sites, List.mem_cons, List.mem_append]
              exact Or.inr (Or.inl hSite)
          · rw [filesAt?_of_ne hName] at hFiles
            obtain ⟨site, hSite, hEq⟩ := @ihRest above _ chain hFiles
            refine ⟨site, ?_, hEq⟩
            simp only [sites, List.mem_cons, List.mem_append]
            exact Or.inr (Or.inr hSite)

/-- Directories carry their paths, and none is truncated at first. -/
theorem dir_of_mem_sites (hTidy : forest.Tidy above) {chain : List Nat} {site : Site}
    (hSite : site ∈ forest.sites above chain) :
    site.visit.dir.path = ofNames site.names ∧ site.visit.dir.truncated = false := by
  induction forest generalizing above chain with
  | nil => simp [sites] at hSite
  | cons dir below rest ihBelow ihRest =>
      obtain ⟨hPath, hShown, _, hBelow, hRest⟩ := hTidy
      simp only [sites, List.mem_cons, List.mem_append] at hSite
      rcases hSite with rfl | hSite | hSite
      · exact ⟨hPath, hShown⟩
      · exact ihBelow hBelow hSite
      · exact ihRest hRest hSite

/-- A walk goes by the names, component by component. -/
theorem pairwise_sites (hTidy : forest.Tidy above) (chain : List Nat) :
    (forest.sites above chain).Pairwise fun a b => a.names < b.names := by
  induction forest generalizing above chain with
  | nil => exact List.Pairwise.nil
  | cons dir below rest ihBelow ihRest =>
      obtain ⟨_, _, hTops, hBelow, hRest⟩ := hTidy
      -- what comes later has a greater name at this level
      have hLater : ∀ site ∈ rest.sites above chain, ∀ others,
          above ++ dir.name :: others < site.names := by
        intro site hSite others
        obtain ⟨first, more, hNames, hFiles, _⟩ := filesAt?_of_mem_sites hRest hSite
        rw [hNames]
        exact List.Lex.append_left _
          (List.Lex.rel (hTops first (mem_tops_of_filesAt? hFiles))) above
      have hInside : ∀ site ∈ below.sites (above ++ [dir.name]) (chain ++ [dir.id]),
          ∃ first others, site.names = above ++ dir.name :: first :: others := by
        intro site hSite
        obtain ⟨first, others, hNames, _, _⟩ := filesAt?_of_mem_sites hBelow hSite
        exact ⟨first, others, by simp [hNames]⟩
      rw [sites, List.pairwise_cons, List.pairwise_append]
      refine ⟨?_, ihBelow hBelow _, ihRest hRest _, ?_⟩
      · intro site hSite
        rcases List.mem_append.mp hSite with hSite | hSite
        · obtain ⟨first, others, hNames⟩ := hInside site hSite
          rw [hNames]
          exact List.Lex.append_left _ (List.Lex.cons List.Lex.nil) above
        · exact hLater site hSite []
      · intro site hSite later hSiteLater
        obtain ⟨first, others, hNames⟩ := hInside site hSite
        rw [hNames]
        exact hLater later hSiteLater _

/-- The chain to a directory is as long as its names. -/
theorem length_chain_of_mem_sites {names : List String} {chain : List Nat} {site : Site}
    (hSite : site ∈ forest.sites names chain) :
    site.visit.chain.length + names.length = chain.length + site.names.length := by
  induction forest generalizing names chain with
  | nil => simp [sites] at hSite
  | cons dir below rest ihBelow ihRest =>
      simp only [sites, List.mem_cons, List.mem_append] at hSite
      rcases hSite with rfl | hSite | hSite
      · simp only [List.length_append, List.length_singleton]
        omega
      · have h := ihBelow hSite
        simp only [List.length_append, List.length_singleton] at h
        omega
      · exact ihRest hSite

theorem isEmpty_iff_filesAt? (forest : Forest) :
    forest.isEmpty = true ↔ ∀ name more, forest.filesAt? (name :: more) = none := by
  cases forest with
  | nil => simp [isEmpty, filesAt?]
  | cons dir below rest =>
      simp only [isEmpty, Bool.false_eq_true, false_iff, not_forall]
      exact ⟨dir.name, [], by simp [filesAt?]⟩

end Tidy

end Forest

namespace DirTree

/-- The walk of a tree with the names of each directory; none lead to the
root. -/
def sites (tree : DirTree) : List Site :=
  { names := []
    visit := { chain := [tree.root.id], dir := tree.root, leaf := tree.below.isEmpty } } ::
    tree.below.sites [] [tree.root.id]

theorem map_visit_sites (tree : DirTree) : tree.sites.map Site.visit = tree.walk := by
  simp [sites, walk, Forest.map_visit_sites]

theorem sites_map {f : Directory → Directory}
    (hKeep : ∀ dir, (f dir).id = dir.id ∧ (f dir).name = dir.name) (tree : DirTree) :
    (tree.map f).sites = tree.sites.map (Site.onDir f) := by
  simp [sites, map, Forest.sites_map hKeep, (hKeep tree.root).1, Forest.isEmpty_map, Site.onDir]

/-- Counting anew moves no directory and changes its total only. -/
theorem sites_recompute (tree : DirTree) :
    tree.recompute.sites.map (Site.onDir Directory.bare) =
      tree.sites.map (Site.onDir Directory.bare) := by
  have hKeep : ∀ dir : Directory, dir.bare.id = dir.id ∧ dir.bare.name = dir.name :=
    fun _ => ⟨rfl, rfl⟩
  rw [← sites_map hKeep, ← sites_map hKeep, map_bare_recompute]

theorem total_of_leaf {tree : DirTree} (hCounted : tree.Counted) {site : Site}
    (hSite : site ∈ tree.sites) (hLeaf : site.visit.leaf = true) :
    site.visit.dir.total = site.visit.dir.ownCost := by
  obtain ⟨hTotal, hBelow, _⟩ := hCounted
  rcases List.mem_cons.mp hSite with rfl | hSite
  · cases hForest : tree.below with
    | nil => simpa [Forest.total, hForest] using hTotal
    | cons => simp [hForest, Forest.isEmpty] at hLeaf
  · exact Forest.total_of_leaf hBelow hSite hLeaf

theorem filesAt?_of_mem_sites {tree : DirTree} (hTidy : tree.below.Tidy []) {site : Site}
    (hSite : site ∈ tree.sites) :
    tree.filesAt? site.names = some site.visit.dir.files ∧
      (site.visit.leaf = true ↔
        ∀ name more, tree.filesAt? (site.names ++ name :: more) = none) := by
  rcases List.mem_cons.mp hSite with rfl | hSite
  · refine ⟨by simp [filesAt?], ?_⟩
    rw [Forest.isEmpty_iff_filesAt?]
    simp [filesAt?]
  · obtain ⟨first, others, hNames, hFiles, hLeaf⟩ := Forest.filesAt?_of_mem_sites hTidy hSite
    rw [hNames]
    exact ⟨by simpa [filesAt?] using hFiles, by simpa [filesAt?] using hLeaf⟩

theorem exists_mem_sites {tree : DirTree} {names : List String} {files : List PlacedFile}
    (hFiles : tree.filesAt? names = some files) : ∃ site ∈ tree.sites, site.names = names := by
  by_cases hNames : names = []
  · exact ⟨_, List.mem_cons_self, hNames.symm⟩
  · rw [filesAt?, if_neg hNames] at hFiles
    obtain ⟨site, hSite, hEq⟩ := @Forest.exists_mem_sites [] _ _ _ [tree.root.id] hFiles
    exact ⟨site, List.mem_cons_of_mem _ hSite, by simpa using hEq⟩

end DirTree

namespace Grown

variable {files : List (Record × Nat)} {tree : DirTree} {site : Site}

/-- The walk meets the root and every directory on the way to a file. -/
theorem exists_site_iff (hGrown : Grown files tree) (names : List String) :
    (∃ site ∈ tree.sites, site.names = names) ↔
      names = [] ∨ ∃ file ∈ files, names <+: folder file := by
  have hFiles := hGrown.filesAt names
  constructor
  · rintro ⟨site, hSite, rfl⟩
    by_contra hNone
    rw [if_neg hNone, (DirTree.filesAt?_of_mem_sites hGrown.tidy hSite).1] at hFiles
    simp at hFiles
  · intro hOn
    rw [if_pos hOn] at hFiles
    exact DirTree.exists_mem_sites hFiles

theorem isStep_of_mem_sites (hGrown : Grown files tree) (hSite : site ∈ tree.sites) :
    ∀ name ∈ site.names, IsStep name := by
  rcases (hGrown.exists_site_iff site.names).mp ⟨site, hSite, rfl⟩ with hRoot | ⟨file, _, hOn⟩
  · simp [hRoot]
  · exact isStep_of_prefix_folder hOn

/-- Every directory holds its files in their order. -/
theorem files_of_mem_sites (hGrown : Grown files tree) (hSite : site ∈ tree.sites) :
    site.visit.dir.files = (files.filter (folder · = site.names)).map placed := by
  have hFiles := hGrown.filesAt site.names
  rw [if_pos ((hGrown.exists_site_iff _).mp ⟨site, hSite, rfl⟩),
    (DirTree.filesAt?_of_mem_sites hGrown.tidy hSite).1] at hFiles
  exact Option.some.inj hFiles

theorem dir_of_mem_sites (hGrown : Grown files tree) (hSite : site ∈ tree.sites) :
    site.visit.dir.path = ofNames site.names ∧ site.visit.dir.truncated = false := by
  rcases List.mem_cons.mp hSite with rfl | hSite
  · exact ⟨hGrown.path, hGrown.shown⟩
  · exact Forest.dir_of_mem_sites hGrown.tidy hSite

/-- A directory is a leaf when no file lies deeper in it. -/
theorem leaf_iff (hGrown : Grown files tree) (hSite : site ∈ tree.sites) :
    site.visit.leaf = true ↔
      ∀ file ∈ files, site.names <+: folder file → folder file = site.names := by
  rw [(DirTree.filesAt?_of_mem_sites hGrown.tidy hSite).2]
  constructor
  · rintro hNone file hFile ⟨deeper, hFolder⟩
    cases deeper with
    | nil => simpa using hFolder.symm
    | cons name more =>
        have hFiles := hNone name more
        rw [hFolder, hGrown.filesAt, if_pos (Or.inr ⟨file, hFile, List.prefix_rfl⟩)] at hFiles
        simp at hFiles
  · intro hOnly name more
    rw [hGrown.filesAt, if_neg]
    rintro (hRoot | ⟨file, hFile, hOn⟩)
    · simp at hRoot
    · have hFolder := hOnly file hFile ((List.prefix_append _ _).trans hOn)
      have hLength := hOn.length_le
      rw [hFolder] at hLength
      simp at hLength

/-- The walk goes by the names, component by component, and so meets every
directory once. -/
theorem pairwise_sites (hGrown : Grown files tree) :
    tree.sites.Pairwise fun a b => a.names < b.names := by
  rw [DirTree.sites, List.pairwise_cons]
  refine ⟨fun site hSite => ?_, Forest.pairwise_sites hGrown.tidy _⟩
  obtain ⟨first, others, hNames, _, _⟩ := Forest.filesAt?_of_mem_sites hGrown.tidy hSite
  rw [hNames]
  exact List.Lex.nil

theorem nodup_ids (hGrown : Grown files tree) : tree.ids.Nodup :=
  hGrown.ids.nodup_iff.mpr List.nodup_range

/-- Numbers and names tell directories apart alike. -/
theorem id_eq_iff (hGrown : Grown files tree) {other : Site} (hSite : site ∈ tree.sites)
    (hOther : other ∈ tree.sites) :
    site.visit.dir.id = other.visit.dir.id ↔ site.names = other.names := by
  have hNames : (tree.sites.map Site.names).Nodup :=
    List.pairwise_map.mpr (hGrown.pairwise_sites.imp fun h => ne_of_lt h)
  have hIds : (tree.sites.map fun s => s.visit.dir.id).Nodup := by
    have hWalk := tree.map_dir_id_walk
    rw [← DirTree.map_visit_sites, List.map_map] at hWalk
    exact hWalk ▸ hGrown.nodup_ids
  constructor
  · exact fun h => congrArg Site.names (List.inj_on_of_nodup_map hIds hSite hOther h)
  · exact fun h => congrArg (·.visit.dir.id) (List.inj_on_of_nodup_map hNames hSite hOther h)

end Grown

/-- Only the chain to the root has a single number. -/
theorem DirTree.length_chain_of_mem_sites {tree : DirTree} {site : Site}
    (hSite : site ∈ tree.sites) : site.visit.chain.length = site.names.length + 1 := by
  rcases List.mem_cons.mp hSite with rfl | hSite
  · rfl
  · have h := Forest.length_chain_of_mem_sites hSite
    simp only [List.length_nil, List.length_singleton] at h
    omega

end SymbolMap.Plan
