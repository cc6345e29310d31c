import SymbolMap.Proofs.DirTree.Sites
import SymbolMap.Proofs.Plan.Ranking

/-! The tree of a map while it is pruned. At every moment it is the tree of
the planned files in which some directories are truncated and some files are
left out, with all totals counted anew. Truncating a directory or leaving out
a file leads from one such tree to another, so no later step depends on how
the tree was reached. -/
namespace SymbolMap.Plan

open SymbolMap.Path

/-- A file that is left out if its position is that of one of `left`. -/
def flag (left : List (Record × Nat)) (file : PlacedFile) : PlacedFile :=
  { file with dropped := decide (file.index ∈ left.map Prod.snd) }

/-- A directory with the marks of pruning: whether it is one of `cut`, and
which of its files are among `left`. -/
def mark (cut : List (List String)) (left : List (Record × Nat)) (dir : Directory) : Directory :=
  { dir with
    truncated := decide (dir.path ∈ cut.map ofNames)
    files := dir.files.map (flag left) }

/-- The tree of some files in which the directories `cut` are truncated and
the files `left` are left out. -/
def pruned (files : List (Record × Nat)) (cut : List (List String))
    (left : List (Record × Nat)) : DirTree :=
  ((grow files).map (mark cut left)).recompute

/-- A file as it lies in its directory when the files `left` are left out. -/
def placedWithout (left : List (Record × Nat)) (file : Record × Nat) : PlacedFile :=
  { placed file with dropped := decide (file ∈ left) }

section Pruned

variable {files : List (Record × Nat)} {cut : List (List String)} {left : List (Record × Nat)}

theorem counted_pruned (files : List (Record × Nat)) (cut : List (List String))
    (left : List (Record × Nat)) : (pruned files cut left).Counted :=
  DirTree.counted_recompute _

theorem mark_keeps (dir : Directory) :
    (mark cut left dir).id = dir.id ∧ (mark cut left dir).name = dir.name :=
  ⟨rfl, rfl⟩

theorem nodup_ids_pruned (files : List (Record × Nat)) (cut : List (List String))
    (left : List (Record × Nat)) : (pruned files cut left).ids.Nodup := by
  rw [pruned, DirTree.ids_recompute, DirTree.ids_map fun dir => (mark_keeps dir).1]
  exact (grown_grow files).nodup_ids

/-- The directories of a pruned tree are those of the full tree with the
marks of pruning and with other totals. -/
theorem sites_pruned (files : List (Record × Nat)) (cut : List (List String))
    (left : List (Record × Nat)) :
    (pruned files cut left).sites.map (Site.onDir Directory.bare) =
      (grow files).sites.map (Site.onDir fun dir => (mark cut left dir).bare) := by
  rw [pruned, DirTree.sites_recompute, DirTree.sites_map mark_keeps, List.map_map]
  rfl

theorem names_pruned (files : List (Record × Nat)) (cut : List (List String))
    (left : List (Record × Nat)) :
    (pruned files cut left).sites.map Site.names = (grow files).sites.map Site.names := by
  have hNames := congrArg (List.map Site.names) (sites_pruned files cut left)
  rwa [List.map_map, List.map_map] at hNames

/-- The walk of a pruned tree goes by the names. -/
theorem pairwise_sites_pruned (files : List (Record × Nat)) (cut : List (List String))
    (left : List (Record × Nat)) :
    (pruned files cut left).sites.Pairwise fun a b => a.names < b.names := by
  rw [← List.pairwise_map, names_pruned, List.pairwise_map]
  exact (grown_grow files).pairwise_sites

/-- The walk of a pruned tree meets the root and every directory on the way
to a file. -/
theorem exists_site_pruned_iff (files : List (Record × Nat)) (cut : List (List String))
    (left : List (Record × Nat)) (names : List String) :
    (∃ site ∈ (pruned files cut left).sites, site.names = names) ↔
      names = [] ∨ ∃ file ∈ files, names <+: folder file := by
  rw [← (grown_grow files).exists_site_iff, ← List.mem_map, names_pruned, List.mem_map]

/-- The chain to a directory is the same in every pruned tree. -/
theorem exists_site_of_origin (cut : List (List String)) (left : List (Record × Nat))
    {origin : Site} (hOrigin : origin ∈ (grow files).sites) :
    ∃ site ∈ (pruned files cut left).sites, site.names = origin.names ∧
      site.visit.chain = origin.visit.chain := by
  have hMem := List.mem_map_of_mem (f := Site.onDir fun dir => (mark cut left dir).bare) hOrigin
  rw [← sites_pruned, List.mem_map] at hMem
  obtain ⟨site, hSite, hSame⟩ := hMem
  refine ⟨site, hSite, ?_, ?_⟩
  · simpa only [Site.onDir] using congrArg Site.names hSame
  · simpa only [Site.onDir] using congrArg (·.visit.chain) hSame

/-- What a walk of a pruned tree sees of a directory. -/
structure Seen (files : List (Record × Nat)) (cut : List (List String))
    (left : List (Record × Nat)) (site : Site) : Prop where
  path : site.visit.dir.path = ofNames site.names
  truncated : site.visit.dir.truncated = decide (site.names ∈ cut)
  holds : site.visit.dir.files =
    (files.filter (folder · = site.names)).map (placedWithout left)
  leaf : site.visit.leaf = true ↔
    ∀ file ∈ files, site.names <+: folder file → folder file = site.names
  chain : site.visit.chain.length = site.names.length + 1

/-- Truncated directories are recognised by their paths. -/
theorem ofNames_mem_cut_iff (hCut : ∀ names ∈ cut, IsLeaf files names) {names : List String}
    (hSteps : ∀ name ∈ names, IsStep name) :
    ofNames names ∈ cut.map ofNames ↔ names ∈ cut := by
  constructor
  · intro hMem
    obtain ⟨other, hOther, hSame⟩ := List.mem_map.mp hMem
    rwa [← ofNames_inj (hCut other hOther).isStep hSteps hSame]
  · exact fun hMem => List.mem_map_of_mem hMem

/-- Files are recognised by their positions. -/
theorem flag_placed (hNumbered : (files.map Prod.snd).Nodup) (hLeft : left ⊆ files)
    {file : Record × Nat} (hFile : file ∈ files) :
    flag left (placed file) = placedWithout left file := by
  have hIndex : file.2 ∈ left.map Prod.snd ↔ file ∈ left := by
    constructor
    · intro hMem
      obtain ⟨other, hOther, hSame⟩ := List.mem_map.mp hMem
      rwa [← List.inj_on_of_nodup_map hNumbered (hLeft hOther) hFile hSame]
    · exact fun hMem => List.mem_map_of_mem hMem
  simp only [flag, placedWithout, placed, hIndex]

/-- The marks of a directory of the full tree, by its names and files. -/
theorem mark_of_mem_sites (hNumbered : (files.map Prod.snd).Nodup)
    (hCut : ∀ names ∈ cut, IsLeaf files names) (hLeft : left ⊆ files) {origin : Site}
    (hOrigin : origin ∈ (grow files).sites) :
    mark cut left origin.visit.dir =
      { origin.visit.dir with
        truncated := decide (origin.names ∈ cut)
        files := (files.filter (folder · = origin.names)).map (placedWithout left) } := by
  have hGrown := grown_grow files
  have hFlags : origin.visit.dir.files.map (flag left) =
      (files.filter (folder · = origin.names)).map (placedWithout left) := by
    rw [hGrown.files_of_mem_sites hOrigin, List.map_map]
    exact List.map_congr_left fun file hFile =>
      flag_placed hNumbered hLeft (List.mem_filter.mp hFile).1
  simp only [mark, hFlags, (hGrown.dir_of_mem_sites hOrigin).1,
    ofNames_mem_cut_iff hCut (hGrown.isStep_of_mem_sites hOrigin)]

/-- A directory of a pruned tree comes from one of the full tree. -/
theorem exists_origin {site : Site} (hSite : site ∈ (pruned files cut left).sites) :
    ∃ origin ∈ (grow files).sites, origin.names = site.names ∧
      origin.visit.chain = site.visit.chain ∧ origin.visit.leaf = site.visit.leaf ∧
      (mark cut left origin.visit.dir).bare = site.visit.dir.bare := by
  have hMem := List.mem_map_of_mem (f := Site.onDir Directory.bare) hSite
  rw [sites_pruned, List.mem_map] at hMem
  obtain ⟨origin, hOrigin, hSame⟩ := hMem
  refine ⟨origin, hOrigin, ?_, ?_, ?_, ?_⟩
  · simpa only [Site.onDir] using congrArg Site.names hSame
  · simpa only [Site.onDir] using congrArg (·.visit.chain) hSame
  · simpa only [Site.onDir] using congrArg (·.visit.leaf) hSame
  · simpa only [Site.onDir] using congrArg (·.visit.dir) hSame

theorem seen_of_mem_sites (hNumbered : (files.map Prod.snd).Nodup)
    (hCut : ∀ names ∈ cut, IsLeaf files names) (hLeft : left ⊆ files) {site : Site}
    (hSite : site ∈ (pruned files cut left).sites) : Seen files cut left site := by
  have hGrown := grown_grow files
  obtain ⟨origin, hOrigin, hNames, _, hLeaf, hDir⟩ := exists_origin hSite
  rw [mark_of_mem_sites hNumbered hCut hLeft hOrigin] at hDir
  constructor
  · rw [← hNames, ← (hGrown.dir_of_mem_sites hOrigin).1]
    exact (congrArg Directory.path hDir).symm
  · rw [← hNames]
    exact (congrArg Directory.truncated hDir).symm
  · rw [← hNames]
    exact (congrArg Directory.files hDir).symm
  · rw [← hLeaf, hGrown.leaf_iff hOrigin, hNames]
  · exact DirTree.length_chain_of_mem_sites hSite

theorem mark_nil {dir : Directory} (hShown : dir.truncated = false)
    (hFiles : ∀ file ∈ dir.files, file.dropped = false) : mark [] [] dir = dir := by
  have hKept : dir.files.map (flag []) = dir.files := by
    rw [List.map_congr_left (g := id), List.map_id]
    intro file hFile
    simp [flag, ← hFiles file hFile]
  cases dir
  simp_all [mark]

/-- Nothing is truncated or left out before pruning. -/
theorem treeOf_eq_pruned (files : List (Record × Nat)) : treeOf files = pruned files [] [] := by
  have hGrown := grown_grow files
  have hMark : (grow files).map (mark [] []) = (grow files).map id := by
    apply DirTree.map_congr
    intro visit hVisit
    rw [← DirTree.map_visit_sites, List.mem_map] at hVisit
    obtain ⟨site, hSite, rfl⟩ := hVisit
    refine mark_nil (hGrown.dir_of_mem_sites hSite).2 fun file hFile => ?_
    rw [hGrown.files_of_mem_sites hSite, List.mem_map] at hFile
    obtain ⟨_, _, rfl⟩ := hFile
    rfl
  rw [treeOf_eq, pruned, hMark, DirTree.map_id]

theorem id_eq_iff_pruned {site origin : Site} (hSite : site ∈ (pruned files cut left).sites)
    (hOrigin : origin ∈ (grow files).sites) :
    origin.visit.dir.id = site.visit.dir.id ↔ origin.names = site.names := by
  obtain ⟨source, hSource, hNames, _, _, hDir⟩ := exists_origin hSite
  have hId : source.visit.dir.id = site.visit.dir.id := by
    simpa only [Directory.bare_id, mark_keeps] using congrArg Directory.id hDir
  rw [← hId, ← hNames]
  exact (grown_grow files).id_eq_iff hOrigin hSource

/-- An edit of one directory that agrees with other marks leads to the tree
with these marks. -/
theorem edit_pruned {site : Site} (hSite : site ∈ (pruned files cut left).sites)
    {f : Directory → Directory} (hBare : ∀ dir, (f dir.bare).bare = (f dir).bare)
    {cut' : List (List String)} {left' : List (Record × Nat)}
    (hHere : ∀ origin ∈ (grow files).sites, origin.names = site.names →
      f (mark cut left origin.visit.dir) = mark cut' left' origin.visit.dir)
    (hElsewhere : ∀ origin ∈ (grow files).sites, origin.names ≠ site.names →
      mark cut left origin.visit.dir = mark cut' left' origin.visit.dir) :
    ((pruned files cut left).map (editAt site.visit.dir.id f)).recompute =
      pruned files cut' left' := by
  have hEdit : ∀ dir, (editAt site.visit.dir.id f dir.bare).bare =
      (editAt site.visit.dir.id f dir).bare := by
    intro dir
    by_cases hId : dir.id = site.visit.dir.id
    · rw [editAt_of_eq f hId, editAt_of_eq f (d := dir.bare) hId, hBare]
    · rw [editAt_of_ne f hId, editAt_of_ne f (d := dir.bare) hId]
      rfl
  rw [pruned, DirTree.recompute_map_recompute hEdit, DirTree.map_map, pruned]
  congr 1
  apply DirTree.map_congr
  intro visit hVisit
  rw [← DirTree.map_visit_sites, List.mem_map] at hVisit
  obtain ⟨origin, hOrigin, rfl⟩ := hVisit
  have hId := id_eq_iff_pruned hSite hOrigin
  by_cases hNames : origin.names = site.names
  · rw [editAt_of_eq f (d := mark cut left origin.visit.dir) (hId.mpr hNames)]
    exact hHere origin hOrigin hNames
  · rw [editAt_of_ne f (d := mark cut left origin.visit.dir) fun h => hNames (hId.mp h)]
    exact hElsewhere origin hOrigin hNames

/-- Truncating a leaf directory that is not truncated leads to the tree in
which it is, whatever was pruned before. -/
theorem truncate_pruned (hNumbered : (files.map Prod.snd).Nodup)
    (hCut : ∀ names ∈ cut, IsLeaf files names) (hLeft : left ⊆ files) {site : Site}
    (hSite : site ∈ (pruned files cut left).sites) (hNew : site.names ∉ cut)
    (hLeaf : IsLeaf files site.names) :
    (pruned files cut left).truncate site.visit.chain =
      pruned files (cut ++ [site.names]) left := by
  have hGrown := grown_grow files
  have hSeen := seen_of_mem_sites hNumbered hCut hLeft hSite
  have hVisit : site.visit ∈ (pruned files cut left).walk := by
    rw [← DirTree.map_visit_sites]
    exact List.mem_map_of_mem hSite
  rw [DirTree.truncate_eq_recompute (counted_pruned ..) (nodup_ids_pruned ..) hVisit
    (by simp [hSeen.truncated, hNew])]
  have hCutMore : ∀ names ∈ cut ++ [site.names], IsLeaf files names := by
    intro names hMem
    rcases List.mem_append.mp hMem with hMem | hMem
    · exact hCut names hMem
    · exact List.mem_singleton.mp hMem ▸ hLeaf
  refine edit_pruned hSite (fun _ => rfl) ?_ ?_
  all_goals
    intro origin hOrigin hNames
    rw [mark_of_mem_sites hNumbered hCut hLeft hOrigin,
      mark_of_mem_sites hNumbered hCutMore hLeft hOrigin]
    simp [hNames]

/-- Setting one element of a mapped list is mapping by a function that
differs there alone. -/
theorem set_map_eq_map {α β : Type} {items : List α} (hNodup : items.Nodup) {f g : α → β}
    {position : Nat} {item : α} (hItem : items[position]? = some item)
    (hElse : ∀ other ∈ items, other ≠ item → f other = g other) :
    (items.map f).set position (g item) = items.map g := by
  induction items generalizing position with
  | nil => simp at hItem
  | cons first items ih =>
      obtain ⟨hFirst, hNodup⟩ := List.nodup_cons.mp hNodup
      cases position with
      | zero =>
          simp only [List.getElem?_cons_zero, Option.some.injEq] at hItem
          subst hItem
          rw [List.map_cons, List.set_cons_zero, List.map_cons, List.map_congr_left]
          exact fun other hOther =>
            hElse other (List.mem_cons_of_mem _ hOther) fun h => hFirst (h ▸ hOther)
      | succ position =>
          have hRest : items[position]? = some item := by simpa using hItem
          have hNe : first ≠ item := fun h => hFirst (h ▸ List.mem_of_getElem? hRest)
          rw [List.map_cons, List.set_cons_succ, List.map_cons,
            ih hNodup hRest fun other hOther => hElse other (List.mem_cons_of_mem _ hOther),
            hElse first List.mem_cons_self hNe]

/-- Leaving out a file of a directory that is not truncated leads to the tree
without it, whatever was pruned before. -/
theorem dropFile_pruned (hNumbered : (files.map Prod.snd).Nodup)
    (hCut : ∀ names ∈ cut, IsLeaf files names) (hLeft : left ⊆ files) {site : Site}
    (hSite : site ∈ (pruned files cut left).sites) (hShown : site.names ∉ cut)
    {file : Record × Nat} {position : Nat}
    (hFile : (files.filter (folder · = site.names))[position]? = some file)
    (hNew : file ∉ left) :
    (pruned files cut left).dropFile site.visit.chain position =
      pruned files cut (left ++ [file]) := by
  have hGrown := grown_grow files
  have hSeen := seen_of_mem_sites hNumbered hCut hLeft hSite
  have hVisit : site.visit ∈ (pruned files cut left).walk := by
    rw [← DirTree.map_visit_sites]
    exact List.mem_map_of_mem hSite
  have hPlaced : site.visit.dir.files[position]? = some (placedWithout left file) := by
    rw [hSeen.holds, List.getElem?_map, hFile, Option.map_some]
  rw [DirTree.dropFile_eq_recompute (counted_pruned ..) (nodup_ids_pruned ..) hVisit
    (by simp [hSeen.truncated, hShown]) hPlaced (by simp [placedWithout, hNew])]
  obtain ⟨hMem, hFolder⟩ := List.mem_filter.mp (List.mem_of_getElem? hFile)
  have hFolder : folder file = site.names := by simpa using hFolder
  have hLeftMore : left ++ [file] ⊆ files := by
    intro other hOther
    rcases List.mem_append.mp hOther with hOther | hOther
    · exact hLeft hOther
    · exact List.mem_singleton.mp hOther ▸ hMem
  -- only this file changes its flag
  have hElse : ∀ other, other ≠ file →
      placedWithout left other = placedWithout (left ++ [file]) other := by
    intro other hNe
    simp [placedWithout, hNe]
  refine edit_pruned hSite (fun _ => rfl) ?_ ?_
  all_goals
    intro origin hOrigin hNames
    rw [mark_of_mem_sites hNumbered hCut hLeft hOrigin,
      mark_of_mem_sites hNumbered hCut hLeftMore hOrigin]
  · have hNodup : (files.filter (folder · = site.names)).Nodup :=
      (List.Nodup.of_map _ hNumbered).filter _
    have hSet := set_map_eq_map hNodup hFile fun other _ hNe => hElse other hNe
    have hDropped : { placedWithout left file with dropped := true } =
        placedWithout (left ++ [file]) file := by
      simp [placedWithout]
    simp only [hNames, hDropped, hSet]
  · have hFiles : (files.filter (folder · = origin.names)).map (placedWithout left) =
        (files.filter (folder · = origin.names)).map (placedWithout (left ++ [file])) := by
      apply List.map_congr_left
      intro other hOther
      refine hElse other fun hSame => hNames ?_
      have hIn := (List.mem_filter.mp hOther).2
      rw [← hFolder, ← hSame]
      exact (of_decide_eq_true hIn).symm
    rw [hFiles]

end Pruned

end SymbolMap.Plan
