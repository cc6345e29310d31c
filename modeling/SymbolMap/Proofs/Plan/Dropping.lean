import SymbolMap.Proofs.Plan.Truncation

/-! The second phase of pruning. When all leaves are truncated, the files
outside them are left out in their ranking, up to the first tree within the
limit. The candidates are collected on one walk before the phase starts, each
with its spot in the tree; a spot stays that of its file while others are left
out. -/
namespace SymbolMap.Plan

open SymbolMap.Path

variable {files : List (Record × Nat)} {cut : List (List String)} {left : List (Record × Nat)}

/-- One step of leaving files out. -/
def dropStep (limit : Nat) (tree : DirTree) (file : Droppable) : DirTree :=
  if tree.total ≤ limit then tree else tree.dropFile file.chain file.position

theorem foldl_dropStep_of_le {limit : Nat} {tree : DirTree} (hTotal : tree.total ≤ limit)
    (candidates : List Droppable) : candidates.foldl (dropStep limit) tree = tree := by
  induction candidates with
  | nil => rfl
  | cons file candidates ih => rw [List.foldl_cons, dropStep, if_pos hTotal, ih]

/-- Where a file that may be left out lies. -/
def Located (files : List (Record × Nat)) (cut : List (List String)) (spot : Droppable)
    (file : Record × Nat) : Prop :=
  ∃ origin ∈ (grow files).sites, origin.names ∉ cut ∧ origin.visit.chain = spot.chain ∧
    (files.filter (folder · = origin.names))[spot.position]? = some file

theorem Located.mem {spot : Droppable} {file : Record × Nat} (h : Located files cut spot file) :
    file ∈ files := by
  obtain ⟨_, _, _, _, hFile⟩ := h
  exact (List.mem_filter.mp (List.mem_of_getElem? hFile)).1

/-- Whether leaving out these files is enough. -/
def leftSuffices (files : List (Record × Nat)) (limit : Nat) (cut : List (List String))
    (left : List (Record × Nat)) : Bool :=
  wrap (chargeAll files cut left) ≤ limit

/-- Files are left out one after the other until it is enough. -/
theorem foldl_dropStep_pruned (hNumbered : (files.map Prod.snd).Nodup)
    (hCut : ∀ names ∈ cut, IsLeaf files names) (limit : Nat) {spots : List Droppable}
    {todo : List (Record × Nat)} (hSpots : List.Forall₂ (Located files cut) spots todo)
    (hLeft : left ⊆ files) (hNodup : (left ++ todo).Nodup) :
    spots.foldl (dropStep limit) (pruned files cut left) =
      pruned files cut (left ++ takeUntil (leftSuffices files limit cut) left todo) := by
  induction hSpots generalizing left with
  | nil => simp [takeUntil]
  | @cons spot file spots todo hSpot hSpots ih =>
      have hTotal := total_pruned hNumbered hCut hLeft
      by_cases hEnough : wrap (chargeAll files cut left) ≤ limit
      · rw [foldl_dropStep_of_le (hTotal ▸ hEnough),
          takeUntil_of_enough (by simpa [leftSuffices] using hEnough), List.append_nil]
      · have hMore : ¬leftSuffices files limit cut left = true := by
          simpa [leftSuffices] using hEnough
        have hNew : file ∉ left := fun h =>
          (List.nodup_append.mp hNodup).2.2 file h file List.mem_cons_self rfl
        obtain ⟨origin, hOrigin, hShown, hChain, hFile⟩ := id hSpot
        obtain ⟨site, hSite, hNames, hSame⟩ := exists_site_of_origin cut left hOrigin
        rw [← hNames] at hShown hFile
        rw [List.foldl_cons, dropStep, hTotal, if_neg hEnough, ← hChain, ← hSame,
          dropFile_pruned hNumbered hCut hLeft hSite hShown hFile hNew, takeUntil, if_neg hMore,
          ih]
        · simp
        · intro other hOther
          rcases List.mem_append.mp hOther with hOther | hOther
          · exact hLeft hOther
          · exact List.mem_singleton.mp hOther ▸ hSpot.mem
        · simpa using hNodup

/-- The files that a directory of a tree without files left out offers, each
with its spot. -/
def spotsOf (files : List (Record × Nat)) (cut : List (List String)) (site : Site) :
    List (Droppable × (Record × Nat)) :=
  if site.names ∈ cut then []
  else
    (files.filter (folder · = site.names)).zipIdx.map fun f =>
      ({ cost := f.1.1.cost, path := f.1.1.path, chain := site.visit.chain, position := f.2 }, f.1)

theorem droppables_eq (hNumbered : (files.map Prod.snd).Nodup)
    (hCut : ∀ names ∈ cut, IsLeaf files names) {site : Site}
    (hSite : site ∈ (pruned files cut []).sites) :
    site.visit.droppables = (spotsOf files cut site).map Prod.fst := by
  have hSeen := seen_of_mem_sites hNumbered hCut (List.nil_subset _) hSite
  rw [Visit.droppables, spotsOf, hSeen.truncated, hSeen.holds]
  by_cases hNames : site.names ∈ cut
  · simp [hNames]
  · have hAll : (((files.filter (folder · = site.names)).map (placedWithout [])).zipIdx.filter
        (!·.1.dropped)) =
        ((files.filter (folder · = site.names)).map (placedWithout [])).zipIdx := by
      rw [List.zipIdx_map, List.filter_eq_self]
      intro spot hSpot
      obtain ⟨_, _, rfl⟩ := List.mem_map.mp hSpot
      simp [placedWithout]
    rw [if_neg (by simpa using hNames), if_neg hNames, hAll, List.zipIdx_map, List.map_map,
      List.map_map]
    rfl

/-- What a spot says of its file. -/
theorem of_mem_spotsOf {site : Site} {spot : Droppable × (Record × Nat)}
    (hSpot : spot ∈ spotsOf files cut site) :
    site.names ∉ cut ∧ folder spot.2 = site.names ∧ spot.1.chain = site.visit.chain ∧
      spot.1.cost = spot.2.1.cost ∧ spot.1.path = spot.2.1.path ∧
      (files.filter (folder · = site.names))[spot.1.position]? = some spot.2 := by
  rw [spotsOf] at hSpot
  split at hSpot
  · simp at hSpot
  · rename_i hNames
    obtain ⟨⟨file, position⟩, hFile, rfl⟩ := List.mem_map.mp hSpot
    rw [List.mk_mem_zipIdx_iff_getElem?] at hFile
    have hFolder := (List.mem_filter.mp (List.mem_of_getElem? hFile)).2
    exact ⟨hNames, of_decide_eq_true hFolder, rfl, rfl, rfl, hFile⟩

theorem map_snd_spotsOf (files : List (Record × Nat)) (cut : List (List String)) (site : Site) :
    (spotsOf files cut site).map Prod.snd =
      if site.names ∈ cut then [] else files.filter (folder · = site.names) := by
  rw [spotsOf]
  split
  · rfl
  · rw [List.map_map]
    exact List.zipIdx_map_fst 0 _

/-- All spots of a tree with their files, in the order of leaving out. -/
def spots (files : List (Record × Nat)) (cut : List (List String)) :
    List (Droppable × (Record × Nat)) :=
  ((pruned files cut []).sites.flatMap (spotsOf files cut)).mergeSort fun a b => a.1.before b.1

theorem candidates_eq (hNumbered : (files.map Prod.snd).Nodup)
    (hCut : ∀ names ∈ cut, IsLeaf files names) :
    ((pruned files cut []).walk.flatMap Visit.droppables).mergeSort Droppable.before =
      (spots files cut).map Prod.fst := by
  rw [spots, List.map_mergeSort (s := Droppable.before) (fun _ _ _ _ => rfl), List.map_flatMap,
    ← DirTree.map_visit_sites, List.flatMap_map]
  exact congrArg (List.mergeSort · Droppable.before)
    (List.flatMap_congr fun site hSite => droppables_eq hNumbered hCut hSite)

theorem exists_site_of_mem_spots {spot : Droppable × (Record × Nat)}
    (hSpot : spot ∈ spots files cut) :
    ∃ site ∈ (pruned files cut []).sites, spot ∈ spotsOf files cut site := by
  rw [spots, List.mem_mergeSort, List.mem_flatMap] at hSpot
  exact hSpot

theorem located_of_mem_spots {spot : Droppable × (Record × Nat)}
    (hSpot : spot ∈ spots files cut) : Located files cut spot.1 spot.2 := by
  obtain ⟨site, hSite, hSpot⟩ := exists_site_of_mem_spots hSpot
  obtain ⟨hNames, _, hChain, _, _, hFile⟩ := of_mem_spotsOf hSpot
  obtain ⟨origin, hOrigin, hSame, hOriginChain, _⟩ := exists_origin hSite
  rw [← hSame] at hNames hFile
  exact ⟨origin, hOrigin, hNames, hOriginChain.trans hChain.symm, hFile⟩

/-- The spots of a tree with all leaves truncated are those of the files
outside the leaves. -/
theorem map_snd_spots_perm (files : List (Record × Nat)) :
    ((spots files (leaves files)).map Prod.snd).Perm
      (files.filter fun file => !decide (IsLeaf files (folder file))) := by
  refine ((List.mergeSort_perm _ _).map Prod.snd).trans ?_
  have hPick : ((pruned files (leaves files) []).sites.flatMap (spotsOf files (leaves files))).map
        Prod.snd =
      ((pruned files (leaves files) []).sites.map Site.names).flatMap fun names =>
        (files.filter fun file => !decide (IsLeaf files (folder file))).filter
          (folder · = names) := by
    rw [List.map_flatMap, List.flatMap_map]
    apply List.flatMap_congr
    intro site _
    rw [map_snd_spotsOf, List.filter_filter]
    by_cases hLeaf : IsLeaf files site.names
    · rw [if_pos ((mem_leaves_iff files _).mpr hLeaf), eq_comm, List.filter_eq_nil_iff]
      rintro file _ hFile
      simp only [Bool.and_eq_true, decide_eq_true_eq, Bool.not_eq_true',
        decide_eq_false_iff_not] at hFile
      exact hFile.2 (hFile.1 ▸ hLeaf)
    · rw [if_neg fun h => hLeaf ((mem_leaves_iff files _).mp h)]
      apply List.filter_congr
      intro file _
      by_cases hFolder : folder file = site.names
      · simp [hFolder, hLeaf]
      · simp [hFolder]
  rw [hPick]
  exact flatMap_names_perm _ _ (List.filter_subset_self _)

theorem Droppable.before_iff (a b : Droppable) :
    a.before b = true ↔ b.cost < a.cost ∨ a.cost = b.cost ∧ a.path ≤ b.path := by
  simp only [Droppable.before, Bool.or_eq_true, Bool.and_eq_true, decide_eq_true_eq, beq_iff_eq,
    Bool.not_eq_true', decide_eq_false_iff_not, not_lt]

/-- Of spots with equal costs and paths the one whose file was planned first
is met first. -/
theorem pairwise_ties (hNumbered : (files.map Prod.snd).Pairwise (· < ·))
    (cut : List (List String)) :
    ((pruned files cut []).sites.flatMap (spotsOf files cut)).Pairwise fun a b =>
      b.1.before a.1 → a.1.before b.1 → a.2.2 < b.2.2 := by
  rw [List.pairwise_flatMap]
  constructor
  · intro site _
    have hOrder : ((spotsOf files cut site).map Prod.snd).Pairwise fun a b => a.2 < b.2 := by
      rw [map_snd_spotsOf]
      split
      · exact List.Pairwise.nil
      · exact (List.pairwise_map.mp hNumbered).filter _
    exact (List.pairwise_map.mp hOrder).imp fun h _ _ => h
  · refine (pairwise_sites_pruned files cut []).imp ?_
    intro site other hLess a hA b hB hBack hForth
    -- files of one path lie in one directory
    obtain ⟨_, hFolderA, _, _, hPathA, _⟩ := of_mem_spotsOf hA
    obtain ⟨_, hFolderB, _, _, hPathB, _⟩ := of_mem_spotsOf hB
    rw [Droppable.before_iff] at hBack hForth
    have hPaths : a.1.path = b.1.path := by
      rcases hBack with hBack | hBack <;> rcases hForth with hForth | hForth
      all_goals first | omega | exact le_antisymm hForth.2 hBack.2
    have hFolders : folder a.2 = folder b.2 := by
      rw [folder, folder, ← hPathA, ← hPathB, hPaths]
    exact absurd (hFolderA.symm.trans (hFolders.trans hFolderB)) (ne_of_lt hLess)

/-- The files that may be left out come in the order of their ranking. -/
theorem map_snd_spots (hNumbered : (files.map Prod.snd).Pairwise (· < ·)) :
    (spots files (leaves files)).map Prod.snd = outside files := by
  refine eq_of_perm_of_costlier
    ((map_snd_spots_perm files).trans (outside_perm files).symm) ?_
    (pairwise_outside files (hNumbered.imp fun h => ne_of_lt h))
  have hTies := pairwise_mergeSort_ties ?_ ?_ (pairwise_ties hNumbered (leaves files))
  · refine List.pairwise_map.mpr (List.Pairwise.imp_of_mem ?_ hTies)
    rintro a b hA hB ⟨hForth, hTie⟩
    obtain ⟨_, _, hA⟩ := exists_site_of_mem_spots hA
    obtain ⟨_, _, hB⟩ := exists_site_of_mem_spots hB
    obtain ⟨_, _, _, hCostA, hPathA, _⟩ := of_mem_spotsOf hA
    obtain ⟨_, _, _, hCostB, hPathB, _⟩ := of_mem_spotsOf hB
    simp only [Droppable.before_iff, hCostA, hCostB, hPathA, hPathB] at hForth hTie
    rcases hForth with hCost | ⟨hCost, hPath⟩
    · exact Or.inl hCost
    · refine Or.inr ⟨hCost, Prod.Lex.toLex_lt_toLex.mpr ?_⟩
      rcases lt_or_eq_of_le hPath with hPath | hPath
      · exact Or.inl hPath
      · exact Or.inr ⟨hPath, hTie (Or.inr ⟨hCost.symm, hPath.ge⟩) (Or.inr ⟨hCost, hPath.le⟩)⟩
  · intro a b c hFirst hSecond
    simp only [Droppable.before_iff] at hFirst hSecond ⊢
    rcases hFirst with hFirst | ⟨hFirst, hPath⟩ <;>
      rcases hSecond with hSecond | ⟨hSecond, hPath'⟩
    · exact Or.inl (hSecond.trans hFirst)
    · exact Or.inl (hSecond ▸ hFirst)
    · exact Or.inl (hFirst ▸ hSecond)
    · exact Or.inr ⟨hFirst.trans hSecond, hPath.trans hPath'⟩
  · intro a b
    simp only [Bool.or_eq_true, Droppable.before_iff]
    rcases lt_trichotomy a.1.cost b.1.cost with h | h | h
    · exact Or.inr (Or.inl h)
    · rcases le_total a.1.path b.1.path with hPath | hPath
      · exact Or.inl (Or.inr ⟨h, hPath⟩)
      · exact Or.inr (Or.inr ⟨h.symm, hPath⟩)
    · exact Or.inl (Or.inl h)

theorem dropFiles_eq_foldl (limit : Nat) (tree : DirTree) :
    dropFiles limit tree =
      ((tree.walk.flatMap Visit.droppables).mergeSort Droppable.before).foldl
        (dropStep limit) tree :=
  rfl

/-- Once all leaves are truncated, files outside them are left out in the
order of their ranking until it is enough. -/
theorem dropFiles_pruned (hNumbered : (files.map Prod.snd).Pairwise (· < ·)) (limit : Nat) :
    dropFiles limit (pruned files (leaves files) []) =
      pruned files (leaves files)
        (takeUntil (leftSuffices files limit (leaves files)) [] (outside files)) := by
  have hNodup : (files.map Prod.snd).Nodup := hNumbered.imp fun h => ne_of_lt h
  have hCut := fun names => (mem_leaves_iff files names).mp
  have hSpots : List.Forall₂ (Located files (leaves files)) ((spots files (leaves files)).map
      Prod.fst) (outside files) := by
    rw [← map_snd_spots hNumbered, List.forall₂_map_left_iff, List.forall₂_map_right_iff,
      List.forall₂_same]
    exact fun spot hSpot => located_of_mem_spots hSpot
  have hOutside : (outside files).Nodup :=
    (outside_perm files).nodup_iff.mpr ((List.Nodup.of_map _ hNodup).filter _)
  rw [dropFiles_eq_foldl, candidates_eq hNodup hCut,
    foldl_dropStep_pruned hNodup hCut limit hSpots (List.nil_subset _) hOutside, List.nil_append]

end SymbolMap.Plan
