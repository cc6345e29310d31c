import Mathlib.Data.List.Perm.Subperm
import SymbolMap.Proofs.Plan.Dropping

/-! What a plan shows. The directories to truncate and the files to leave out
are determined by the planned files and the budget alone, and every part of a
plan is read off them. -/
namespace SymbolMap.Plan

open SymbolMap.Path

section Fitting

/-- The directories that a budget makes a map truncate, in the order of
truncation. -/
def cutFor (budget : Budget) (files : List (Record × Nat)) : List (List String) :=
  match budget.limit? with
  | none => []
  | some limit => takeUntil (cutSuffices files limit) [] (leaves files)

/-- The files that a budget makes a map leave out, in this order. -/
def leftFor (budget : Budget) (files : List (Record × Nat)) : List (Record × Nat) :=
  match budget.limit? with
  | none => []
  | some limit => takeUntil (leftSuffices files limit (cutFor budget files)) [] (outside files)

theorem isLeaf_of_mem_cutFor (budget : Budget) (files : List (Record × Nat)) :
    ∀ names ∈ cutFor budget files, IsLeaf files names := by
  intro names hMem
  rw [cutFor] at hMem
  split at hMem
  · simp at hMem
  · exact (mem_leaves_iff files names).mp ((takeUntil_isPrefix ..).subset hMem)

theorem leftFor_isPrefix (budget : Budget) (files : List (Record × Nat)) :
    leftFor budget files <+: outside files := by
  rw [leftFor]
  split
  · exact List.nil_prefix
  · exact takeUntil_isPrefix ..

theorem leftFor_subset (budget : Budget) (files : List (Record × Nat)) :
    leftFor budget files ⊆ files := by
  intro file hMem
  exact ((mem_outside_iff files file).mp ((leftFor_isPrefix budget files).subset hMem)).1

/-- No file is left out of a directory that is truncated. -/
theorem folder_not_mem_cutFor {budget : Budget} {files : List (Record × Nat)}
    {file : Record × Nat} (hFile : file ∈ leftFor budget files) :
    folder file ∉ cutFor budget files := by
  intro hCut
  have hOutside := (mem_outside_iff files file).mp ((leftFor_isPrefix budget files).subset hFile)
  exact hOutside.2 (isLeaf_of_mem_cutFor budget files _ hCut)

theorem nodup_leftFor {files : List (Record × Nat)}
    (hNumbered : (files.map Prod.snd).Pairwise (· < ·)) (budget : Budget) :
    (leftFor budget files).Nodup := by
  have hFiles : files.Nodup := List.Nodup.of_map _ (hNumbered.imp fun h => ne_of_lt h)
  exact ((outside_perm files).nodup_iff.mpr (hFiles.filter _)).sublist
    (leftFor_isPrefix budget files).sublist

/-- No more rounds are needed than the tree has directories. -/
theorem length_leaves_le_size (files : List (Record × Nat)) :
    (leaves files).length ≤ (treeOf files).size := by
  have hNames : leaves files ⊆ (pruned files [] []).sites.map Site.names := by
    intro names hMem
    obtain ⟨_, ⟨file, hFile, hFolder⟩, _⟩ := (mem_leaves_iff files names).mp hMem
    exact List.mem_map.mpr ((exists_site_pruned_iff files [] [] names).mpr
      (Or.inr ⟨file, hFile, hFolder ▸ List.prefix_rfl⟩))
  have hWalk := Forest.map_dir_id_walk (pruned files [] []).toForest []
  rw [DirTree.walk_toForest, DirTree.ids_toForest, ← DirTree.map_visit_sites] at hWalk
  have hSize := congrArg List.length hWalk
  rw [List.length_map, List.length_map, DirTree.length_ids, ← treeOf_eq_pruned] at hSize
  have hFewer := (List.subperm_of_subset (nodup_leaves files) hNames).length_le
  rwa [List.length_map, ← treeOf_eq_pruned, hSize] at hFewer

/-- Fitting the tree of some files truncates and leaves out what the budget
asks for. -/
theorem fit_treeOf {files : List (Record × Nat)}
    (hNumbered : (files.map Prod.snd).Pairwise (· < ·)) (budget : Budget) :
    fit budget (treeOf files) =
      (pruned files (cutFor budget files) (leftFor budget files),
        (cutFor budget files).map ofNames) := by
  have hNodup : (files.map Prod.snd).Nodup := hNumbered.imp fun h => ne_of_lt h
  cases hLimit : budget.limit? with
  | none => simp [fit, cutFor, leftFor, hLimit, treeOf_eq_pruned]
  | some limit =>
      have hTruncate := truncateLeaves_pruned hNodup limit (List.nil_append (leaves files)).symm
        (length_leaves_le_size files)
      have hCut : cutFor budget files = takeUntil (cutSuffices files limit) [] (leaves files) := by
        simp [cutFor, hLimit]
      rw [List.nil_append, ← hCut, ← treeOf_eq_pruned] at hTruncate
      simp only [fit, hLimit, hTruncate, leftFor, Prod.mk.injEq, and_true]
      have hLeaf := isLeaf_of_mem_cutFor budget files
      -- either the first phase was enough, or it went through all leaves
      rcases (shortestPrefix_takeUntil (cutSuffices files limit) (leaves files)).enough_or_eq with
        hEnough | hAll
      · rw [← hCut, cutSuffices, decide_eq_true_eq] at hEnough
        have hTotal := total_pruned hNodup hLeaf (List.nil_subset files)
        rw [dropFiles_eq_foldl, foldl_dropStep_of_le (hTotal.trans_le hEnough),
          takeUntil_of_enough (by simpa [leftSuffices] using hEnough)]
      · rw [hCut, hAll, dropFiles_pruned hNumbered]

end Fitting

section Reading

variable {files : List (Record × Nat)} {cut : List (List String)} {left : List (Record × Nat)}

/-- The entry of a shown file when some directories are truncated. -/
def entryOf (cut : List (List String)) (file : Record × Nat) : Entry :=
  { index := file.2
    path := file.1.path
    status := if folder file ∈ cut then .truncated else .full }

theorem status_entryOf_ne (cut : List (List String)) (file : Record × Nat) :
    (entryOf cut file).status ≠ .skipped := by
  by_cases hCut : folder file ∈ cut <;> simp [entryOf, hCut]

theorem status_entryOf_eq_truncated_iff (cut : List (List String)) (file : Record × Nat) :
    (entryOf cut file).status = .truncated ↔ folder file ∈ cut := by
  by_cases hCut : folder file ∈ cut <;> simp [entryOf, hCut]

theorem status_entryOf_eq_full_iff (cut : List (List String)) (file : Record × Nat) :
    (entryOf cut file).status = .full ↔ folder file ∉ cut := by
  by_cases hCut : folder file ∈ cut <;> simp [entryOf, hCut]

theorem status_of_mem_skippedEntries {options : Options} {records : List (Record × Nat)}
    {entry : Entry} (hEntry : entry ∈ skippedEntries options records) :
    entry.status = .skipped := by
  obtain ⟨_, _, rfl⟩ := List.mem_map.mp hEntry
  rfl

/-- What is charged is charged for the files that are shown. -/
theorem chargeAll_eq_sum_shown (files : List (Record × Nat))
    (hKept : ∀ file ∈ left, folder file ∉ cut) :
    chargeAll files cut left =
      ((files.filter (· ∉ left)).map fun file =>
        if folder file ∈ cut then placeholderLines else file.1.cost).sum := by
  induction files with
  | nil => rfl
  | cons file files ih =>
      rw [chargeAll, List.map_cons, List.sum_cons, ← chargeAll, ih]
      by_cases hLeft : file ∈ left
      · simp [charge, hLeft, hKept file hLeft]
      · simp [charge, hLeft]

/-- A walk that reads some of the files in each directory reads them all. -/
theorem flatMap_walk_perm {β : Type} {items : List (Record × Nat)} (hItems : items ⊆ files)
    {f : Record × Nat → β} {g : Visit → List β}
    (hRead : ∀ site ∈ (pruned files cut left).sites,
      g site.visit = (items.filter (folder · = site.names)).map f) :
    ((pruned files cut left).walk.flatMap g).Perm (items.map f) := by
  rw [← DirTree.map_visit_sites, List.flatMap_map, List.flatMap_congr hRead]
  have hShare := (flatMap_names_perm cut left hItems).map f
  rwa [List.map_flatMap, List.flatMap_map] at hShare

/-- The entries of a pruned tree are those of the files that are not left
out. -/
theorem entries_perm (hNumbered : (files.map Prod.snd).Nodup)
    (hCut : ∀ names ∈ cut, IsLeaf files names) (hLeft : left ⊆ files) :
    ((pruned files cut left).walk.flatMap Visit.entries).Perm
      ((files.filter (· ∉ left)).map (entryOf cut)) := by
  refine flatMap_walk_perm (List.filter_subset_self _) fun site hSite => ?_
  have hSeen := seen_of_mem_sites hNumbered hCut hLeft hSite
  rw [Visit.entries, hSeen.holds, hSeen.truncated, List.filter_map, List.map_map, List.filter_comm]
  have hShown : ((fun file : PlacedFile => !file.dropped) ∘ placedWithout left) =
      fun file => decide (file ∉ left) := by
    funext file
    simp [placedWithout]
  rw [hShown]
  apply List.map_congr_left
  intro file hFile
  have hFolder : folder file = site.names :=
    of_decide_eq_true (List.mem_filter.mp hFile).2
  simp [entryOf, placedWithout, placed, hFolder]

theorem filter_mem_left_perm (hNumbered : (files.map Prod.snd).Nodup) (hLeft : left ⊆ files)
    (hNodup : left.Nodup) : (files.filter (· ∈ left)).Perm left := by
  refine (List.perm_ext_iff_of_nodup ((List.Nodup.of_map _ hNumbered).filter _) hNodup).mpr ?_
  intro file
  simp only [List.mem_filter, decide_eq_true_eq, and_iff_right_iff_imp]
  exact fun hFile => hLeft hFile

/-- The paths that a pruned tree leaves out are those of the files left
out. -/
theorem droppedPaths_perm (hNumbered : (files.map Prod.snd).Nodup)
    (hCut : ∀ names ∈ cut, IsLeaf files names) (hLeft : left ⊆ files) (hNodup : left.Nodup) :
    ((pruned files cut left).walk.flatMap Visit.droppedPaths).Perm (left.map (·.1.path)) := by
  have hSame := filter_mem_left_perm hNumbered hLeft hNodup
  refine (flatMap_walk_perm (List.filter_subset_self _) fun site hSite => ?_).trans (hSame.map _)
  have hSeen := seen_of_mem_sites hNumbered hCut hLeft hSite
  rw [Visit.droppedPaths, hSeen.holds, List.filter_map, List.map_map, List.filter_comm]
  rfl

end Reading

section Outcome

theorem Entry.before_iff (a b : Entry) :
    a.before b = true ↔ a.path < b.path ∨ a.path = b.path ∧ a.index ≤ b.index := by
  simp only [Entry.before, Bool.or_eq_true, Bool.and_eq_true, decide_eq_true_eq, beq_iff_eq]

/-- Sorted entries are in the order of their paths and positions. -/
theorem pairwise_mergeSort_before (entries : List Entry) :
    (entries.mergeSort Entry.before).Pairwise fun a b => a.before b = true := by
  apply List.pairwise_mergeSort
  · intro a b c hFirst hSecond
    rw [Entry.before_iff] at hFirst hSecond ⊢
    rcases hFirst with hFirst | ⟨hFirst, hIndex⟩ <;>
      rcases hSecond with hSecond | ⟨hSecond, hIndex'⟩
    · exact Or.inl (hFirst.trans hSecond)
    · exact Or.inl (hSecond ▸ hFirst)
    · exact Or.inl (hFirst ▸ hSecond)
    · exact Or.inr ⟨hFirst.trans hSecond, hIndex.trans hIndex'⟩
  · intro a b
    rw [Bool.or_eq_true, Entry.before_iff, Entry.before_iff]
    rcases lt_trichotomy a.path b.path with h | h | h
    · exact Or.inl (Or.inl h)
    · rcases le_total a.index b.index with hIndex | hIndex
      · exact Or.inl (Or.inr ⟨h, hIndex⟩)
      · exact Or.inr (Or.inr ⟨h.symm, hIndex⟩)
    · exact Or.inr (Or.inl h)

/-- Sorting entries with different positions forgets in what order they
came. -/
theorem mergeSort_before_eq_of_perm {first second : List Entry} (hPerm : first.Perm second)
    (hNodup : (first.map Entry.index).Nodup) :
    first.mergeSort Entry.before = second.mergeSort Entry.before := by
  have hSame := (List.mergeSort_perm first Entry.before).trans
    (hPerm.trans (List.mergeSort_perm second Entry.before).symm)
  refine hSame.eq_of_pairwise ?_ (pairwise_mergeSort_before first)
    (pairwise_mergeSort_before second)
  intro a b hA hB hForth hBack
  rw [Entry.before_iff] at hForth hBack
  have hIndex : a.index = b.index := by
    rcases hForth with hForth | ⟨hForth, hLe⟩ <;> rcases hBack with hBack | ⟨hBack, hGe⟩
    · exact absurd hBack (lt_asymm hForth)
    · exact absurd hForth (by rw [hBack]; exact lt_irrefl _)
    · exact absurd hBack (by rw [hForth]; exact lt_irrefl _)
    · exact le_antisymm hLe hGe
  exact List.inj_on_of_nodup_map hNodup (List.mem_mergeSort.mp hA)
    (hPerm.mem_iff.mpr (List.mem_mergeSort.mp hB)) hIndex

theorem pairwise_sorted (texts : List String) : (sorted texts).Pairwise (· ≤ ·) := by
  have hSorted : (sorted texts).Pairwise fun a b => (!decide (b < a)) = true := by
    apply List.pairwise_mergeSort
    · intro a b c
      simp only [Bool.not_eq_true', decide_eq_false_iff_not, not_lt]
      exact le_trans
    · intro a b
      simp only [Bool.or_eq_true, Bool.not_eq_true', decide_eq_false_iff_not, not_lt]
      exact le_total a b
  refine hSorted.imp fun h => ?_
  simpa only [Bool.not_eq_true', decide_eq_false_iff_not, not_lt] using h

theorem sorted_perm (texts : List String) : (sorted texts).Perm texts :=
  List.mergeSort_perm _ _

theorem sorted_eq_of_perm {first second : List String} (hPerm : first.Perm second) :
    sorted first = sorted second :=
  ((sorted_perm first).trans (hPerm.trans (sorted_perm second).symm)).eq_of_pairwise
    (fun _ _ _ _ => le_antisymm) (pairwise_sorted first) (pairwise_sorted second)

theorem pairwise_plannedRecords (options : Options) (records : List Record) :
    ((plannedRecords options records.zipIdx).map Prod.snd).Pairwise (· < ·) := by
  have hAll : (records.zipIdx.map Prod.snd).Pairwise (· < ·) := by
    rw [List.zipIdx_map_snd]
    exact List.pairwise_lt_range'
  exact hAll.sublist ((List.filter_sublist).map Prod.snd)

theorem nodup_plannedRecords (options : Options) (records : List Record) :
    ((plannedRecords options records.zipIdx).map Prod.snd).Nodup :=
  (pairwise_plannedRecords options records).imp fun h => ne_of_lt h

/-- A file is listed at most once, as skipped or as shown. -/
theorem nodup_indices (options : Options) (records : List Record) (cut : List (List String))
    (left : List (Record × Nat)) :
    ((skippedEntries options records.zipIdx ++
      ((plannedRecords options records.zipIdx).filter (· ∉ left)).map (entryOf cut)).map
        Entry.index).Nodup := by
  have hAll : (records.zipIdx.map Prod.snd).Nodup := by
    rw [List.zipIdx_map_snd]
    exact List.nodup_range'
  rw [List.map_append, skippedEntries, List.map_map, List.map_map]
  refine List.nodup_append.mpr ⟨?_, ?_, ?_⟩
  · exact hAll.sublist ((List.filter_sublist).map Prod.snd)
  · exact hAll.sublist (((List.filter_sublist).trans (List.filter_sublist)).map Prod.snd)
  · intro index hSkipped index' hShown
    obtain ⟨a, hA, rfl⟩ := List.mem_map.mp hSkipped
    obtain ⟨b, hB, rfl⟩ := List.mem_map.mp hShown
    obtain ⟨hA, hChosen⟩ := List.mem_filter.mp hA
    obtain ⟨hB, hShown⟩ := List.mem_filter.mp (List.mem_filter.mp hB).1
    intro hIndex
    rw [List.inj_on_of_nodup_map hAll hA hB hIndex] at hChosen
    simp_all

/-- The parts of a plan. -/
theorem plan_eq (records : List Record) (options : Options) {files : List (Record × Nat)}
    (hFiles : plannedRecords options records.zipIdx = files) :
    plan records options =
      { entries := (skippedEntries options records.zipIdx ++
          (files.filter (· ∉ leftFor options.budget files)).map
            (entryOf (cutFor options.budget files))).mergeSort Entry.before
        truncatedDirs := sorted ((cutFor options.budget files).map ofNames)
        dropped := sorted ((leftFor options.budget files).map (·.1.path))
        totalCost :=
          wrap (chargeAll files (cutFor options.budget files) (leftFor options.budget files))
        budget := options.budget } := by
  subst hFiles
  have hPlanned := pairwise_plannedRecords options records
  have hNodup := nodup_plannedRecords options records
  have hCut := isLeaf_of_mem_cutFor options.budget (plannedRecords options records.zipIdx)
  have hLeft := leftFor_subset options.budget (plannedRecords options records.zipIdx)
  have hOnce := nodup_leftFor hPlanned options.budget
  simp only [plan, fit_treeOf hPlanned, total_pruned hNodup hCut hLeft]
  congr 1
  · refine mergeSort_before_eq_of_perm ((entries_perm hNodup hCut hLeft).append_left _) ?_
    have hPerm := (entries_perm hNodup hCut hLeft).append_left
      (skippedEntries options records.zipIdx)
    exact (hPerm.map Entry.index).nodup_iff.mpr (nodup_indices options records _ _)
  · exact sorted_eq_of_perm (droppedPaths_perm hNodup hCut hLeft hOnce)

end Outcome

section Least

/-- The walk of the tree of some files meets one directory before another. -/
def MetBefore (files : List (Record × Nat)) (a b : List String) : Prop :=
  [ofNames a, ofNames b].Sublist ((treeOf files).walk.map (·.dir.path))

theorem sublist_of_lt {α : Type} [LinearOrder α] {items : List α} (hSorted : items.Pairwise (· < ·))
    {a b : α} (hA : a ∈ items) (hB : b ∈ items) (hLess : a < b) : [a, b].Sublist items := by
  obtain ⟨before, after, rfl⟩ := List.append_of_mem hA
  rw [List.pairwise_append] at hSorted
  have hAfter : b ∈ after := by
    rcases List.mem_append.mp hB with hB | hB
    · exact absurd (hSorted.2.2 b hB a List.mem_cons_self) (lt_asymm hLess)
    · exact (List.mem_cons.mp hB).resolve_left (ne_of_gt hLess)
  exact (List.cons_sublist_cons.mpr (List.singleton_sublist.mpr hAfter)).trans
    (List.sublist_append_right _ _)

/-- The order of names is that of the walk. -/
theorem metBefore_of_lt {files : List (Record × Nat)} (hNumbered : (files.map Prod.snd).Nodup)
    {a b : List String} (hA : IsLeaf files a) (hB : IsLeaf files b) (hLess : a < b) :
    MetBefore files a b := by
  have hMet : ∀ {names}, IsLeaf files names →
      names ∈ (pruned files [] []).sites.map Site.names := by
    rintro names ⟨_, ⟨file, hFile, hFolder⟩, _⟩
    exact List.mem_map.mpr ((exists_site_pruned_iff files [] [] names).mpr
      (Or.inr ⟨file, hFile, hFolder ▸ List.prefix_rfl⟩))
  have hPaths : (treeOf files).walk.map (·.dir.path) =
      ((pruned files [] []).sites.map Site.names).map ofNames := by
    rw [treeOf_eq_pruned, ← DirTree.map_visit_sites, List.map_map, List.map_map]
    exact List.map_congr_left fun site hSite =>
      (seen_of_mem_sites hNumbered (by simp) (List.nil_subset _) hSite).path
  rw [MetBefore, hPaths]
  have hOrder := List.pairwise_map.mpr (pairwise_sites_pruned files [] [])
  exact (sublist_of_lt hOrder (hMet hA) (hMet hB) hLess).map ofNames

/-- A plan shows some files with exactly the directories `cut` truncated and
exactly the files `left` left out. -/
structure Shows (files : List (Record × Nat)) (cut : List (List String))
    (left : List (Record × Nat)) (plan : MapPlan) : Prop where
  truncatedDirs : plan.truncatedDirs.Perm (cut.map ofNames)
  dropped : plan.dropped.Perm (left.map (·.1.path))
  entries : (plan.entries.filter (·.status ≠ .skipped)).Perm
    ((files.filter (· ∉ left)).map (entryOf cut))
  totalCost : plan.totalCost = wrap (chargeAll files cut left)

theorem shows_plan (records : List Record) (options : Options) {files : List (Record × Nat)}
    (hFiles : plannedRecords options records.zipIdx = files) :
    Shows files (cutFor options.budget files) (leftFor options.budget files)
      (plan records options) := by
  rw [plan_eq records options hFiles]
  refine ⟨sorted_perm _, sorted_perm _, ?_, rfl⟩
  refine ((List.mergeSort_perm _ _).filter _).trans ?_
  have hSkipped : (skippedEntries options records.zipIdx).filter (·.status ≠ .skipped) = [] := by
    rw [List.filter_eq_nil_iff]
    intro entry hEntry
    simp [status_of_mem_skippedEntries hEntry]
  have hShown : ((files.filter (· ∉ leftFor options.budget files)).map
        (entryOf (cutFor options.budget files))).filter (·.status ≠ .skipped) =
      (files.filter (· ∉ leftFor options.budget files)).map
        (entryOf (cutFor options.budget files)) := by
    rw [List.filter_eq_self]
    intro entry hEntry
    obtain ⟨file, _, rfl⟩ := List.mem_map.mp hEntry
    simpa using status_entryOf_ne _ file
  rw [List.filter_append, hSkipped, hShown, List.nil_append]

/-- What a budget asks for. Without a limit nothing is pruned. Else the
shortest prefix of the ranked leaves that brings the lines within the limit
is truncated, or all leaves; and if that is not enough, the shortest prefix
of the ranked files outside leaves is left out, or all of these files. -/
def Fits (files : List (Record × Nat)) (cut : List (List String))
    (left : List (Record × Nat)) : Budget → Prop
  | .unlimited => cut = [] ∧ left = []
  | .lines limit =>
    ShortestPrefix (fun cut => wrap (chargeAll files cut []) ≤ limit) (leaves files) cut ∧
      if wrap (chargeAll files cut []) ≤ limit then left = []
      else
        ShortestPrefix (fun left => wrap (chargeAll files (leaves files) left) ≤ limit)
          (outside files) left

theorem fits_cutFor_leftFor (files : List (Record × Nat)) (budget : Budget) :
    Fits files (cutFor budget files) (leftFor budget files) budget := by
  cases budget with
  | unlimited => exact ⟨rfl, rfl⟩
  | lines limit =>
      have hCut := shortestPrefix_takeUntil (cutSuffices files limit) (leaves files)
      have hLeft := shortestPrefix_takeUntil
        (leftSuffices files limit (cutFor (.lines limit) files)) (outside files)
      have hAll := hCut.enough_or_eq
      simp only [cutSuffices, leftSuffices, decide_eq_true_eq] at hCut hLeft hAll
      refine ⟨hCut, ?_⟩
      split
      · rename_i hEnough
        exact takeUntil_of_enough (by simpa [leftSuffices] using hEnough) _
      · rename_i hMore
        have hSame : cutFor (.lines limit) files = leaves files := hAll.resolve_left hMore
        rw [hSame] at hLeft
        simpa only [leftFor, Budget.limit?, hSame] using hLeft

end Least

end SymbolMap.Plan
