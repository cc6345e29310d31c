import Mathlib
import SymbolMap.Proofs.Plan.Accounts

/-! Planning forgets the order of its input. Positions in the input number the
directories and break ties between files, but a tie is only between files
with one path and one cost, so which of them is left out does not show. -/
namespace SymbolMap.Plan

open SymbolMap.Path

section TakeUntil

variable {α β : Type}

/-- Taking items one after the other sees of them only what decides whether
they are enough. -/
theorem map_takeUntil_eq {f : α → β} {enough enough' : List α → Bool} {items items' : List α}
    (taken taken' : List α) (hItems : items.map f = items'.map f)
    (hEnough : ∀ count,
      enough (taken ++ items.take count) = enough' (taken' ++ items'.take count)) :
    (takeUntil enough taken items).map f = (takeUntil enough' taken' items').map f := by
  induction items generalizing items' taken taken' with
  | nil =>
      rw [List.map_nil, eq_comm, List.map_eq_nil_iff] at hItems
      rw [hItems]
      rfl
  | cons item items ih =>
      cases items' with
      | nil => simp at hItems
      | cons item' items' =>
          rw [List.map_cons, List.map_cons, List.cons.injEq] at hItems
          have hNow : enough taken = enough' taken' := by simpa using hEnough 0
          rw [takeUntil, takeUntil, hNow]
          split
          · rfl
          · rw [List.map_cons, List.map_cons, hItems.1]
            congr 1
            apply ih _ _ hItems.2
            intro count
            simpa using hEnough (count + 1)

end TakeUntil

section SameRecords

variable {files files' : List (Record × Nat)}

theorem isLeaf_iff_map_fst (files : List (Record × Nat)) (names : List String) :
    IsLeaf files names ↔ names ≠ [] ∧
      (∃ record ∈ files.map Prod.fst, directory record.path = names) ∧
      ∀ record ∈ files.map Prod.fst, names <+: directory record.path →
        directory record.path = names := by
  simp only [IsLeaf, folder, List.forall_mem_map]
  simp only [List.mem_map, exists_exists_and_eq_and]

theorem isLeaf_iff_of_same (hSame : (files.map Prod.fst).Perm (files'.map Prod.fst))
    (names : List String) : IsLeaf files names ↔ IsLeaf files' names := by
  simp only [isLeaf_iff_map_fst, hSame.mem_iff]

theorem folderCost_eq_map_fst (files : List (Record × Nat)) (names : List String) :
    folderCost files names =
      wrap (((files.map Prod.fst).filter (directory ·.path = names)).map Record.cost).sum := by
  rw [folderCost, List.filter_map, List.map_map]
  rfl

theorem folderCost_of_same (hSame : (files.map Prod.fst).Perm (files'.map Prod.fst)) :
    folderCost files = folderCost files' := by
  funext names
  rw [folderCost_eq_map_fst, folderCost_eq_map_fst]
  exact congrArg wrap ((hSame.filter _).map _).sum_nat

theorem leaves_of_same (hSame : (files.map Prod.fst).Perm (files'.map Prod.fst)) :
    leaves files = leaves files' := by
  have hPerm : (leaves files).Perm (leaves files') := by
    apply (List.perm_ext_iff_of_nodup (nodup_leaves files) (nodup_leaves files')).mpr
    intro names
    rw [mem_leaves_iff, mem_leaves_iff, isLeaf_iff_of_same hSame]
  apply eq_of_perm_of_costlier hPerm (pairwise_leaves files)
  rw [folderCost_of_same hSame]
  exact pairwise_leaves files'

theorem chargeAll_nil_of_same (hSame : (files.map Prod.fst).Perm (files'.map Prod.fst))
    (cut : List (List String)) : chargeAll files cut [] = chargeAll files' cut [] := by
  have hRecords : ∀ files, chargeAll files cut [] =
      ((files.map Prod.fst).map fun record =>
        if directory record.path ∈ cut then placeholderLines else record.cost).sum := by
    intro files
    rw [chargeAll, List.map_map]
    refine congrArg List.sum (List.map_congr_left fun file _ => ?_)
    simp [charge, folder]
  rw [hRecords, hRecords]
  exact (hSame.map _).sum_nat

/-- Both inputs make a map truncate the same directories. -/
theorem cutFor_of_same (hSame : (files.map Prod.fst).Perm (files'.map Prod.fst))
    (budget : Budget) : cutFor budget files = cutFor budget files' := by
  have hSuffices : ∀ limit, cutSuffices files limit = cutSuffices files' limit := by
    intro limit
    funext cut
    rw [cutSuffices, cutSuffices, chargeAll_nil_of_same hSame]
  simp only [cutFor, hSuffices, leaves_of_same hSame]

/-- The files outside leaves rank the same as records: where the ranking goes
by position the records are equal. -/
theorem map_fst_outside_of_same (hSame : (files.map Prod.fst).Perm (files'.map Prod.fst))
    (hNumbered : (files.map Prod.snd).Nodup) (hNumbered' : (files'.map Prod.snd).Nodup) :
    (outside files).map Prod.fst = (outside files').map Prod.fst := by
  have hRecords : ∀ files : List (Record × Nat), ((outside files).map Prod.fst).Perm
      ((files.map Prod.fst).filter fun record => !decide (IsLeaf files (directory record.path))) := by
    intro files
    rw [List.filter_map]
    exact (outside_perm files).map Prod.fst
  have hRanked : ∀ {files : List (Record × Nat)}, (files.map Prod.snd).Nodup →
      ((outside files).map Prod.fst).Pairwise fun a b =>
        b.cost < a.cost ∨ a.cost = b.cost ∧ a.path ≤ b.path := by
    intro files hNumbered
    rw [List.pairwise_map]
    refine (pairwise_outside files hNumbered).imp fun hRank => hRank.imp_right ?_
    rintro ⟨hCost, hKey⟩
    refine ⟨hCost, ?_⟩
    rcases Prod.Lex.toLex_lt_toLex.mp hKey with hPath | ⟨hPath, _⟩
    · exact hPath.le
    · exact hPath.le
  have hFilter : ((files'.map Prod.fst).filter fun record =>
        !decide (IsLeaf files (directory record.path))) =
      (files'.map Prod.fst).filter fun record =>
        !decide (IsLeaf files' (directory record.path)) := by
    simp only [isLeaf_iff_of_same hSame]
  have hPerm := (hRecords files).trans ((hSame.filter _).trans (hFilter ▸ (hRecords files').symm))
  apply hPerm.eq_of_pairwise _ (hRanked hNumbered) (hRanked hNumbered')
  intro a b _ _ hForth hBack
  have hCost : a.cost = b.cost := by omega
  have hPath : a.path = b.path := by
    rcases hForth with hForth | ⟨_, hForth⟩
    · omega
    · rcases hBack with hBack | ⟨_, hBack⟩
      · omega
      · exact le_antisymm hForth hBack
  cases a
  cases b
  simp_all

/-- Leaving files out saves what they cost. -/
theorem chargeAll_add_sum (hNumbered : (files.map Prod.snd).Nodup) {cut : List (List String)}
    {left : List (Record × Nat)} (hLeft : left ⊆ files) (hOnce : left.Nodup)
    (hKept : ∀ file ∈ left, folder file ∉ cut) :
    chargeAll files cut left + ((left.map Prod.fst).map Record.cost).sum =
      chargeAll files cut [] := by
  have hNone : ∀ file ∈ ([] : List (Record × Nat)), folder file ∉ cut := by simp
  have hSplit := (List.filter_append_perm (fun file => decide (file ∉ left)) files).map
    fun file => if folder file ∈ cut then placeholderLines else file.1.cost
  have hGone : (files.filter fun file => !decide (file ∉ left)).Perm left := by
    simpa using filter_mem_left_perm hNumbered hLeft hOnce
  have hSaved : (left.map fun file =>
        if folder file ∈ cut then placeholderLines else file.1.cost) =
      (left.map Prod.fst).map Record.cost := by
    rw [List.map_map]
    apply List.map_congr_left
    intro file hFile
    rw [if_neg (hKept file hFile)]
    rfl
  have hSum := hSplit.sum_nat
  rw [List.map_append, List.sum_append_nat, (hGone.map _).sum_nat, hSaved] at hSum
  rw [chargeAll_eq_sum_shown files hKept, chargeAll_eq_sum_shown files hNone, hSum]
  simp

theorem chargeAll_of_same (hSame : (files.map Prod.fst).Perm (files'.map Prod.fst))
    (hNumbered : (files.map Prod.snd).Nodup) (hNumbered' : (files'.map Prod.snd).Nodup)
    {cut : List (List String)} (hCut : ∀ names ∈ cut, IsLeaf files names)
    {left left' : List (Record × Nat)} (hLeft : left.Sublist (outside files))
    (hLeft' : left'.Sublist (outside files')) (hRecords : left.map Prod.fst = left'.map Prod.fst) :
    chargeAll files cut left = chargeAll files' cut left' := by
  have hOnce : ∀ {files : List (Record × Nat)}, (files.map Prod.snd).Nodup →
      (outside files).Nodup := by
    intro files hNumbered
    exact (outside_perm files).nodup_iff.mpr ((List.Nodup.of_map _ hNumbered).filter _)
  have hCut' : ∀ names ∈ cut, IsLeaf files' names := by
    intro names hNames
    exact (isLeaf_iff_of_same hSame names).mp (hCut names hNames)
  have hIn : ∀ {files : List (Record × Nat)} {file}, file ∈ outside files →
      file ∈ files ∧ ¬IsLeaf files (folder file) := fun h => (mem_outside_iff _ _).mp h
  have hKept : ∀ file ∈ left, folder file ∉ cut :=
    fun file hFile hMem => (hIn (hLeft.subset hFile)).2 (hCut _ hMem)
  have hKept' : ∀ file ∈ left', folder file ∉ cut :=
    fun file hFile hMem => (hIn (hLeft'.subset hFile)).2 (hCut' _ hMem)
  have hCharge := chargeAll_add_sum hNumbered (fun file hFile => (hIn (hLeft.subset hFile)).1)
    ((hOnce hNumbered).sublist hLeft) hKept
  have hCharge' := chargeAll_add_sum hNumbered' (fun file hFile => (hIn (hLeft'.subset hFile)).1)
    ((hOnce hNumbered').sublist hLeft') hKept'
  rw [← hRecords, ← chargeAll_nil_of_same hSame cut] at hCharge'
  omega

/-- Both inputs make a map leave out the same records. -/
theorem map_fst_leftFor_of_same (hSame : (files.map Prod.fst).Perm (files'.map Prod.fst))
    (hNumbered : (files.map Prod.snd).Nodup) (hNumbered' : (files'.map Prod.snd).Nodup)
    (budget : Budget) :
    (leftFor budget files).map Prod.fst = (leftFor budget files').map Prod.fst := by
  have hOutside := map_fst_outside_of_same hSame hNumbered hNumbered'
  rw [leftFor, leftFor]
  split
  · rfl
  · apply map_takeUntil_eq [] [] hOutside
    intro count
    have hTaken : ((outside files).take count).map Prod.fst =
        ((outside files').take count).map Prod.fst := by
      rw [List.map_take, List.map_take, hOutside]
    have hCharge := chargeAll_of_same hSame hNumbered hNumbered'
      (isLeaf_of_mem_cutFor budget files) (List.take_sublist count _) (List.take_sublist count _)
      hTaken
    rw [List.nil_append, List.nil_append, leftSuffices, leftSuffices, ← cutFor_of_same hSame,
      hCharge]

end SameRecords

section Entries

/-- The status of a listed path, when `cut` are the truncated directories. -/
def statusOf (options : Options) (cut : List (List String)) (path : String) : Status :=
  if options.choose path = .skipped then .skipped
  else if directory path ∈ cut then .truncated
  else .full

variable (records : List Record) (options : Options)

theorem status_eq_statusOf {files : List (Record × Nat)}
    (hFiles : plannedRecords options records.zipIdx = files) {entry : Entry}
    (hEntry : entry ∈ (plan records options).entries) :
    entry.status = statusOf options (cutFor options.budget files) entry.path := by
  rcases (mem_entries_plan_iff records options hFiles entry).mp hEntry with
    hSkipped | ⟨file, hFile, _, rfl⟩
  · obtain ⟨hStatus, record, _, hPath, hChosen⟩ :=
      (mem_skippedEntries_iff options records entry).mp hSkipped
    rw [hStatus, statusOf, if_pos (hPath ▸ hChosen)]
  · rw [← hFiles] at hFile
    have hShown : options.choose file.1.path = .shown :=
      of_decide_eq_true (Bool.and_eq_true_iff.mp (List.mem_filter.mp hFile).2).1
    have hListed : options.choose (entryOf (cutFor options.budget files) file).path ≠ .skipped := by
      simp [entryOf, hShown]
    rw [statusOf, if_neg hListed]
    rfl

theorem map_path_skippedEntries :
    (skippedEntries options records.zipIdx).map Entry.path =
      (records.filter fun record => options.choose record.path = .skipped).map Record.path := by
  have hRecords := congrArg (List.map Record.path) (List.filter_map (f := Prod.fst)
    (p := fun record : Record => decide (options.choose record.path = .skipped))
    (l := records.zipIdx))
  rw [List.zipIdx_map_fst] at hRecords
  rw [hRecords, skippedEntries, List.map_map, List.map_map]
  rfl

/-- The paths that a plan lists: those of the skipped records and of the
planned ones that are not left out. -/
theorem map_path_entries_perm {files : List (Record × Nat)}
    (hFiles : plannedRecords options records.zipIdx = files) :
    ((plan records options).entries.map Entry.path).Perm
      ((records.filter fun record => options.choose record.path = .skipped).map Record.path ++
        ((files.filter (· ∉ leftFor options.budget files)).map Prod.fst).map Record.path) := by
  rw [plan_eq records options hFiles, ← map_path_skippedEntries, List.map_map]
  refine ((List.mergeSort_perm _ _).map Entry.path).trans ?_
  rw [List.map_append, List.map_map]
  rfl

theorem pairwise_path_entries :
    ((plan records options).entries.map Entry.path).Pairwise (· ≤ ·) := by
  rw [List.pairwise_map]
  refine (pairwise_entries records options).imp fun hOrder => ?_
  rcases hOrder with hPath | ⟨hPath, _⟩
  · exact hPath.le
  · exact hPath.le

end Entries

section InputOrder

/-- What is shown of some files are the records that are not left out. -/
theorem shown_perm_of_same {files files' : List (Record × Nat)} {budget : Budget}
    (hSame : (files.map Prod.fst).Perm (files'.map Prod.fst))
    (hNumbered : (files.map Prod.snd).Pairwise (· < ·))
    (hNumbered' : (files'.map Prod.snd).Pairwise (· < ·)) :
    ((files.filter (· ∉ leftFor budget files)).map Prod.fst).Perm
      ((files'.filter (· ∉ leftFor budget files')).map Prod.fst) := by
  have hSplit : ∀ {files : List (Record × Nat)}, (files.map Prod.snd).Pairwise (· < ·) →
      ((leftFor budget files).map Prod.fst ++
        (files.filter (· ∉ leftFor budget files)).map Prod.fst).Perm (files.map Prod.fst) := by
    intro files hNumbered
    have hLeft := filter_mem_left_perm (hNumbered.imp fun h => ne_of_lt h)
      (leftFor_subset budget files) (nodup_leftFor hNumbered budget)
    rw [← List.map_append]
    apply List.Perm.map
    apply (hLeft.symm.append_right _).trans
    simpa using List.filter_append_perm (fun file => decide (file ∈ leftFor budget files)) files
  have hLeft := map_fst_leftFor_of_same hSame (hNumbered.imp fun h => ne_of_lt h)
    (hNumbered'.imp fun h => ne_of_lt h) budget
  have hBoth := (hSplit hNumbered).trans (hSame.trans (hSplit hNumbered').symm)
  rw [hLeft] at hBoth
  exact (List.perm_append_left_iff _).mp hBoth

/-- A plan does not depend on the order of the records, also where paths
repeat or spell one directory in several ways: the paths with their statuses,
the truncated directories, the files left out and the lines are the same. -/
theorem plan_same_of_perm {records records' : List Record} (hPerm : records.Perm records')
    (options : Options) :
    let shown := fun entry : Entry => (entry.path, entry.status)
    (plan records options).entries.map shown = (plan records' options).entries.map shown ∧
    (plan records options).truncatedDirs = (plan records' options).truncatedDirs ∧
    (plan records options).dropped = (plan records' options).dropped ∧
    (plan records options).totalCost = (plan records' options).totalCost := by
  intro shown
  generalize hFiles : plannedRecords options records.zipIdx = files
  generalize hFiles' : plannedRecords options records'.zipIdx = files'
  have hSame : (files.map Prod.fst).Perm (files'.map Prod.fst) := by
    rw [← hFiles, ← hFiles', map_fst_plannedRecords, map_fst_plannedRecords]
    exact hPerm.filter _
  have hNumbered : (files.map Prod.snd).Pairwise (· < ·) :=
    hFiles ▸ pairwise_plannedRecords options records
  have hNumbered' : (files'.map Prod.snd).Pairwise (· < ·) :=
    hFiles' ▸ pairwise_plannedRecords options records'
  have hNodup : (files.map Prod.snd).Nodup := hNumbered.imp fun h => ne_of_lt h
  have hNodup' : (files'.map Prod.snd).Nodup := hNumbered'.imp fun h => ne_of_lt h
  have hCut := cutFor_of_same hSame options.budget
  have hLeft := map_fst_leftFor_of_same hSame hNodup hNodup' options.budget
  refine ⟨?_, ?_, ?_, ?_⟩
  · have hPaths : (plan records options).entries.map Entry.path =
        (plan records' options).entries.map Entry.path := by
      refine List.Perm.eq_of_pairwise (fun _ _ _ _ => le_antisymm) (pairwise_path_entries _ _)
        (pairwise_path_entries _ _) ?_
      apply (map_path_entries_perm records options hFiles).trans
      apply List.Perm.trans _ (map_path_entries_perm records' options hFiles').symm
      exact ((hPerm.filter _).map _).append ((shown_perm_of_same hSame hNumbered hNumbered').map _)
    -- a path has one status in a plan, so the paths determine the pairs
    have hStatus : ∀ {records : List Record} {files : List (Record × Nat)},
        plannedRecords options records.zipIdx = files →
        (plan records options).entries.map shown =
          ((plan records options).entries.map Entry.path).map fun path =>
            (path, statusOf options (cutFor options.budget files) path) := by
      intro records files hFiles
      rw [List.map_map]
      apply List.map_congr_left
      intro entry hEntry
      exact congrArg (Prod.mk entry.path) (status_eq_statusOf records options hFiles hEntry)
    rw [hStatus hFiles, hStatus hFiles', hPaths, hCut]
  · rw [plan_eq records options hFiles, plan_eq records' options hFiles', hCut]
  · rw [plan_eq records options hFiles, plan_eq records' options hFiles']
    have hDropped := congrArg (List.map Record.path) hLeft
    rw [List.map_map, List.map_map] at hDropped
    exact congrArg sorted hDropped
  · rw [plan_eq records options hFiles, plan_eq records' options hFiles', ← hCut]
    exact congrArg wrap (chargeAll_of_same hSame hNodup hNodup'
      (isLeaf_of_mem_cutFor options.budget files) (leftFor_isPrefix _ _).sublist
      (leftFor_isPrefix _ _).sublist hLeft)

/-- Two records of one directory, which is spelled in two ways. -/
def mixedRecords : List Record := [⟨"b//z.rs", 9⟩, ⟨"b/a.rs", 5⟩]

theorem plan_same_of_perm_mixedRecords :
    mixedRecords.Perm mixedRecords.reverse ∧
      ((plan mixedRecords.reverse { budget := .lines 6 }).entries.map fun entry =>
        (entry.path, entry.status)) = [("b//z.rs", .truncated), ("b/a.rs", .truncated)] ∧
      (plan mixedRecords.reverse { budget := .lines 6 }).truncatedDirs = ["b"] := by
  have hPerm : mixedRecords.Perm mixedRecords.reverse := (List.reverse_perm _).symm
  obtain ⟨hEntries, hDirs, _⟩ := plan_same_of_perm hPerm { budget := .lines 6 }
  rw [← hEntries, ← hDirs]
  exact ⟨hPerm, by cbv, by cbv⟩

end InputOrder

end SymbolMap.Plan
