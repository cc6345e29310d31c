import SymbolMap.Proofs.Plan.Outcome
import SymbolMap.Proofs.Text.OctetOrder

/-! What a plan says adds up. Every selected record is an entry or is left out,
once; and the lines that the plan charges are those of the entries that it
shows. -/
namespace SymbolMap.Plan

open SymbolMap.Path SymbolMap.Text

section Selection

/-- Whether a path is to be shown: the filter matches it or, without a filter,
no skip pattern covers it. -/
def Options.selects (options : Options) (path : String) : Bool :=
  match options.filter with
  | some filter => matchesFilter path.toList filter.toList
  | none => !isSkipped path.toList options.skipPatterns

theorem Options.choose_eq_shown_iff (options : Options) (path : String) :
    options.choose path = .shown ↔ options.selects path = true := by
  cases hFilter : options.filter <;> simp [choose, selects, hFilter]

theorem Options.choose_eq_skipped_iff (options : Options) (path : String) :
    options.choose path = .skipped ↔
      options.filter = none ∧ isSkipped path.toList options.skipPatterns = true := by
  cases hFilter : options.filter with
  | none => simp [choose, hFilter]
  | some filter => by_cases hMatch : matchesFilter path.toList filter.toList <;>
      simp [choose, hFilter, hMatch]

theorem map_fst_plannedRecords (options : Options) (records : List Record) :
    (plannedRecords options records.zipIdx).map Prod.fst =
      records.filter fun record => options.selects record.path && 0 < record.cost := by
  have hChosen : (fun file : Record × Nat =>
        decide (options.choose file.1.path = .shown) && decide (0 < file.1.cost)) =
      (fun record => options.selects record.path && decide (0 < record.cost)) ∘ Prod.fst := by
    funext file
    simp [Options.choose_eq_shown_iff]
  rw [plannedRecords, hChosen, ← List.filter_map, List.zipIdx_map_fst]

theorem getElem?_of_mem_plannedRecords {options : Options} {records : List Record}
    {file : Record × Nat} (hFile : file ∈ plannedRecords options records.zipIdx) :
    records[file.2]? = some file.1 :=
  List.mk_mem_zipIdx_iff_getElem?.mp (List.mem_filter.mp hFile).1

theorem mem_skippedEntries_iff (options : Options) (records : List Record) (entry : Entry) :
    entry ∈ skippedEntries options records.zipIdx ↔
      entry.status = .skipped ∧ ∃ record, records[entry.index]? = some record ∧
        record.path = entry.path ∧ options.choose record.path = .skipped := by
  simp only [skippedEntries, List.mem_map, List.mem_filter, Prod.exists,
    List.mk_mem_zipIdx_iff_getElem?, decide_eq_true_eq]
  constructor
  · rintro ⟨record, index, ⟨hRecord, hChosen⟩, rfl⟩
    exact ⟨rfl, record, hRecord, rfl, hChosen⟩
  · rintro ⟨hStatus, record, hRecord, hPath, hChosen⟩
    refine ⟨record, entry.index, ⟨hRecord, hChosen⟩, ?_⟩
    cases entry
    simp_all

end Selection

section Entries

variable (records : List Record) (options : Options)

theorem mem_entries_plan_iff {files : List (Record × Nat)}
    (hFiles : plannedRecords options records.zipIdx = files) (entry : Entry) :
    entry ∈ (plan records options).entries ↔
      entry ∈ skippedEntries options records.zipIdx ∨
        ∃ file ∈ files, file ∉ leftFor options.budget files ∧
          entryOf (cutFor options.budget files) file = entry := by
  rw [plan_eq records options hFiles, List.mem_mergeSort, List.mem_append, List.mem_map]
  simp only [List.mem_filter, decide_eq_true_eq, and_assoc]

/-- Entries that are not skipped are those of the planned files that are not
left out. -/
theorem mem_shown_plan_iff {files : List (Record × Nat)}
    (hFiles : plannedRecords options records.zipIdx = files) (entry : Entry) :
    entry ∈ (plan records options).entries ∧ entry.status ≠ .skipped ↔
      ∃ file ∈ files, file ∉ leftFor options.budget files ∧
        entryOf (cutFor options.budget files) file = entry := by
  rw [mem_entries_plan_iff records options hFiles]
  constructor
  · rintro ⟨hSkipped | hShown, hStatus⟩
    · exact absurd (status_of_mem_skippedEntries hSkipped) hStatus
    · exact hShown
  · rintro ⟨file, hFile, hKept, rfl⟩
    exact ⟨Or.inr ⟨file, hFile, hKept, rfl⟩, status_entryOf_ne _ file⟩

/-- An entry is about the record at its position. -/
theorem exists_record_of_mem_entries {entry : Entry}
    (hEntry : entry ∈ (plan records options).entries) :
    ∃ record, records[entry.index]? = some record ∧ record.path = entry.path := by
  rcases (mem_entries_plan_iff records options rfl entry).mp hEntry with
    hSkipped | ⟨file, hFile, _, rfl⟩
  · obtain ⟨_, record, hRecord, hPath, _⟩ :=
      (mem_skippedEntries_iff options records entry).mp hSkipped
    exact ⟨record, hRecord, hPath⟩
  · exact ⟨file.1, getElem?_of_mem_plannedRecords hFile, rfl⟩

theorem nodup_index_entries : ((plan records options).entries.map Entry.index).Nodup := by
  rw [plan_eq records options rfl, ((List.mergeSort_perm _ _).map _).nodup_iff]
  exact nodup_indices options records _ _

theorem exists_skipped_iff (index : Nat) :
    (∃ entry ∈ (plan records options).entries, entry.index = index ∧ entry.status = .skipped) ↔
      options.filter = none ∧ ∃ record, records[index]? = some record ∧
        isSkipped record.path.toList options.skipPatterns = true := by
  constructor
  · rintro ⟨entry, hEntry, rfl, hStatus⟩
    rcases (mem_entries_plan_iff records options rfl entry).mp hEntry with
      hSkipped | ⟨file, _, _, rfl⟩
    · obtain ⟨_, record, hRecord, _, hChosen⟩ :=
        (mem_skippedEntries_iff options records entry).mp hSkipped
      obtain ⟨hFilter, hCovered⟩ := (options.choose_eq_skipped_iff record.path).mp hChosen
      exact ⟨hFilter, record, hRecord, hCovered⟩
    · exact absurd hStatus (status_entryOf_ne _ file)
  · rintro ⟨hFilter, record, hRecord, hCovered⟩
    refine ⟨⟨index, record.path, .skipped⟩, ?_, rfl, rfl⟩
    rw [mem_entries_plan_iff records options rfl, mem_skippedEntries_iff]
    exact Or.inl ⟨rfl, record, hRecord, rfl,
      (options.choose_eq_skipped_iff record.path).mpr ⟨hFilter, hCovered⟩⟩

/-- The shown files and those left out are together the planned ones. -/
theorem shown_append_dropped_perm {files : List (Record × Nat)}
    (hFiles : plannedRecords options records.zipIdx = files) :
    (((plan records options).entries.filter (·.status ≠ .skipped)).map Entry.path ++
      (plan records options).dropped).Perm (files.map (·.1.path)) := by
  have hShows := shows_plan records options hFiles
  have hNumbered : (files.map Prod.snd).Nodup := hFiles ▸ nodup_plannedRecords options records
  have hOnce := nodup_leftFor (hFiles ▸ pairwise_plannedRecords options records) options.budget
  have hLeft := filter_mem_left_perm hNumbered (leftFor_subset options.budget files) hOnce
  have hShown := hShows.entries.map Entry.path
  rw [List.map_map] at hShown
  have hBoth := (List.filter_append_perm (· ∉ leftFor options.budget files) files).map (·.1.path)
  rw [List.map_append] at hBoth
  refine (hShown.append (hShows.dropped.trans (hLeft.symm.map _))).trans ?_
  simpa [Function.comp_def, entryOf] using hBoth

theorem pairwise_entries :
    (plan records options).entries.Pairwise fun a b =>
      a.path < b.path ∨ a.path = b.path ∧ a.index < b.index := by
  have hSorted : (plan records options).entries.Pairwise fun a b => a.before b = true := by
    rw [plan_eq records options rfl]
    exact pairwise_mergeSort_before _
  have hIndices := List.pairwise_map.mp (nodup_index_entries records options)
  refine (hSorted.and hIndices).imp fun hBoth => ?_
  exact ((Entry.before_iff _ _).mp hBoth.1).imp_right fun h =>
    ⟨h.1, lt_of_le_of_ne h.2 hBoth.2⟩

theorem pairwise_truncatedDirs : (plan records options).truncatedDirs.Pairwise (· ≤ ·) := by
  rw [plan_eq records options rfl]
  exact pairwise_sorted _

theorem pairwise_dropped : (plan records options).dropped.Pairwise (· ≤ ·) := by
  rw [plan_eq records options rfl]
  exact pairwise_sorted _

/-- A plan loses no record and lists none twice. Entries come in the order of
the octets of their paths and then of their positions; directories and files
that were cut come in the order of their octets. -/
theorem plan_accounts_for_every_record (records : List Record) (options : Options) :
    let plan := plan records options
    (plan.entries.map Entry.index).Nodup ∧
    (∀ entry ∈ plan.entries,
      ∃ record, records[entry.index]? = some record ∧ record.path = entry.path) ∧
    (∀ index, (∃ entry ∈ plan.entries, entry.index = index ∧ entry.status = .skipped) ↔
      options.filter = none ∧ ∃ record, records[index]? = some record ∧
        isSkipped record.path.toList options.skipPatterns = true) ∧
    ((plan.entries.filter (·.status ≠ .skipped)).map Entry.path ++ plan.dropped).Perm
      ((records.filter fun record => options.selects record.path && 0 < record.cost).map
        Record.path) ∧
    plan.entries.Pairwise (fun a b => encode a.path.toList < encode b.path.toList ∨
      a.path = b.path ∧ a.index < b.index) ∧
    plan.truncatedDirs.Pairwise (fun a b => encode a.toList ≤ encode b.toList) ∧
    plan.dropped.Pairwise (fun a b => encode a.toList ≤ encode b.toList) := by
  intro plan
  refine ⟨nodup_index_entries records options, ?_, exists_skipped_iff records options,
    ?_, ?_, ?_, ?_⟩
  · intro entry hEntry
    exact exists_record_of_mem_entries records options hEntry
  · rw [← map_fst_plannedRecords, List.map_map]
    exact shown_append_dropped_perm records options rfl
  · simpa only [lt_iff_encode_lt] using pairwise_entries records options
  · simpa only [le_iff_encode_le] using pairwise_truncatedDirs records options
  · simpa only [le_iff_encode_le] using pairwise_dropped records options

end Entries

section Charges

variable (records : List Record) (options : Options)

/-- A truncated directory lies below the root and holds a file, which shows as
truncated. -/
theorem exists_truncated_entry {dir : String} (hDir : dir ∈ (plan records options).truncatedDirs) :
    dir ≠ "" ∧ ∃ entry ∈ (plan records options).entries, entry.status = .truncated ∧
      ofNames (directory entry.path) = dir := by
  generalize hFiles : plannedRecords options records.zipIdx = files
  rw [(shows_plan records options hFiles).truncatedDirs.mem_iff, List.mem_map] at hDir
  obtain ⟨names, hNames, rfl⟩ := hDir
  have hLeaf := isLeaf_of_mem_cutFor options.budget files names hNames
  have hSteps := hLeaf.isStep
  obtain ⟨hBelow, ⟨file, hFile, rfl⟩, _⟩ := hLeaf
  have hKept : file ∉ leftFor options.budget files := fun hLeft =>
    folder_not_mem_cutFor hLeft hNames
  refine ⟨fun hRoot => hBelow (ofNames_inj hSteps (by simp) hRoot), ?_⟩
  refine ⟨entryOf (cutFor options.budget files) file, ?_,
    (status_entryOf_eq_truncated_iff _ file).mpr hNames, rfl⟩
  exact ((mem_shown_plan_iff records options hFiles _).mpr ⟨file, hFile, hKept, rfl⟩).1

end Charges

end SymbolMap.Plan
