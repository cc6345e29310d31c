import Mathlib
import SymbolMap.Proofs.Path.Names
import SymbolMap.Proofs.Path.Spelling
import SymbolMap.Proofs.Plan.Accounts

/-! Which files a filter and skip patterns select. Both compare texts, but what
they accept can be said in whole segments. So the path of a truncated directory
is a filter that shows the files of this directory and nothing else. -/
namespace SymbolMap

open SymbolMap.Path SymbolMap.Text

namespace Path

section Below

/-- A path lies below a directory: it has the segments of the directory, and
more behind them. -/
def LiesBelow (path dir : List Char) : Prop :=
  segments dir <+: segments path ∧ segments dir ≠ segments path

theorem liesBelow_iff (path dir : List Char) :
    LiesBelow path dir ↔ ∃ rest, path = dir ++ '/' :: rest := by
  constructor
  · rintro ⟨⟨more, hMore⟩, hNe⟩
    have hFurther : more ≠ [] := by
      rintro rfl
      exact hNe (by simpa using hMore)
    refine ⟨ofSegments more, ?_⟩
    calc path = ofSegments (segments dir ++ more) := by rw [hMore, ofSegments_segments]
      _ = ofSegments (segments dir) ++ '/' :: ofSegments more :=
        joinWith_append '/' (segments_ne_nil dir) hFurther
      _ = dir ++ '/' :: ofSegments more := by rw [ofSegments_segments]
  · rintro ⟨rest, rfl⟩
    rw [LiesBelow, segments_append]
    exact ⟨List.prefix_append _ _, by simpa using segments_ne_nil rest⟩

theorem isSome_below?_iff (dir path : List Char) :
    (below? dir path).isSome = true ↔ LiesBelow path dir := by
  rw [liesBelow_iff, Option.isSome_iff_exists]
  exact exists_congr fun rest => below?_eq_some_iff dir path rest

/-- Equal segments make equal paths. -/
theorem segments_inj {first second : List Char} :
    segments first = segments second ↔ first = second := by
  refine ⟨fun hSame => ?_, congrArg segments⟩
  rw [← ofSegments_segments first, hSame, ofSegments_segments]

/-- A path is a directory or lies below it when it begins with all segments of
the directory. -/
theorem eq_or_liesBelow_iff (path dir : List Char) :
    path = dir ∨ LiesBelow path dir ↔ segments dir <+: segments path := by
  rw [← segments_inj, LiesBelow, eq_comm]
  constructor
  · rintro (hSame | hBelow)
    · exact hSame ▸ List.prefix_rfl
    · exact hBelow.1
  · intro hPrefix
    by_cases hSame : segments dir = segments path
    · exact Or.inl hSame
    · exact Or.inr ⟨hPrefix, hSame⟩

end Below

section Ends

variable {path : List Char}

/-- A text without slashes at its end keeps all of it. -/
theorem withoutSlashes_of_getLast? (hEnd : path.getLast? ≠ some '/') :
    withoutSlashes path = path := by
  cases hLast : path.getLast? with
  | none => simp [List.getLast?_eq_none_iff.mp hLast, withoutSlashes, dropEndWhile]
  | some c =>
      have hOther : c ≠ '/' := fun h => hEnd (h ▸ hLast)
      exact dropEndWhile_of_getLast? hLast (by simpa using hOther)

/-- Taking away a dot and a slash in front leaves the end of a text, if it
leaves anything. -/
theorem getLast?_withoutDot (hSome : withoutDot path ≠ []) :
    (withoutDot path).getLast? = path.getLast? := by
  by_cases hDot : ['.', '/'] <+: path
  · obtain ⟨rest, rfl⟩ := hDot
    rw [withoutDot_dot] at hSome ⊢
    rw [List.getLast?_append_of_ne_nil _ hSome]
  · rw [withoutDot_of_no_dot hDot]

end Ends

section Stepwise

variable {path : List Char}

/-- A path that goes a step with every segment: none is empty or the current
directory. -/
def Stepwise (path : List Char) : Prop :=
  ∀ seg ∈ segments path, seg ≠ [] ∧ seg ≠ ['.']

instance (path : List Char) : Decidable (Stepwise path) :=
  inferInstanceAs (Decidable (∀ seg ∈ segments path, _))

theorem Stepwise.withoutDot (hPath : Stepwise path) : Path.withoutDot path = path := by
  refine withoutDot_of_no_dot fun hDot => ?_
  exact (hPath ['.'] (List.mem_of_head? (head?_segments_of_dot hDot))).2 rfl

theorem Stepwise.withoutSlashes (hPath : Stepwise path) : Path.withoutSlashes path = path := by
  obtain ⟨last, hLast, hEnd⟩ := exists_getLast?_of_segments fun seg hSeg => (hPath seg hSeg).1
  exact dropEndWhile_of_getLast? hLast (by simpa using hEnd)

theorem Stepwise.ne_nil (hPath : Stepwise path) : path ≠ [] := by
  rintro rfl
  exact (hPath [] (by decide)).1 rfl

theorem stepwise_ofNames {names : List String} (hNe : names ≠ [])
    (hNames : ∀ name ∈ names, IsStep name) : Stepwise (ofNames names).toList := by
  rw [Stepwise, segments_ofNames hNe hNames, List.forall_mem_map]
  intro name hName
  obtain ⟨hFilled, hDot, _⟩ := hNames name hName
  exact ⟨by simpa using hFilled, fun h => hDot (String.toList_inj.mp h)⟩

/-- The names of such a path are its segments. -/
theorem Stepwise.map_components (hPath : Stepwise path) :
    (components path).map String.toList = segments path := by
  rw [components, List.filter_eq_self.mpr, List.map_map]
  · simp [Function.comp_def]
  · intro seg hSeg
    simp [(hPath seg hSeg).1, (hPath seg hSeg).2]

/-- A file lies below its directory, if that is not the root. -/
theorem Stepwise.liesBelow_directory {path : String} (hPath : Stepwise path.toList)
    (hDir : directory path ≠ []) :
    LiesBelow path.toList (ofNames (directory path)).toList := by
  generalize hFront : (segments path.toList).dropLast = front
  have hInit : front <+: segments path.toList := hFront ▸ List.dropLast_prefix _
  have hNe : front ≠ [] := by
    rintro rfl
    rw [directory, hFront] at hDir
    exact hDir rfl
  have hSegs : segments (ofSegments front) = front := segments_ofSegments hNe fun seg hSeg =>
    slash_not_mem_of_mem_segments (hInit.subset hSeg)
  have hSteps : Stepwise (ofSegments front) := by
    rw [Stepwise, hSegs]
    exact fun seg hSeg => hPath seg (hInit.subset hSeg)
  have hText : (ofNames (directory path)).toList = ofSegments front := by
    rw [ofNames, String.toList_ofList, directory, hFront, hSteps.map_components, hSegs]
  rw [hText, LiesBelow, hSegs]
  refine ⟨hInit, fun hAll => ?_⟩
  have hLength := congrArg List.length hFront
  rw [← hAll, List.length_dropLast] at hLength
  have hFilled := List.length_pos_iff.mpr hNe
  omega

end Stepwise

end Path

namespace Plan

section Segments

theorem matchesFilter_iff (path filter : List Char) :
    matchesFilter path filter = true ↔ withoutDot path = withoutDot filter ∨
      withoutSlashes (withoutDot filter) ≠ [] ∧
        LiesBelow (withoutDot path) (withoutSlashes (withoutDot filter)) := by
  by_cases hSame : withoutDot path = withoutDot filter
  · simp [matchesFilter, hSame]
  · simp [matchesFilter, hSame, isSome_below?_iff]

theorem matchesSkip_iff (path pattern : List Char) :
    matchesSkip path pattern = true ↔ withoutSlashes (withoutDot pattern) ≠ [] ∧
      segments (withoutSlashes (withoutDot pattern)) <+: segments (withoutDot path) := by
  simp [matchesSkip, isSome_below?_iff, eq_or_liesBelow_iff]

theorem isSkipped_iff (path : List Char) (patterns : List String) :
    isSkipped path patterns = true ↔ ∃ pattern ∈ patterns,
      withoutSlashes (withoutDot pattern.toList) ≠ [] ∧
        segments (withoutSlashes (withoutDot pattern.toList)) <+: segments (withoutDot path) := by
  simp [isSkipped, matchesSkip_iff]

/-- A filter and a skip pattern of one text accept the same paths, unless
slashes end the text or it names only the current directory. -/
theorem matchesFilter_eq_matchesSkip (path : List Char) {text : List Char}
    (hEnd : text.getLast? ≠ some '/') (hSome : withoutDot text ≠ []) :
    matchesFilter path text = matchesSkip path text := by
  have hWhole : withoutSlashes (withoutDot text) = withoutDot text :=
    withoutSlashes_of_getLast? (by rwa [getLast?_withoutDot hSome])
  rw [Bool.eq_iff_iff, matchesFilter_iff, matchesSkip_iff, hWhole, ← eq_or_liesBelow_iff]
  simp [hSome]

/-- A filter accepts the path that it names and what lies below it; a skip
pattern does the same, and slashes at its end do not matter to it. No part of a
segment is ever compared, and a text without slashes at its end selects as a
filter what it hides as a skip pattern. -/
theorem selection_by_segments (path filter : String) (patterns : List String) :
    (matchesFilter path.toList filter.toList = true ↔
      withoutDot path.toList = withoutDot filter.toList ∨
      withoutSlashes (withoutDot filter.toList) ≠ [] ∧
        LiesBelow (withoutDot path.toList) (withoutSlashes (withoutDot filter.toList))) ∧
    (isSkipped path.toList patterns = true ↔ ∃ pattern ∈ patterns,
      withoutSlashes (withoutDot pattern.toList) ≠ [] ∧
        segments (withoutSlashes (withoutDot pattern.toList)) <+:
          segments (withoutDot path.toList)) ∧
    (filter.toList.getLast? ≠ some '/' → withoutDot filter.toList ≠ [] →
      matchesFilter path.toList filter.toList = isSkipped path.toList [filter]) := by
  refine ⟨matchesFilter_iff _ _, isSkipped_iff _ _, fun hEnd hSome => ?_⟩
  rw [matchesFilter_eq_matchesSkip path.toList hEnd hSome]
  simp [isSkipped]

end Segments

section Hints

/-- The path of a truncated directory is made of names, at least one. -/
theorem exists_names_of_mem_truncatedDirs {records : List Record} {options : Options}
    {dir : String} (hDir : dir ∈ (plan records options).truncatedDirs) :
    ∃ names, names ≠ [] ∧ (∀ name ∈ names, IsStep name) ∧ ofNames names = dir := by
  obtain ⟨hBelow, entry, _, _, hFolder⟩ := exists_truncated_entry records options hDir
  refine ⟨directory entry.path, ?_, fun name hName => (isStep_of_mem_directory hName).1, hFolder⟩
  intro hRoot
  rw [hRoot] at hFolder
  exact hBelow hFolder.symm

/-- Names that lead down make a filter that accepts what they lead to and what
lies below it. -/
theorem matchesFilter_ofNames_iff {names : List String} (hNe : names ≠ [])
    (hNames : ∀ name ∈ names, IsStep name) {path : List Char} (hPath : Stepwise path) :
    matchesFilter path (ofNames names).toList = true ↔
      path = (ofNames names).toList ∨ LiesBelow path (ofNames names).toList := by
  have hDir : Stepwise (ofNames names).toList := stepwise_ofNames hNe hNames
  have hSome : (ofNames names).toList ≠ [] := hDir.ne_nil
  rw [matchesFilter_iff, hPath.withoutDot, hDir.withoutDot, hDir.withoutSlashes]
  simp [hSome]

/-- Without a limit a filter makes every entry a full one, and the entries are
those of the records that it accepts and that have something to show. -/
theorem mem_entries_plan_filtered_iff (records : List Record) {options : Options}
    {filter : String} (hFilter : options.filter = some filter)
    (hBudget : options.budget = .unlimited) (entry : Entry) :
    entry ∈ (plan records options).entries ↔ entry.status = .full ∧
      ∃ record, records[entry.index]? = some record ∧ record.path = entry.path ∧
        matchesFilter record.path.toList filter.toList = true ∧ 0 < record.cost := by
  have hNone : entry ∉ skippedEntries options records.zipIdx := by
    rw [mem_skippedEntries_iff]
    rintro ⟨_, record, _, _, hChosen⟩
    rw [options.choose_eq_skipped_iff, hFilter] at hChosen
    exact absurd hChosen.1 (by simp)
  rw [mem_entries_plan_iff records options rfl, hBudget, or_iff_right hNone]
  simp only [cutFor, leftFor, Budget.limit?, List.not_mem_nil, not_false_eq_true, true_and,
    plannedRecords, List.mem_filter, Prod.exists, List.mk_mem_zipIdx_iff_getElem?]
  constructor
  · rintro ⟨record, index, ⟨hRecord, hChosen⟩, rfl⟩
    simp_all [entryOf, options.choose_eq_shown_iff, Options.selects]
  · rintro ⟨hStatus, record, hRecord, hPath, hMatch, hCost⟩
    refine ⟨record, entry.index, ⟨hRecord, ?_⟩, ?_⟩
    · simp_all [options.choose_eq_shown_iff, Options.selects]
    · cases entry
      simp_all [entryOf]

/-- A truncated directory can be looked into by its own path: as a filter,
without a limit, the path shows in full every file that was truncated there, and
nothing but files below the directory and a file of its name. -/
theorem filter_shows_truncated_dir (records : List Record) (options : Options) (dir : String)
    (hPaths : ∀ record ∈ records, Stepwise record.path.toList)
    (hDir : dir ∈ (plan records options).truncatedDirs) :
    let inside := plan records { options with filter := some dir, budget := .unlimited }
    (∀ entry ∈ (plan records options).entries, entry.status = .truncated →
      ofNames (directory entry.path) = dir → { entry with status := .full } ∈ inside.entries) ∧
    ∀ entry ∈ inside.entries, entry.status = .full ∧
      (entry.path = dir ∨ LiesBelow entry.path.toList dir.toList) := by
  intro inside
  obtain ⟨names, hNe, hNames, rfl⟩ := exists_names_of_mem_truncatedDirs hDir
  have hAccepted : ∀ record ∈ records,
      matchesFilter record.path.toList (ofNames names).toList = true ↔
        record.path.toList = (ofNames names).toList ∨
          LiesBelow record.path.toList (ofNames names).toList :=
    fun record hRecord => matchesFilter_ofNames_iff hNe hNames (hPaths record hRecord)
  have hInside : ∀ entry, entry ∈ inside.entries ↔ _ :=
    mem_entries_plan_filtered_iff records rfl rfl
  constructor
  · intro entry hEntry hStatus hFolder
    obtain ⟨file, hFile, _, rfl⟩ := (mem_shown_plan_iff records options rfl entry).mp
      ⟨hEntry, by simp [hStatus]⟩
    have hRecord := getElem?_of_mem_plannedRecords hFile
    have hMem := List.mem_of_getElem? hRecord
    have hSame : directory file.1.path = names :=
      ofNames_inj (fun name hName => (isStep_of_mem_directory hName).1) hNames hFolder
    have hBelow := (hPaths _ hMem).liesBelow_directory (hSame ▸ hNe)
    rw [hSame] at hBelow
    have hCost : 0 < file.1.cost :=
      of_decide_eq_true (Bool.and_eq_true_iff.mp (List.mem_filter.mp hFile).2).2
    exact (hInside _).mpr
      ⟨rfl, file.1, hRecord, rfl, (hAccepted _ hMem).mpr (Or.inr hBelow), hCost⟩
  · intro entry hEntry
    obtain ⟨hStatus, record, hRecord, hPath, hMatch, _⟩ := (hInside entry).mp hEntry
    refine ⟨hStatus, ?_⟩
    rw [hAccepted record (List.mem_of_getElem? hRecord), hPath] at hMatch
    exact hMatch.imp_left String.toList_inj.mp

/-- A directory that holds a skipped one, beside a directory whose name begins
like its own and a file of its name. -/
def alikeRecords : List Record := [⟨"a/x", 5⟩, ⟨"a-/y", 4⟩, ⟨"a/g/z", 6⟩, ⟨"a", 3⟩]

def skippingInside : Options := { skipPatterns := ["a/g/"], budget := .lines 10 }

theorem plannedRecords_alikeRecords : plannedRecords skippingInside alikeRecords.zipIdx =
    [(⟨"a/x", 5⟩, 0), (⟨"a-/y", 4⟩, 1), (⟨"a", 3⟩, 3)] := by decide

theorem filter_shows_truncated_alikeRecords :
    (∀ record ∈ alikeRecords, Stepwise record.path.toList) ∧
      "a" ∈ (plan alikeRecords skippingInside).truncatedDirs ∧
      ⟨0, "a/x", .full⟩ ∈ (plan alikeRecords
        { skippingInside with filter := some "a", budget := .unlimited }).entries := by
  have hPaths : ∀ record ∈ alikeRecords, Stepwise record.path.toList := by decide
  have hDirs : (plan alikeRecords skippingInside).truncatedDirs = ["a"] := by
    simp only [plan, plannedRecords_alikeRecords]
    cbv
  have hShown : ((fit skippingInside.budget (treeOf
      (plannedRecords skippingInside alikeRecords.zipIdx))).1.walk.flatMap Visit.entries) =
      [⟨3, "a", .full⟩, ⟨0, "a/x", .truncated⟩, ⟨1, "a-/y", .full⟩] := by
    rw [plannedRecords_alikeRecords]
    cbv
  have hEntry : ⟨0, "a/x", .truncated⟩ ∈ (plan alikeRecords skippingInside).entries := by
    simp [plan, hShown]
  have hDir : "a" ∈ (plan alikeRecords skippingInside).truncatedDirs := by simp [hDirs]
  have hFull := (filter_shows_truncated_dir alikeRecords skippingInside "a" hPaths hDir).1
  exact ⟨hPaths, hDir, hFull _ hEntry rfl (by decide)⟩

end Hints

end Plan

end SymbolMap
