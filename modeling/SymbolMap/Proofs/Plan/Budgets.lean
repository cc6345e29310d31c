import Mathlib
import SymbolMap.Proofs.Plan.Accounts
import SymbolMap.Report

/-! What the budget makes of a plan: which limits can be met at all, when
something is cut, and what a larger budget changes. -/
namespace SymbolMap.Plan

open SymbolMap.Path SymbolMap.Text

section Limits

variable {files : List (Record × Nat)} {cut : List (List String)} {left : List (Record × Nat)}
  {limit : Nat}

/-- Placeholders take no more lines than the files that they stand for, so
pruning never adds to the lines. -/
theorem chargeAll_le_sum (hCosts : ∀ file ∈ files, placeholderLines ≤ file.1.cost) :
    chargeAll files cut left ≤ (files.map (·.1.cost)).sum := by
  refine List.sum_le_sum fun file hFile => ?_
  rw [charge]
  split
  · exact hCosts file hFile
  · split
    · exact Nat.zero_le _
    · exact le_rfl

end Limits

section Reach

variable {records : List Record} {options : Options} {limit : Nat}

/-- Records of 12, 20 and 6 lines, the first in a leaf directory and the others
in the directory above it. -/
def nestedRecords : List Record :=
  let symbol : Symbol :=
    { name := "f", kind := .function, range := Range.ofLines 0 0, signature := "fn f()",
      doc := none }
  [("src/util/a.rs", 10), ("src/lib.rs", 18), ("src/mod.rs", 4)].map fun file =>
    FileOutline.record
      { path := file.1, language := .rust,
        outline := { symbols := List.replicate file.2 symbol } }

end Reach

section Larger

/-- Budgets by what they grant: fewer lines before more, and no limit last. -/
instance : LE Budget where
  le
    | _, .unlimited => True
    | .unlimited, .lines _ => False
    | .lines a, .lines b => a ≤ b

variable {files : List (Record × Nat)} {cut cut' : List (List String)}
  {left left' : List (Record × Nat)}

/-- A larger budget stops sooner in both phases. It may stop in the first one
where the smaller goes on to the second. -/
theorem Fits.isPrefix_of_le {small large : Budget} (hFits : Fits files cut left small)
    (hFits' : Fits files cut' left' large) (hLe : small ≤ large) :
    cut' <+: cut ∧ left' <+: left := by
  cases large with
  | unlimited =>
      rw [hFits'.1, hFits'.2]
      exact ⟨List.nil_prefix, List.nil_prefix⟩
  | lines limit' =>
      cases small with
      | unlimited => exact False.elim hLe
      | lines limit =>
          have hLimit : limit ≤ limit' := hLe
          obtain ⟨hCut, hLeft⟩ := hFits
          obtain ⟨hCut', hLeft'⟩ := hFits'
          have hShorter : cut' <+: cut := hCut.isPrefix_of_imp hCut' fun _ h => h.trans hLimit
          refine ⟨hShorter, ?_⟩
          split at hLeft'
          · rw [hLeft']
            exact List.nil_prefix
          · -- all leaves were not enough for the larger limit, so neither for the smaller
            rename_i hOver'
            have hAll' : cut' = leaves files := hCut'.enough_or_eq.resolve_left hOver'
            have hAll : cut = cut' :=
              (hShorter.eq_of_length_le (hAll' ▸ hCut.isPrefix.length_le)).symm
            have hOver : ¬wrap (chargeAll files cut []) ≤ limit := by
              rw [hAll]
              exact fun h => hOver' (h.trans hLimit)
            rw [if_neg hOver] at hLeft
            exact hLeft.isPrefix_of_imp hLeft' fun _ h => h.trans hLimit

/-- A larger budget never shows less: it truncates no other directory, a file
that was full stays full, and a file that was listed stays listed. -/
theorem plan_shows_no_less_of_le (records : List Record) (options : Options) {small large : Budget}
    (hLe : small ≤ large) :
    let plan := fun budget => plan records { options with budget }
    (plan large).truncatedDirs ⊆ (plan small).truncatedDirs ∧
    (∀ entry ∈ (plan small).entries, entry.status = .full → entry ∈ (plan large).entries) ∧
    ∀ entry ∈ (plan small).entries, entry.status ≠ .skipped →
      ∃ other ∈ (plan large).entries, other.index = entry.index ∧ other.path = entry.path ∧
        other.status ≠ .skipped := by
  intro plan
  generalize hFiles : plannedRecords options records.zipIdx = files
  have hShows := fun budget => shows_plan records { options with budget } hFiles
  have hEntries := fun budget => mem_shown_plan_iff records { options with budget } hFiles
  obtain ⟨hCut, hLeft⟩ := (fits_cutFor_leftFor files small).isPrefix_of_le
    (fits_cutFor_leftFor files large) hLe
  refine ⟨?_, ?_, ?_⟩
  · intro dir hDir
    rw [(hShows large).truncatedDirs.mem_iff] at hDir
    rw [(hShows small).truncatedDirs.mem_iff]
    exact List.map_subset _ hCut.subset hDir
  · intro entry hEntry hFull
    obtain ⟨file, hFile, hKept, rfl⟩ := (hEntries small entry).mp ⟨hEntry, by simp [hFull]⟩
    have hHere := (status_entryOf_eq_full_iff _ file).mp hFull
    refine ((hEntries large _).mpr ⟨file, hFile, fun h => hKept (hLeft.subset h), ?_⟩).1
    have hThere : folder file ∉ cutFor large files := fun h => hHere (hCut.subset h)
    simp only [entryOf, if_neg hHere, if_neg hThere]
  · intro entry hEntry hShown
    obtain ⟨file, hFile, hKept, rfl⟩ := (hEntries small entry).mp ⟨hEntry, hShown⟩
    obtain ⟨hMem, hStatus⟩ := (hEntries large _).mpr
      ⟨file, hFile, fun h => hKept (hLeft.subset h), rfl⟩
    exact ⟨_, hMem, rfl, rfl, hStatus⟩

theorem plan_shows_no_less_nestedRecords :
    Budget.lines 12 ≤ Budget.lines 30 ∧
      ⟨2, "src/mod.rs", .full⟩ ∈ (plan nestedRecords { budget := .lines 12 }).entries ∧
      ⟨2, "src/mod.rs", .full⟩ ∈ (plan nestedRecords { budget := .lines 30 }).entries ∧
      (plan nestedRecords { budget := .lines 30 }).truncatedDirs ⊆
        (plan nestedRecords { budget := .lines 12 }).truncatedDirs := by
  have hLe : Budget.lines 12 ≤ Budget.lines 30 := by
    change 12 ≤ 30
    decide
  have hEntries : (plan nestedRecords { budget := .lines 12 }).entries =
      [⟨2, "src/mod.rs", .full⟩, ⟨0, "src/util/a.rs", .truncated⟩] := by cbv
  have hShown : ⟨2, "src/mod.rs", .full⟩ ∈
      (plan nestedRecords { budget := .lines 12 }).entries := by
    rw [hEntries]
    exact List.mem_cons_self
  obtain ⟨hDirs, hFull, _⟩ := plan_shows_no_less_of_le nestedRecords {} hLe
  exact ⟨hLe, hShown, hFull _ hShown rfl, hDirs⟩

end Larger

end SymbolMap.Plan
